import EmbeddedInfra.Services.Network.DnsNames

set_option autoImplicit false

/-! # Comparing names in DNS replies

`ReadAndMatchHostname` compares a name in the datagram with a hostname, label by label. A label that is longer than
the one of the hostname does not match; one that is shorter is compared as far as it goes.
-/

namespace EmbeddedInfra.DnsReplies

open CallTrees Tokenizer.Positions

/-! ## Names in a datagram -/

/-- At the first position there is a name with these labels, and the second position is just behind it. A pointer
leads to labels, or to a zero byte, that stand earlier. -/
inductive Encodes (data : List UInt8) : Nat → List BoundedString → Nat → Prop
  | zero {position : Nat} (hzero : data[position]? = some 0) : Encodes data position [] (position + 1)
  | label {position behind : Nat} {size : UInt8} {label : BoundedString} {labels : List BoundedString}
      (hsize : data[position]? = some size) (hpos : 0 < size.toNat) (hle : size.toNat ≤ 63)
      (hlabel : (data.drop (position + 1)).take size.toNat = label) (hlength : label.length = size.toNat)
      (hrest : Encodes data (position + 1 + size.toNat) labels behind) : Encodes data position (label :: labels) behind
  | pointer {position behind : Nat} {size offsetLow first : UInt8} {labels : List BoundedString}
      (hsize : data[position]? = some size) (hpointer : isPointer size = true)
      (hlow : data[position + 1]? = some offsetLow) (hearlier : pointerOffset size offsetLow < position)
      (hfirst : data[pointerOffset size offsetLow]? = some first) (hlabels : isPointer first = false)
      (hname : Encodes data (pointerOffset size offsetLow) labels behind) :
      Encodes data position labels (position + 2)

/-- The labels are the same, whatever the case of their letters. -/
def SameLabels (names labels : List BoundedString) : Prop :=
  names.map (List.map tolower) = labels.map (List.map tolower)

/-- Each label of the name begins the label of the hostname at the same place, and there are as many. -/
def namesBegin : List BoundedString → List BoundedString → Bool
  | [], [] => true
  | name :: names, label :: labels => (name.map tolower).isPrefixOf (label.map tolower) && namesBegin names labels
  | _, _ => false

/-- The labels of the name begin those of the hostname, and one of them is shorter. -/
def OnlyBegins (names labels : List BoundedString) : Prop :=
  namesBegin names labels = true ∧ names.map List.length ≠ labels.map List.length

/-- **What is promised of `ReadAndMatchHostname`**: it tells whether the labels are the same, and leaves the reader
behind the name. -/
def MatchesExactly (d : Datagram) (s : Stream) (names labels : List BoundedString) (behind : Nat) : Prop :=
  ∃ result s', Yields (turn d) (readAndMatchHostname d ([char '.'].intercalate labels) s) (result, s') ∧
    (result = true ↔ SameLabels names labels) ∧ s'.position = behind

variable {d : Datagram} {s : Stream} {names labels : List BoundedString} {name label : BoundedString}
  {size : UInt8} {parts : HostnameParts}

/-! ## Labels -/

theorem sameLabels_iff : SameLabels names labels ↔
    namesBegin names labels = true ∧ names.map List.length = labels.map List.length := by
  unfold SameLabels
  induction names generalizing labels with
  | nil => cases labels <;> simp [namesBegin]
  | cons name names ih =>
      rcases labels with _ | ⟨label, labels⟩
      · simp [namesBegin]
      · simp only [List.map_cons, List.cons.injEq, ih, namesBegin, Bool.and_eq_true, List.isPrefixOf_iff_prefix]
        constructor
        · rintro ⟨hname, hbegin, hlength⟩
          have hsize := congrArg List.length hname
          rw [List.length_map, List.length_map] at hsize
          exact ⟨⟨hname ▸ List.prefix_rfl, hbegin⟩, hsize, hlength⟩
        · rintro ⟨⟨hname, hbegin⟩, hsize, hlength⟩
          exact ⟨hname.eq_of_length (by rw [List.length_map, List.length_map, hsize]), hbegin, hlength⟩

/-! ## Reading what is there -/

theorem readByte_some {byte : UInt8} (h : d.data[s.position]? = some byte) (value : UInt8) :
    s.readByte d value = (byte, { s with position := s.position + 1 }) := by
  rw [Stream.readByte, h]

/-- What `Consume` makes of bytes that are there. -/
theorem consume_inside {amount : Nat} (h : s.position + amount ≤ d.data.length) :
    s.consume d amount = { s with position := s.position + amount } := by
  rw [Stream.consume, Nat.min_eq_left (by omega), decide_eq_false (by omega), Bool.or_false]

/-- The characters that are there are compared up to the first difference, and the others are skipped. -/
theorem matchCharacters_eq {current : BoundedString} (hbytes : (d.data.drop s.position).take name.length = name)
    (hle : name.length ≤ current.length) :
    matchCharacters d current name.length s =
      ((name.map tolower).isPrefixOf (current.map tolower), { s with position := s.position + name.length }) := by
  induction name generalizing current s with
  | nil => simp [matchCharacters]
  | cons c name ih =>
      rcases current with _ | ⟨expected, current⟩
      · exact absurd hle (by simp)
      · have hlength := congrArg List.length hbytes
        rw [List.length_take, List.length_drop, List.length_cons] at hlength
        have hhere : s.position < d.data.length := by omega
        rw [List.drop_eq_getElem_cons hhere, List.length_cons, List.take_succ_cons] at hbytes
        obtain ⟨hfirst, hrest⟩ := List.cons.inj hbytes
        have hread : s.readChar d = (c, { s with position := s.position + 1 }) := by
          rw [Stream.readChar, List.getElem?_eq_getElem hhere, hfirst]
        rw [List.length_cons, matchCharacters, hread]
        dsimp only
        split_ifs with hdiffer
        · rw [consume_inside (by dsimp only; omega)]
          have hbegins : ((c :: name).map tolower).isPrefixOf ((expected :: current).map tolower) = false := by
            rw [List.map_cons, List.map_cons, List.isPrefixOf_cons_cons, beq_eq_false_iff_ne.mpr (Ne.symm hdiffer),
              Bool.false_and]
          rw [hbegins, Nat.add_assoc, Nat.add_comm 1]
        · rw [ih hrest (Nat.le_of_succ_le_succ hle), List.map_cons, List.map_cons, List.isPrefixOf_cons_cons,
            beq_iff_eq.mpr (not_not.mp hdiffer).symm, Bool.true_and]
          simp only [Nat.add_assoc, Nat.add_comm 1]

/-- A label is compared with the current part, and skipped. -/
theorem readAndMatchHostnamePart_eq
    (hbytes : (d.data.drop s.position).take size.toNat = name) (hlength : name.length = size.toNat) :
    readAndMatchHostnamePart d size parts s =
      (!parts.empty && (name.map tolower).isPrefixOf (parts.current.map tolower),
        { s with position := s.position + size.toNat }) := by
  rw [← hlength] at hbytes ⊢
  have hinside := congrArg List.length hbytes
  rw [List.length_take, List.length_drop] at hinside
  have hconsume : s.consume d name.length = { s with position := s.position + name.length } := by
    rcases Nat.eq_zero_or_pos name.length with hnil | hpos
    · simp [hnil, Stream.consume]
    · exact consume_inside (by omega)
  rw [readAndMatchHostnamePart, ← hlength]
  split_ifs with hskip
  · rw [hconsume]
    rcases Bool.or_eq_true_iff.mp hskip with hempty | hshort
    · rw [hempty, Bool.not_true, Bool.false_and]
    · have hbegins : (name.map tolower).isPrefixOf (parts.current.map tolower) = false := by
        rw [Bool.eq_false_iff, ne_eq, List.isPrefixOf_iff_prefix]
        intro hprefix
        have hle := hprefix.length_le
        rw [List.length_map, List.length_map] at hle
        exact absurd (of_decide_eq_true hshort) (not_lt.mpr hle)
      rw [hbegins, Bool.and_false]
  · rw [Bool.not_eq_true, Bool.or_eq_false_iff, decide_eq_false_iff_not, not_lt] at hskip
    rw [matchCharacters_eq hbytes hskip.2, hskip.1, Bool.not_false, Bool.true_and]

/-! ## Reading a name -/

/-- What the loop does behind a label: it reads the next size. -/
def matchRest (d : Datagram) (result : Bool) (parts : HostnameParts) (s : Stream) :
    Parser (Bool × HostnameParts × Stream) :=
  let (size, s) := s.readByte d 0
  if isPointer size then do
    let (matches', parts, s) ← readAndMatchReferenceHostname d size parts s
    pure (matches' && result, parts, s)
  else readAndMatchHostnameWithoutReference size result parts s

theorem yields_withoutReference {result : Bool} {value : Bool × HostnameParts × Stream} :
    Yields (turn d) (readAndMatchHostnameWithoutReference size result parts s) value ↔
      Yields (turn d) (turn d (.matchHostname size result parts s)) value := by
  rw [readAndMatchHostnameWithoutReference, yields_ask, returns_iff]

/-- A turn of the loop, on a label. -/
theorem yields_label (hsize : size ≠ 0) {result matches' : Bool} {s' : Stream}
    (hcompare : readAndMatchHostnamePart d size parts s = (matches', s')) {value : Bool × HostnameParts × Stream} :
    Yields (turn d) (readAndMatchHostnameWithoutReference size result parts s) value ↔
      ∃ parts', (if result && matches' then Yields (turn d) (parts.consumeCurrent d) parts' else parts' = parts) ∧
        Yields (turn d) (matchRest d (result && matches') parts' s') value := by
  rw [yields_withoutReference, turn, if_neg hsize, hcompare]
  dsimp only
  cases result && matches' with
  | true =>
      rw [if_pos rfl, yields_bind]
      rfl
  | false =>
      rw [if_neg Bool.false_ne_true, yields_bind]
      simp only [yields_pure, if_neg Bool.false_ne_true]
      rfl

theorem isPointer_iff (size : UInt8) : isPointer size = true ↔ 192 ≤ size.toNat := by
  have hall : ∀ n : Fin 256, (n : Nat) &&& 192 = 192 ↔ 192 ≤ (n : Nat) := by decide +kernel
  rw [isPointer, beq_iff_eq, ← UInt8.toNat_inj, UInt8.toNat_and]
  exact hall ⟨size.toNat, size.toNat_lt⟩

theorem isPointer_label (hle : size.toNat ≤ 63) : isPointer size = false := by
  rw [Bool.eq_false_iff, ne_eq, isPointer_iff]
  omega

theorem consume_zero : s.consume d 0 = s := by
  simp [Stream.consume]

/-- The part of the hostname at a position in its labels. -/
theorem AreLabels.part (hlabels : AreLabels (char '.') labels) (hne : labels ≠ []) (k : Nat) :
    (HostnameParts.string ([char '.'].intercalate labels) k).empty = decide (k = labels.length) ∧
      (HostnameParts.string ([char '.'].intercalate labels) k).current = labels[k]?.getD [] := by
  rw [HostnameParts.empty, HostnameParts.current, hlabels.size_eq hne, hlabels.token_eq]
  exact ⟨rfl, rfl⟩

/-- **What the loop makes of a name** that is compared with the labels from `k` on. -/
theorem Encodes.matchRest {position behind : Nat} (h : Encodes d.data position names behind)
    (hlabels : AreLabels (char '.') labels) (hne : labels ≠ []) {k : Nat} (hk : k ≤ labels.length) (result failed : Bool)
    (unread : Nat) :
    ∃ parts, Yields (turn d) (matchRest d result (.string ([char '.'].intercalate labels) k)
        { position := position, failed := failed, unread := unread })
      (result && namesBegin names (labels.drop k) && !failed, parts,
        { position := behind, failed := failed, unread := unread }) := by
  obtain ⟨hostname, hhostname⟩ : ∃ hostname, hostname = [char '.'].intercalate labels := ⟨_, rfl⟩
  have hpart := AreLabels.part hlabels hne
  rw [← hhostname] at hpart ⊢
  induction h generalizing k result with
  | zero hzero =>
      refine ⟨.string hostname k, ?_⟩
      rw [DnsReplies.matchRest, readByte_some hzero]
      dsimp only
      rw [if_neg (by decide), yields_withoutReference, turn, if_pos rfl, consume_zero, yields_pure, (hpart k).1]
      have hbegin : namesBegin [] (labels.drop k) = decide (k = labels.length) := by
        rcases Nat.lt_or_eq_of_le hk with hlt | heq
        · rw [List.drop_eq_getElem_cons hlt, decide_eq_false hlt.ne]
          rfl
        · rw [heq, List.drop_length, decide_eq_true rfl]
          rfl
      rw [hbegin]
  | @label position behind size name names hsize hpos hle hlabel hlength hrest ih =>
      have hnot := isPointer_label hle
      have hne0 : size ≠ 0 := by
        rintro rfl
        exact absurd hpos (by decide)
      rw [DnsReplies.matchRest, readByte_some hsize]
      dsimp only
      rw [if_neg (by simp [hnot])]
      have hcompare := @readAndMatchHostnamePart_eq d
        { position := position + 1, failed := failed, unread := unread } _ _ (.string hostname k) hlabel hlength
      -- whether the labels match so far
      rcases Nat.lt_or_eq_of_le hk with hlt | heq
      · rw [(hpart k).1, (hpart k).2, decide_eq_false hlt.ne, Bool.not_false, Bool.true_and,
          List.getElem?_eq_getElem hlt, Option.getD_some] at hcompare
        rw [List.drop_eq_getElem_cons hlt, namesBegin]
        cases hmatches : result && (name.map tolower).isPrefixOf (labels[k].map tolower) with
        | true =>
            obtain ⟨parts, hparts⟩ := ih (k := k + 1) hlt true
            refine ⟨parts, ?_⟩
            rw [yields_label hne0 hcompare, hmatches, ← Bool.and_assoc, hmatches]
            exact ⟨.string hostname (k + 1), yields_pure.mpr rfl, hparts⟩
        | false =>
            obtain ⟨parts, hparts⟩ := ih (k := k) hk false
            refine ⟨parts, ?_⟩
            rw [yields_label hne0 hcompare, hmatches, ← Bool.and_assoc, hmatches]
            exact ⟨.string hostname k, rfl, hparts⟩
      · rw [(hpart k).1, decide_eq_true heq, Bool.not_true, Bool.false_and] at hcompare
        obtain ⟨parts, hparts⟩ := ih (k := k) hk false
        refine ⟨parts, ?_⟩
        have hnone : namesBegin (name :: names) (labels.drop k) = false := by
          rw [heq, List.drop_length]
          rfl
        rw [yields_label hne0 hcompare, Bool.and_false, hnone, Bool.and_false]
        exact ⟨.string hostname k, rfl, hparts⟩
  | @pointer position behind size offsetLow first names hsize hpointer hlow hearlier hfirst hlabels' hname ih =>
      obtain ⟨parts, hparts⟩ := ih (k := k) hk true
      refine ⟨parts, ?_⟩
      rw [DnsReplies.matchRest, readByte_some hfirst] at hparts
      dsimp only at hparts
      rw [if_neg (by simp [hlabels'])] at hparts
      rw [DnsReplies.matchRest, readByte_some hsize]
      dsimp only
      rw [if_pos hpointer, yields_bind]
      refine ⟨(true && namesBegin names (labels.drop k) && !failed, parts,
        { position := position + 2, failed := failed, unread := unread }), ?_, ?_⟩
      · rw [readAndMatchReferenceHostname, readByte_some hlow]
        dsimp only
        rw [if_neg (by omega), Stream.rewind, readByte_some hfirst, yields_bind]
        exact ⟨_, hparts, yields_pure.mpr rfl⟩
      · refine yields_pure.mpr (Prod.ext ?_ rfl)
        change (result && namesBegin names (labels.drop k) && !failed) =
          (true && namesBegin names (labels.drop k) && !failed && result)
        rw [Bool.true_and, Bool.and_assoc result, Bool.and_comm result]

/-- **The result of the comparison**, and where the reader is. -/
theorem Encodes.readAndMatchHostname {behind : Nat} (h : Encodes d.data s.position names behind)
    (hlabels : AreLabels (char '.') labels) (hne : labels ≠ []) :
    Yields (turn d) (readAndMatchHostname d ([char '.'].intercalate labels) s)
      (namesBegin names labels && !s.failed, { s with position := behind }) := by
  obtain ⟨parts, hparts⟩ := h.matchRest hlabels hne (Nat.zero_le _) true s.failed s.unread
  rw [DnsReplies.readAndMatchHostname, yields_bind]
  refine ⟨(namesBegin names labels && !s.failed, parts, { s with position := behind }), ?_, yields_pure.mpr rfl⟩
  rw [Bool.true_and, List.drop_zero] at hparts
  unfold DnsReplies.matchRest at hparts
  unfold readAndMatchHostnameParts
  dsimp only at hparts ⊢
  split_ifs at hparts ⊢
  · obtain ⟨⟨matches', parts', s'⟩, hreference, hvalue⟩ := yields_bind.mp hparts
    rw [yields_pure, Bool.and_true] at hvalue
    rw [hvalue]
    exact hreference
  · exact hparts

/-- **The comparison is exact** unless all labels of the name begin those of the hostname and one of them is
shorter. A stream that has failed before matches nothing. -/
theorem matchesExactly_iff {behind : Nat} (h : Encodes d.data s.position names behind)
    (hlabels : AreLabels (char '.') labels) (hne : labels ≠ []) :
    MatchesExactly d s names labels behind ↔
      (s.failed = false → ¬ OnlyBegins names labels) ∧ (s.failed = true → ¬ SameLabels names labels) := by
  have hyields := h.readAndMatchHostname hlabels hne
  have hexact : MatchesExactly d s names labels behind ↔
      ((namesBegin names labels && !s.failed) = true ↔ SameLabels names labels) := by
    constructor
    · rintro ⟨result, s', hyields', hresult, -⟩
      obtain ⟨rfl, -⟩ := Prod.mk.inj (hyields.unique hyields')
      exact hresult
    · intro hresult
      exact ⟨_, _, hyields, hresult, rfl⟩
  rw [hexact, sameLabels_iff, OnlyBegins]
  cases s.failed <;> cases namesBegin names labels <;> simp

/-- A datagram with the name `c`, and behind it the label `ab` and a pointer to that name. -/
def nameWithPointer : Datagram :=
  { data := [1, char 'c', 0, 2, char 'a', char 'b', 0xc0, 0], uninitialised := fun _ => 0 }

theorem encodes_nameWithPointer : Encodes nameWithPointer.data 3 [[char 'a', char 'b'], [char 'c']] 8 := by
  have hname : Encodes nameWithPointer.data 0 [[char 'c']] 3 := .label rfl (by decide) (by decide) rfl rfl (.zero rfl)
  have hpointer : Encodes nameWithPointer.data 6 [[char 'c']] 8 := .pointer rfl rfl rfl (by decide) rfl rfl hname
  exact .label rfl (by decide) (by decide) rfl rfl hpointer

theorem matchesExactly_upper_case :
    MatchesExactly nameWithPointer { position := 3, failed := false, unread := 0 } [[char 'a', char 'b'], [char 'c']]
      [[char 'A', char 'B'], [char 'C']] 8 := by
  refine (matchesExactly_iff encodes_nameWithPointer ?_ (List.cons_ne_nil _ _)).mpr ⟨?_, ?_⟩
  · intro label hmem
    rcases List.mem_pair.mp hmem with rfl | rfl <;> decide
  · intro _ hbegins
    exact hbegins.2 rfl
  · intro hfailed
    cases hfailed

/-- A datagram with the name `a`. -/
def nameOfOneLetter : Datagram := { data := [1, char 'a', 0], uninitialised := fun _ => 0 }

theorem encodes_nameOfOneLetter : Encodes nameOfOneLetter.data 0 [[char 'a']] 3 :=
  .label rfl (by decide) (by decide) rfl rfl (.zero rfl)

/-- The name `a` is taken for `ab`. -/
theorem not_matchesExactly_beginning :
    Encodes nameOfOneLetter.data 0 [[char 'a']] 3 ∧ AreLabels (char '.') [[char 'a', char 'b']] ∧
      ¬ MatchesExactly nameOfOneLetter { position := 0, failed := false, unread := 0 } [[char 'a']]
        [[char 'a', char 'b']] 3 := by
  have hlabels : AreLabels (char '.') [[char 'a', char 'b']] := by
    intro label hmem
    rw [List.mem_singleton.mp hmem]
    decide
  refine ⟨encodes_nameOfOneLetter, hlabels, ?_⟩
  rintro ⟨result, s', hyields, hresult, -⟩
  have hmatches := Encodes.readAndMatchHostname (s := { position := 0, failed := false, unread := 0 })
    encodes_nameOfOneLetter hlabels (List.cons_ne_nil _ _)
  obtain ⟨rfl, -⟩ := Prod.mk.inj (hyields.unique hmatches)
  have hsame := congrArg (List.map List.length) (hresult.mp rfl)
  cases hsame

end EmbeddedInfra.DnsReplies
