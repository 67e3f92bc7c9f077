import EmbeddedInfra.Services.Network.DnsNameMatching

set_option autoImplicit false

/-! # Names in DNS replies that end

A pointer has to lead to a position before the one that the reader has come to, but behind a jump the reader may
come to the pointer again. A loop returns unless it enters a loop from whose place the labels and pointers of the
datagram lead back to it. While a name is copied, the hostname must not be full where a label ends.
-/

namespace EmbeddedInfra.DnsReplies

open CallTrees Relation

/-! ## The walks of the reader -/

/-- A size that has been read, and the position behind it. -/
structure SizeRead where
  size : UInt8
  position : Nat

def SizeRead.of (read : UInt8 × Stream) : SizeRead := { size := read.1, position := read.2.position }

/-- A stream at the position. -/
def reader (position : Nat) : Stream := { position := position, failed := false, unread := 0 }

variable (d : Datagram)

/-- The reader where a pointer leads to, whose first byte has been read. -/
def jump (size : UInt8) (s : Stream) : Option Stream :=
  let (offsetLow, s) := s.readByte d 0
  let offset := pointerOffset size offsetLow
  if s.position ≤ offset then none else some (s.rewind offset)

/-- The size that is read there. -/
def follow (size : UInt8) (s : Stream) : Option (UInt8 × Stream) := (jump d size s).map (·.readByte d 0)

/-- From a pointer to where it leads. -/
def pointerNext (place place' : SizeRead) : Prop :=
  isPointer place.size = true ∧ (follow d place.size (reader place.position)).map .of = some place'

/-- What a reader behind a label goes on with. -/
def behindLabel (s : Stream) : Option (UInt8 × Stream) :=
  let (size, s) := s.readByte d 0
  if isPointer size then follow d size s else some (size, s)

/-- From a label to the next one. What a pointer leads to is taken for a label. -/
def labelNext (place place' : SizeRead) : Prop :=
  place.size ≠ 0 ∧
    (behindLabel d ((reader place.position).consume d place.size.toNat)).map .of = some place'

/-- The pointers, or the labels and pointers, lead back to where the loop is. A name is copied as long as there is
something left of the resource and the hostname is not full. -/
def ComesBack : Loop → Prop
  | .readNext size s => TransGen (pointerNext d) (.of (size, s)) (.of (size, s))
  | .matchHostname size _ _ s => TransGen (labelNext d) (.of (size, s)) (.of (size, s))
  | .readCName resourceSize partSize hostname s =>
      ¬ (resourceSize = 0 ∨ hostname.length = hostnameSize) ∧ partSize = 0 ∧
        TransGen (pointerNext d) (.of (s.readByte d 0)) (.of (s.readByte d 0))

/-- The label that is copied is all in the resource, and fills the hostname: there is no room for the dot. -/
def FillsHostname : Loop → Prop
  | .readCName resourceSize partSize hostname _ =>
      partSize ≠ 0 ∧ partSize.toNat ≤ resourceSize ∧ hostname.length + partSize.toNat = hostnameSize
  | _ => False

/-- A name that is copied is not longer than a hostname. -/
def Fits : Loop → Prop
  | .readCName _ _ hostname _ => hostname.length ≤ hostnameSize
  | _ => True

variable {d} {cond : Loop → Prop} {size : UInt8} {s s' : Stream} {parts : HostnameParts} {result : Bool}
  {place place' : SizeRead} {resourceSize : Nat} {partSize : UInt8} {hostname : BoundedString}

/-! ## Positions -/

theorem readByte_of_position (h : s.position = s'.position) (value : UInt8) :
    (s.readByte d value).1 = (s'.readByte d value).1 ∧
      (s.readByte d value).2.position = (s'.readByte d value).2.position := by
  rw [Stream.readByte, Stream.readByte, h]
  cases d.data[s'.position]? <;> simp

theorem readByte_position_le (value : UInt8) : (s.readByte d value).2.position ≤ s.position + 1 ∧
    (s.readByte d value).2.position ≤ max s.position d.data.length := by
  rw [Stream.readByte]
  cases hbyte : d.data[s.position]? with
  | none =>
      dsimp only
      omega
  | some byte =>
      obtain ⟨hhere, -⟩ := List.getElem?_eq_some_iff.mp hbyte
      dsimp only
      omega

theorem pointerOffset_lt (size offsetLow : UInt8) : pointerOffset size offsetLow < 2 ^ 14 := by
  have hlow := offsetLow.toNat_lt
  have hhigh : (size &&& 0x3f).toNat ≤ 0x3f := by
    rw [UInt8.toNat_and]
    exact Nat.and_le_right
  rw [pointerOffset]
  omega

/-- A pointer leads to a position before the one behind it. -/
theorem jump_position (h : jump d size s = some s') :
    s'.position < 2 ^ 14 ∧ s'.position < (s.readByte d 0).2.position := by
  rw [jump] at h
  dsimp only at h
  split_ifs at h with hforward
  obtain rfl := Option.some.inj h
  exact ⟨pointerOffset_lt _ _, not_le.mp hforward⟩

theorem follow_of_position (h : s.position = s'.position) :
    (follow d size s).map SizeRead.of = (follow d size s').map SizeRead.of := by
  obtain ⟨hbyte, hposition⟩ := readByte_of_position (d := d) h 0
  rw [follow, follow, jump, jump]
  dsimp only
  rw [hbyte, hposition]
  split_ifs
  · rfl
  · obtain ⟨hsize, hbehind⟩ := @readByte_of_position d
      ((s.readByte d 0).2.rewind (pointerOffset size (s'.readByte d 0).1))
      ((s'.readByte d 0).2.rewind (pointerOffset size (s'.readByte d 0).1)) rfl 0
    simp only [Option.map_some, SizeRead.of, hsize, hbehind]

theorem behindLabel_of_position (h : s.position = s'.position) :
    (behindLabel d s).map SizeRead.of = (behindLabel d s').map SizeRead.of := by
  obtain ⟨hbyte, hposition⟩ := readByte_of_position (d := d) h 0
  rw [behindLabel, behindLabel]
  dsimp only
  rw [hbyte]
  split_ifs
  · exact follow_of_position hposition
  · rw [Option.map_some, Option.map_some, SizeRead.of, SizeRead.of, hposition]

/-- However many characters match, the label is skipped. -/
theorem matchCharacters_position (current : BoundedString) (left : Nat) (s : Stream) :
    (matchCharacters d current left s).2.position = (s.consume d left).position := by
  induction left generalizing current s with
  | zero => simp [matchCharacters, Stream.consume]
  | succ left ih =>
      rcases current with _ | ⟨expected, current⟩
      · rfl
      · have hread : ((s.readChar d).2.consume d left).position = (s.consume d (left + 1)).position := by
          rw [Stream.readChar, Stream.consume, Stream.consume]
          rcases hbyte : d.data[s.position]? with _ | c
          · have hend := List.getElem?_eq_none_iff.mp hbyte
            dsimp only
            omega
          · obtain ⟨hhere, -⟩ := List.getElem?_eq_some_iff.mp hbyte
            dsimp only
            omega
        rw [matchCharacters]
        dsimp only
        split_ifs
        · exact hread
        · rw [ih, hread]

theorem readAndMatchHostnamePart_position :
    (readAndMatchHostnamePart d size parts s).2.position = (s.consume d size.toNat).position := by
  rw [readAndMatchHostnamePart]
  split_ifs
  · rfl
  · exact matchCharacters_position _ _ _

/-! ## Steps of the walks -/

theorem pointerNext_iff : pointerNext d (.of (size, s)) place' ↔
    isPointer size = true ∧ ∃ read, follow d size s = some read ∧ .of read = place' := by
  have hsame : (follow d size (reader s.position)).map SizeRead.of = (follow d size s).map SizeRead.of :=
    follow_of_position rfl
  rw [← Option.map_eq_some_iff, ← hsame]
  exact Iff.rfl

/-- It does not matter what the label is compared with. -/
theorem labelNext_iff (parts : HostnameParts) : labelNext d (.of (size, s)) place' ↔
    size ≠ 0 ∧ ∃ read, behindLabel d (readAndMatchHostnamePart d size parts s).2 = some read ∧ .of read = place' := by
  have hsame : (behindLabel d ((reader s.position).consume d size.toNat)).map SizeRead.of =
      (behindLabel d (readAndMatchHostnamePart d size parts s).2).map SizeRead.of :=
    behindLabel_of_position (readAndMatchHostnamePart_position (d := d) (s := s)).symm
  rw [← Option.map_eq_some_iff, ← hsame]
  exact Iff.rfl

/-- Behind a jump the reader is among the first positions. -/
theorem position_of_follow {read : UInt8 × Stream} (h : follow d size s = some read) : read.2.position ≤ 2 ^ 14 := by
  obtain ⟨s', hjump, rfl⟩ := Option.map_eq_some_iff.mp h
  exact (readByte_position_le 0).1.trans (jump_position hjump).1

theorem position_of_pointerNext (h : pointerNext d place place') : place'.position ≤ 2 ^ 14 := by
  obtain ⟨-, hfollow⟩ := h
  obtain ⟨read, hread, rfl⟩ := Option.map_eq_some_iff.mp hfollow
  exact position_of_follow hread

theorem position_of_labelNext (h : labelNext d place place') :
    place'.position ≤ max (2 ^ 14) (max place.position d.data.length) := by
  obtain ⟨-, hbehind⟩ := h
  obtain ⟨read, hread, rfl⟩ := Option.map_eq_some_iff.mp hbehind
  rw [behindLabel] at hread
  dsimp only at hread
  split_ifs at hread
  · exact (position_of_follow hread).trans (le_max_left _ _)
  · obtain rfl := Option.some.inj hread
    refine (readByte_position_le 0).2.trans ?_
    simp only [Stream.consume, reader]
    omega

/-- There are finitely many places up to a position, so that walks end that do not come back. -/
theorem acc_of_places {next : SizeRead → SizeRead → Prop} {bound : Nat} {Entered : SizeRead → Prop}
    (hbound : ∀ place place', next place place' → place'.position ≤ max bound place.position)
    (hback : ∀ place, Entered place → ¬ TransGen next place place) (hentered : Entered place) :
    Acc (Function.swap fun place place' => next place place' ∧ Entered place') place := by
  have hreached {place' : SizeRead} (h : ReflTransGen (fun place place' => next place place' ∧ Entered place') place place') :
      place'.position ≤ max bound place.position ∧ Entered place' := by
    induction h with
    | refl => exact ⟨le_max_right _ _, hentered⟩
    | tail _ hnext ih =>
        have := hbound _ _ hnext.1
        exact ⟨by omega, hnext.2⟩
  have hfinite : {place' : SizeRead | place'.position ≤ max bound place.position}.Finite := by
    refine Set.Finite.of_injOn (f := fun place' => (place'.size.toNat, place'.position)) ?_ ?_
      ((Set.finite_Iio 256).prod (Set.finite_Iic (max bound place.position)))
    · exact fun place' hplace' => ⟨place'.size.toNat_lt, hplace'⟩
    · rintro ⟨size, position⟩ - ⟨size', position'⟩ - heq
      obtain ⟨hsize, rfl⟩ := Prod.mk.inj heq
      obtain rfl := UInt8.toNat_inj.mp hsize
      rfl
  refine acc_of_not_return (hfinite.subset fun place' h => (hreached h).1) ?_
  exact fun place' h hreturn => hback place' (hreached h).2 (TransGen.mono (fun _ _ hnext => hnext.1) _ _ hreturn)

/-! ## What the turns call -/

theorem meets_pure {α : Type} {value : α} : Meets (turn d) cond (pure value : Parser α) := trivial

theorem meets_readNext : Meets (turn d) cond (turn d (.readNext size s)) ↔
    (isPointer size = true → ∀ read, follow d size s = some read → cond (.readNext read.1 read.2)) := by
  rw [turn, follow, jump]
  dsimp only
  by_cases hpointer : isPointer size = true
  · rw [if_pos hpointer]
    split_ifs with hforward
    · simp [meets_pure]
    · simp [readNextLoop, meets_ask, hpointer]
  · rw [if_neg hpointer]
    simp [meets_pure, hpointer]

/-- The next part of a name in the datagram is read by the loop. -/
theorem meets_readNextPart (streamPosition : Nat) (h : ∀ size s, cond (.readNext size s)) :
    Meets (turn d) cond (readNext d streamPosition) := by
  rw [readNext]
  split_ifs
  · exact meets_pure
  · dsimp only
    rw [meets_bind, readNextLoop, meets_ask]
    refine ⟨h _ _, ?_⟩
    rintro ⟨size, s⟩ -
    dsimp only
    split_ifs <;> exact meets_pure

theorem meets_consumeCurrent (h : ∀ size s, cond (.readNext size s)) : Meets (turn d) cond (parts.consumeCurrent d) := by
  cases parts with
  | string hostname currentToken => exact meets_pure
  | stream streamPosition label => exact meets_readNextPart streamPosition h

theorem meets_readAndMatchReferenceHostname :
    Meets (turn d) cond (readAndMatchReferenceHostname d size parts s) ↔
      ∀ read, follow d size s = some read → cond (.matchHostname read.1 true parts read.2) := by
  rw [readAndMatchReferenceHostname, follow, jump]
  dsimp only
  split_ifs with hforward
  · simp [meets_pure]
  · simp [readAndMatchHostnameWithoutReference, meets_bind, meets_ask, meets_pure]

/-- What the loop calls behind a label. -/
theorem meets_matchRest : Meets (turn d) cond (matchRest d result parts s) ↔
    ∀ read, behindLabel d s = some read →
      cond (.matchHostname read.1 (isPointer (s.readByte d 0).1 || result) parts read.2) := by
  rw [matchRest, behindLabel]
  dsimp only
  by_cases hpointer : isPointer (s.readByte d 0).1 = true
  · rw [if_pos hpointer, if_pos hpointer, meets_bind, meets_readAndMatchReferenceHostname, hpointer, Bool.true_or]
    simp [meets_pure]
  · rw [if_neg hpointer, if_neg hpointer, readAndMatchHostnameWithoutReference, meets_ask,
      Bool.eq_false_iff.mpr hpointer, Bool.false_or]
    simp

theorem meets_matchHostname : Meets (turn d) cond (turn d (.matchHostname size result parts s)) ↔
    (size ≠ 0 →
      let part := readAndMatchHostnamePart d size parts s
      ((result && part.1) = true → Meets (turn d) cond (parts.consumeCurrent d)) ∧
        ∀ parts', (if result && part.1 then Yields (turn d) (parts.consumeCurrent d) parts' else parts' = parts) →
          Meets (turn d) cond (matchRest d (result && part.1) parts' part.2)) := by
  rw [turn]
  by_cases hsize : size = 0
  · simp [hsize, meets_pure]
  · rw [if_neg hsize]
    dsimp only
    cases result && (readAndMatchHostnamePart d size parts s).1 with
    | true =>
        rw [if_pos rfl, meets_bind]
        simp only [hsize, ne_eq, not_false_eq_true, forall_const, if_true]
        rfl
    | false =>
        rw [if_neg Bool.false_ne_true, meets_bind]
        simp only [hsize, ne_eq, not_false_eq_true, forall_const, Bool.false_eq_true, if_false, yields_pure,
          IsEmpty.forall_iff, true_and, meets_pure]
        rfl

theorem meets_readCName_stopped (hstop : resourceSize = 0 ∨ hostname.length = hostnameSize) :
    Meets (turn d) cond (turn d (.readCName resourceSize partSize hostname s)) := by
  rw [turn, if_pos hstop]
  exact meets_pure

/-- Between the labels a size is read. -/
theorem meets_readCName_size (hgo : ¬ (resourceSize = 0 ∨ hostname.length = hostnameSize)) :
    Meets (turn d) cond (turn d (.readCName resourceSize 0 hostname s)) ↔
      let size := s.readByte d 0
      size.1 ≠ 0 →
        if isPointer size.1 then ∀ s', jump d size.1 size.2 = some s' →
          cond (.readCName (((size.2.readByte d 0).2.position % 2 ^ 16 + 2 ^ 16 - s'.position) % 2 ^ 16) 0 hostname s')
        else cond (.readCName (resourceSize - 1) size.1 hostname size.2) := by
  rw [turn, if_neg hgo, if_pos rfl]
  dsimp only
  by_cases hzero : (s.readByte d 0).1 = 0
  · rw [if_pos hzero]
    refine iff_of_true ?_ (absurd hzero)
    split_ifs with hempty
    · rw [meets_bind, popBack, if_neg (mt List.length_eq_zero_iff.mp hempty)]
      exact ⟨meets_pure, fun _ _ => meets_pure⟩
    · exact meets_pure
  · rw [if_neg hzero, ne_eq, forall_prop_of_true hzero]
    by_cases hpointer : isPointer (s.readByte d 0).1 = true
    · rw [if_pos hpointer, if_pos hpointer, readCNameReference, jump]
      dsimp only
      by_cases hforward : ((s.readByte d 0).2.readByte d 0).2.position ≤
          pointerOffset (s.readByte d 0).1 ((s.readByte d 0).2.readByte d 0).1
      · rw [if_neg (not_lt.mpr hforward), if_pos hforward]
        simp [meets_pure]
      · rw [if_pos (not_le.mp hforward), if_neg hforward]
        simp [meets_bind, readCName, meets_ask, meets_pure, Stream.rewind]
    · rw [if_neg hpointer, if_neg hpointer, readCName, meets_ask]

theorem meets_pushBack {c : UInt8} : Meets (turn d) cond (pushBack hostname c) ↔ hostname.length ≠ hostnameSize := by
  rw [pushBack]
  split_ifs with hfull
  · exact iff_of_false (fun h => h) (fun h => h hfull)
  · exact iff_of_true meets_pure hfull

theorem yields_pushBack {hostname' : BoundedString} {c : UInt8} (hroom : hostname.length ≠ hostnameSize) :
    Yields (turn d) (pushBack hostname c) hostname' ↔ hostname' = hostname ++ [c] := by
  rw [pushBack, if_neg hroom, yields_pure]

/-- In a label a character is copied. -/
theorem meets_readCName_label (hgo : ¬ (resourceSize = 0 ∨ hostname.length = hostnameSize)) (hpart : partSize ≠ 0) :
    Meets (turn d) cond (turn d (.readCName resourceSize partSize hostname s)) ↔
      (partSize = 1 → hostname.length + 1 ≠ hostnameSize) ∧
        cond (.readCName (resourceSize - 1) (partSize - 1)
          (hostname ++ (s.readByte d (char ' ')).1 :: if partSize = 1 then [char '.'] else []) (s.readByte d (char ' ')).2) := by
  have hlast : partSize - 1 = 0 ↔ partSize = 1 := by
    constructor
    · intro hzero
      rw [← UInt8.sub_add_cancel partSize 1, hzero]
      rfl
    · rintro rfl
      rfl
  rw [turn, if_neg hgo, if_neg hpart, meets_bind, meets_pushBack]
  simp only [yields_pushBack (not_or.mp hgo).2, forall_eq]
  by_cases hone : partSize = 1
  · rw [if_pos (hlast.mpr hone), if_pos hone, meets_bind, meets_pushBack, List.length_append, List.length_singleton]
    constructor
    · rintro ⟨-, hroom, hnext⟩
      have hcall := hnext _ ((yields_pushBack (by rwa [List.length_append])).mpr rfl)
      rw [readCName, meets_ask, List.append_assoc] at hcall
      exact ⟨fun _ => hroom, hcall⟩
    · rintro ⟨hroom, hnext⟩
      refine ⟨(not_or.mp hgo).2, hroom hone, ?_⟩
      intro hostname' hhostname'
      rw [yields_pushBack (by simpa using hroom hone)] at hhostname'
      rw [readCName, meets_ask, hhostname', List.append_assoc]
      exact hnext
  · rw [if_neg (mt hlast.mp hone), if_neg hone, meets_bind]
    simp [readCName, meets_ask, meets_pure, (not_or.mp hgo).2, hone]

/-! ## Loops that return -/

/-- **A loop that returns does not come back**, and copies no label that fills the hostname. -/
theorem not_comesBack_of_returns {c : Loop} (h : ∃ value, Returns (turn d) c value) :
    ¬ ComesBack d c ∧ ¬ FillsHostname c := by
  refine (@returns_induction _ _ _ _ (fun c => (∃ value, Returns (turn d) c value) ∧
    ¬ ComesBack d c ∧ ¬ FillsHostname c) ?_ h).2
  intro c hmeets
  refine ⟨exists_returns_iff.mpr (hmeets.mono fun _ hc => hc.1), ?_⟩
  -- a loop that comes back calls one that comes back
  cases c with
  | readNext size s =>
      refine ⟨?_, id⟩
      intro hback
      obtain ⟨place', hnext, hrest⟩ := TransGen.head'_iff.mp hback
      obtain ⟨hpointer, read, hread, rfl⟩ := pointerNext_iff.mp hnext
      exact (meets_readNext.mp hmeets hpointer read hread).2.1 (.tail' hrest hnext)
  | matchHostname size result parts s =>
      refine ⟨?_, id⟩
      intro hback
      obtain ⟨place', hnext, hrest⟩ := TransGen.head'_iff.mp hback
      obtain ⟨hsize, read, hread, rfl⟩ := (labelNext_iff parts).mp hnext
      obtain ⟨hconsume, hmatchRest⟩ := meets_matchHostname.mp hmeets hsize
      have hparts : ∃ parts', if result && (readAndMatchHostnamePart d size parts s).1 then
          Yields (turn d) (parts.consumeCurrent d) parts' else parts' = parts := by
        split_ifs with hmatches
        · exact (exists_yields_iff (fun _ => Iff.rfl) _).mpr ((hconsume hmatches).mono fun _ hc => hc.1)
        · exact ⟨parts, rfl⟩
      obtain ⟨parts', hparts'⟩ := hparts
      exact (meets_matchRest.mp (hmatchRest parts' hparts') read hread).2.1 (.tail' hrest hnext)
  | readCName resourceSize partSize hostname s =>
      constructor
      · rintro ⟨hgo, rfl, hback⟩
        obtain ⟨place', hnext, hrest⟩ := TransGen.head'_iff.mp hback
        have hfollow : isPointer (s.readByte d 0).1 = true ∧
            ∃ read, follow d (s.readByte d 0).1 (s.readByte d 0).2 = some read ∧ .of read = place' :=
          pointerNext_iff.mp hnext
        obtain ⟨hpointer, read, hread, rfl⟩ := hfollow
        obtain ⟨s', hjump, rfl⟩ := Option.map_eq_some_iff.mp hread
        have hsize : (s.readByte d 0).1 ≠ 0 := by
          intro hzero
          rw [hzero] at hpointer
          cases hpointer
        have hcall := (meets_readCName_size hgo).mp hmeets hsize
        rw [if_pos hpointer] at hcall
        -- The reader is where a pointer has led to, so that the distance is not a multiple of 2^16.
        obtain ⟨before, -, hhere⟩ := TransGen.tail'_iff.mp hback
        have hposition := position_of_pointerNext hhere
        have hbehind := (@readByte_position_le d (s.readByte d 0).2 0).1
        have hjumped := jump_position hjump
        refine (hcall s' hjump).2.1 ⟨?_, rfl, .tail' hrest hnext⟩
        rw [not_or] at hgo ⊢
        refine ⟨?_, hgo.2⟩
        rw [SizeRead.of] at hposition
        dsimp only at hposition
        omega
      · rintro ⟨hpart, hresource, hfills⟩
        have hpos : partSize.toNat ≠ 0 := fun hzero => hpart (UInt8.toNat_inj.mp hzero)
        have hgo : ¬ (resourceSize = 0 ∨ hostname.length = hostnameSize) := by omega
        obtain ⟨hroom, hcall⟩ := (meets_readCName_label hgo hpart).mp hmeets
        by_cases hone : partSize = 1
        · rw [hone] at hfills
          exact hroom hone hfills
        · have hless : (partSize - 1).toNat = partSize.toNat - 1 :=
            UInt8.toNat_sub_of_le _ _ (UInt8.le_iff_toNat_le.mpr (by simp; omega))
          have hmore : partSize.toNat ≠ 1 := fun heq => hone (UInt8.toNat_inj.mp heq)
          rw [if_neg hone] at hcall
          refine hcall.2.2 ⟨?_, ?_, ?_⟩
          · rw [ne_eq, ← UInt8.toNat_inj, hless]
            simp
            omega
          · omega
          · rw [List.length_append, List.length_singleton]
            omega

/-! ## Loops that do not come back -/

/-- Where a loop does not fill the hostname, the names that it goes on copying fit. -/
theorem fits_turn {c : Loop} (hfits : Fits c) (hroom : ¬ FillsHostname c) : Meets (turn d) Fits (turn d c) := by
  cases c with
  | readNext size s => exact meets_readNext.mpr fun _ _ _ => trivial
  | matchHostname size result parts s =>
      rw [meets_matchHostname]
      exact fun _ => ⟨fun _ => meets_consumeCurrent fun _ _ => trivial, fun _ _ => meets_matchRest.mpr fun _ _ => trivial⟩
  | readCName resourceSize partSize hostname s =>
      have hlength : hostname.length ≤ hostnameSize := hfits
      by_cases hgo : resourceSize = 0 ∨ hostname.length = hostnameSize
      · exact meets_readCName_stopped hgo
      · by_cases hpart : partSize = 0
        · rw [hpart, meets_readCName_size hgo]
          intro size _
          split_ifs
          · exact fun _ _ => hlength
          · exact hlength
        · have hlast : partSize = 1 → hostname.length + 1 ≠ hostnameSize := by
            rintro rfl hfull
            exact hroom ⟨hpart, Nat.one_le_iff_ne_zero.mpr (not_or.mp hgo).1, hfull⟩
          rw [meets_readCName_label hgo hpart]
          refine ⟨hlast, ?_⟩
          rw [Fits]
          by_cases hone : partSize = 1
          · have := hlast hone
            simp [hone]
            omega
          · simp [hone]
            omega

section Entered

/-! What is entered goes on with loops that are entered, none of which comes back. -/

variable {Entered : Loop → Prop} (hnext : ∀ c c', Entered c → Makes (turn d) c' (turn d c) → Entered c')
  (hback : ∀ c, Entered c → ¬ ComesBack d c)

include hnext hback

/-- Loops go on through places. A loop that is entered and would come to the same place again comes back. -/
theorem exists_returns_of_places {next : SizeRead → SizeRead → Prop} {At : SizeRead → Loop → Prop} {bound : Nat}
    (hbound : ∀ place place', next place place' → place'.position ≤ max bound place.position)
    (hreturn : ∀ place c, At place c → TransGen next place place → ComesBack d c)
    (hcalls : ∀ place c, At place c → Meets (turn d) (fun c' =>
      (Entered c' → ∃ value, Returns (turn d) c' value) ∨ ∃ place', next place place' ∧ At place' c') (turn d c))
    {c : Loop} (hentered : Entered c) (hat : At place c) : ∃ value, Returns (turn d) c value := by
  have hacc := @acc_of_places place next bound (fun place => ∃ c, Entered c ∧ At place c) hbound
    (fun place ⟨c, hentered, hat⟩ hplace => hback c hentered (hreturn place c hat hplace)) ⟨c, hentered, hat⟩
  refine @exists_returns_of_acc _ _ _ _ _ _ (fun place c => Entered c ∧ At place c) ?_ _ ⟨hentered, hat⟩ hacc
  intro place c ⟨hentered, hat⟩
  refine (hcalls place c hat).makes.mono ?_
  rintro c' ⟨hcall, hmakes⟩
  have hentered' := hnext _ _ hentered hmakes
  rcases hcall with hreturns | ⟨place', hstep, hat'⟩
  · exact Or.inl (hreturns hentered')
  · exact Or.inr ⟨place', ⟨hstep, c', hentered', hat'⟩, hentered', hat'⟩

theorem exists_returns_readNext (hentered : Entered (.readNext size s)) :
    ∃ value, Returns (turn d) (.readNext size s) value := by
  refine @exists_returns_of_places d _ Entered hnext hback (pointerNext d)
    (fun place c => ∃ size s, c = .readNext size s ∧ place = .of (size, s)) (2 ^ 14) ?_ ?_ ?_ _ hentered
    ⟨size, s, rfl, rfl⟩
  · exact fun _ _ hstep => (position_of_pointerNext hstep).trans (le_max_left _ _)
  · rintro place c ⟨size, s, rfl, rfl⟩ hplace
    exact hplace
  · rintro place c ⟨size, s, rfl, rfl⟩
    rw [meets_readNext]
    intro hpointer read hread
    exact Or.inr ⟨.of read, pointerNext_iff.mpr ⟨hpointer, read, hread, rfl⟩, read.1, read.2, rfl, rfl⟩

theorem exists_returns_matchHostname (hentered : Entered (.matchHostname size result parts s)) :
    ∃ value, Returns (turn d) (.matchHostname size result parts s) value := by
  refine @exists_returns_of_places d _ Entered hnext hback (labelNext d)
    (fun place c => ∃ size result parts s, c = .matchHostname size result parts s ∧ place = .of (size, s))
    (max (2 ^ 14) d.data.length) ?_ ?_ ?_ _ hentered ⟨size, result, parts, s, rfl, rfl⟩
  · intro place place' hstep
    have := position_of_labelNext hstep
    omega
  · rintro place c ⟨size, result, parts, s, rfl, rfl⟩ hplace
    exact hplace
  · rintro place c ⟨size, result, parts, s, rfl, rfl⟩
    rw [meets_matchHostname]
    intro hsize
    refine ⟨fun _ => meets_consumeCurrent fun size s => Or.inl (exists_returns_readNext hnext hback), ?_⟩
    intro parts' _
    rw [meets_matchRest]
    intro read hread
    exact Or.inr ⟨.of read, (labelNext_iff parts).mpr ⟨hsize, read, hread, rfl⟩, read.1, _, parts', read.2, rfl, rfl⟩

omit hback in
/-- In a label a turn makes the hostname longer. -/
theorem exists_returns_readCName_label (hroom : ∀ c, Entered c → ¬ FillsHostname c)
    (hlonger : ∀ resourceSize partSize hostname' s, hostname.length < hostname'.length →
      Entered (.readCName resourceSize partSize hostname' s) →
      ∃ value, Returns (turn d) (.readCName resourceSize partSize hostname' s) value)
    (hpart : partSize ≠ 0) (hentered : Entered (.readCName resourceSize partSize hostname s)) :
    ∃ value, Returns (turn d) (.readCName resourceSize partSize hostname s) value := by
  rw [exists_returns_iff]
  by_cases hgo : resourceSize = 0 ∨ hostname.length = hostnameSize
  · exact meets_readCName_stopped hgo
  · have hmeets : Meets (turn d) (fun c' => Entered c' → ∃ value, Returns (turn d) c' value)
        (turn d (.readCName resourceSize partSize hostname s)) := by
      rw [meets_readCName_label hgo hpart]
      refine ⟨?_, hlonger _ _ _ _ (by simp)⟩
      rintro rfl hfull
      exact hroom _ hentered ⟨hpart, Nat.one_le_iff_ne_zero.mpr (not_or.mp hgo).1, hfull⟩
    exact hmeets.makes.mono fun c' ⟨hreturns, hmakes⟩ => hreturns (hnext _ _ hentered hmakes)

/-- Between the labels the reader follows pointers, up to a label or the end of the name. -/
theorem exists_returns_readCName_size (hlabel : ∀ resourceSize partSize s, partSize ≠ 0 →
      Entered (.readCName resourceSize partSize hostname s) →
      ∃ value, Returns (turn d) (.readCName resourceSize partSize hostname s) value)
    (hentered : Entered (.readCName resourceSize 0 hostname s)) :
    ∃ value, Returns (turn d) (.readCName resourceSize 0 hostname s) value := by
  by_cases hgo : resourceSize = 0 ∨ hostname.length = hostnameSize
  · exact exists_returns_iff.mpr (meets_readCName_stopped hgo)
  · refine @exists_returns_of_places d _ Entered hnext hback (pointerNext d)
      (fun place c => ∃ resourceSize s, c = .readCName resourceSize 0 hostname s ∧
        ¬ (resourceSize = 0 ∨ hostname.length = hostnameSize) ∧ place = .of (s.readByte d 0))
      (2 ^ 14) ?_ ?_ ?_ _ hentered ⟨resourceSize, s, rfl, hgo, rfl⟩
    · exact fun _ _ hstep => (position_of_pointerNext hstep).trans (le_max_left _ _)
    · rintro place c ⟨resourceSize, s, rfl, hgo, rfl⟩ hplace
      exact ⟨hgo, rfl, hplace⟩
    · rintro place c ⟨resourceSize, s, rfl, hgo, rfl⟩
      rw [meets_readCName_size hgo]
      intro size hsize
      split_ifs with hpointer
      · intro s' hjump
        refine or_iff_not_imp_right.mpr fun hnone hentered' => exists_returns_iff.mpr (meets_readCName_stopped ?_)
        -- a name that goes on is at the next place
        by_contra hgo'
        refine hnone ⟨_, pointerNext_iff.mpr ⟨hpointer, s'.readByte d 0, ?_, rfl⟩, _, s', rfl, hgo', rfl⟩
        exact Option.map_eq_some_iff.mpr ⟨s', hjump, rfl⟩
      · exact Or.inl (hlabel _ _ _ hsize)

/-- The induction is on the room in the hostname. -/
theorem exists_returns_readCName (hfits : ∀ c, Entered c → Fits c) (hroom : ∀ c, Entered c → ¬ FillsHostname c)
    (hentered : Entered (.readCName resourceSize partSize hostname s)) :
    ∃ value, Returns (turn d) (.readCName resourceSize partSize hostname s) value := by
  obtain ⟨room, hleft⟩ : ∃ room, hostnameSize ≤ hostname.length + room := ⟨hostnameSize, by omega⟩
  induction room generalizing resourceSize partSize hostname s with
  | zero => exact exists_returns_iff.mpr (meets_readCName_stopped (Or.inr (le_antisymm (hfits _ hentered) hleft)))
  | succ room ih =>
      have hlabel (resourceSize : Nat) (partSize : UInt8) (s : Stream) (hpart : partSize ≠ 0)
          (hentered : Entered (.readCName resourceSize partSize hostname s)) :
          ∃ value, Returns (turn d) (.readCName resourceSize partSize hostname s) value :=
        exists_returns_readCName_label hnext hroom (fun _ _ _ _ hlonger hentered => ih hentered (by omega)) hpart hentered
      by_cases hpart : partSize = 0
      · rw [hpart] at hentered ⊢
        exact exists_returns_readCName_size hnext hback hlabel hentered
      · exact hlabel _ _ _ hpart hentered

/-- **Loops that do not come back return**, when no label that is copied fills the hostname. -/
theorem returns_of_not_comesBack (hfits : ∀ c, Entered c → Fits c) (hroom : ∀ c, Entered c → ¬ FillsHostname c)
    {c : Loop} (hentered : Entered c) : ∃ value, Returns (turn d) c value := by
  cases c with
  | readNext size s => exact exists_returns_readNext hnext hback hentered
  | matchHostname size result parts s => exact exists_returns_matchHostname hnext hback hentered
  | readCName resourceSize partSize hostname s => exact exists_returns_readCName hnext hback hfits hroom hentered

end Entered

/-- **A program returns** if and only if no loop that is entered comes back or fills the hostname, when the names that
it goes on copying fit. -/
theorem exists_yields_iff_not_comesBack {α : Type} {program : Parser α} (hprogram : Meets (turn d) Fits program) :
    (∃ value, Yields (turn d) program value) ↔
      ∀ c, Enters (turn d) program c → ¬ ComesBack d c ∧ ¬ FillsHostname c := by
  constructor
  · exact fun h c henters => not_comesBack_of_returns (henters.returns h)
  · intro hall
    have hfits (c : Loop) (henters : Enters (turn d) program c) : Fits c :=
      Enters.induction hprogram (fun c henters hfits => fits_turn hfits (hall c henters).2) henters
    rw [exists_yields_iff (fun _ => Iff.rfl)]
    refine hprogram.makes.mono ?_
    rintro c ⟨-, hmakes⟩
    exact returns_of_not_comesBack (fun _ _ henters hmakes => henters.next hmakes) (fun c henters => (hall c henters).1)
      hfits (fun c henters => (hall c henters).2) (.first hmakes)

end EmbeddedInfra.DnsReplies
