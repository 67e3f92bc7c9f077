import EmbeddedInfra.Infra.Syntax.Json

set_option autoImplicit false

/-! # The JSON formatter

`infra::JsonObjectFormatter` and `infra::JsonArrayFormatter` write strings with escapes. Whether a
`char` is signed depends on the platform; a signed one is less than `0x20` when it is not ASCII.
What is written is the text that the stream gets, on a stream with enough room.
-/

namespace EmbeddedInfra.Json

/-! ## Escapes -/

def hexChars : Text := JsonTokenizer.ascii "0123456789abcdef"

/-- `while (v / mask >= 16)`, with the number of digits. -/
def raiseMask (v : Nat) : Nat → Nat → Nat → Nat × Nat
  | 0, mask, nofDigits => (mask, nofDigits)
  | turns + 1, mask, nofDigits =>
      if v / mask ≥ 16 then raiseMask v turns (mask * 16) (nofDigits + 1) else (mask, nofDigits)

/-- `while (mask != 0)` -/
def outputDigits (v : Nat) : Nat → Nat → Text
  | 0, _ => []
  | turns + 1, mask =>
      if mask = 0 then []
      else hexChars.getD (v / mask % 16) 0 :: outputDigits v turns (mask / 16)

/-- A number of 64 bits has at most 16 digits. -/
def outputAsHexadecimal (width : Nat) (padding : UInt8) (v : Nat) : Text :=
  let (mask, nofDigits) := raiseMask v 16 1 1
  List.replicate (width - nofDigits) padding ++ outputDigits v 17 mask

def insertEscapedCharacter (c : UInt8) : Text :=
  if c = quote then [backslash, quote]
  else if c = backslash then [backslash, backslash]
  else if c = 0x08 then [backslash, byte 'b']
  else if c = 0x0c then [backslash, byte 'f']
  else if c = 0x0a then [backslash, byte 'n']
  else if c = 0x0d then [backslash, byte 'r']
  else if c = 0x09 then [backslash, byte 't']
  else [backslash, byte 'u'] ++ outputAsHexadecimal 4 (byte '0') c.toNat

/-- The characters that `NonEscapedSubString` looks for. The backslash is not one of them. -/
def shouldBeFound : Text := [quote, 0x08, 0x0c, 0x0a, 0x0d, 0x09]

/-- `c < 0x20` -/
def isControl (signed : Bool) (c : UInt8) : Bool := c < 0x20 || (signed && 0x80 ≤ c)

/-- The position of the first character from `start` on that is to be escaped, or the size, and what
is before it. -/
def nonEscapedSubString (signed : Bool) (string : Text) (start : Nat) : Nat × Text :=
  let escape := start + (string.drop start).findIdx (shouldBeFound.contains ·)
  let control := start + ((string.drop start).take (escape - start)).findIdx (isControl signed)
  (control, (string.drop start).take (control - start))

/-- The loop of `InsertEscapedTag`. -/
def insertEscapedFrom (signed : Bool) (tag : Text) : Nat → Nat → Text
  | 0, _ => []
  | turns + 1, start =>
      if start = tag.length then []
      else
        let (escape, nonEscaped) := nonEscapedSubString signed tag start
        if escape ≠ tag.length then
          nonEscaped ++ insertEscapedCharacter (tag.getD escape 0) ++
            insertEscapedFrom signed tag turns (escape + 1)
        else
          nonEscaped ++ insertEscapedFrom signed tag turns escape

def insertEscapedTag (signed : Bool) (tag : Text) : Text :=
  insertEscapedFrom signed tag (tag.length + 1) 0

/-! ## Objects and arrays -/

/-- A formatter, with the text that it has written. -/
structure Formatter where
  text : Text
  empty : Bool := true

def Formatter.insertSeparation (f : Formatter) : Formatter where
  text := if f.empty then f.text else f.text ++ JsonTokenizer.ascii ", "
  empty := false

namespace JsonObjectFormatter

/-- The constructor. -/
def start : Formatter where
  text := [0x7b, 0x20]

/-- `Add(tagName, tag)` of a string. -/
def add (signed : Bool) (f : Formatter) (tagName tag : Text) : Formatter where
  text := f.insertSeparation.text ++ [quote] ++ tagName ++ [quote, byte ':', quote] ++
    insertEscapedTag signed tag ++ [quote]
  empty := f.insertSeparation.empty

/-- The destructor. -/
def finish (f : Formatter) : Text := f.text ++ [0x20, 0x7d]

end JsonObjectFormatter

namespace JsonArrayFormatter

/-- The constructor. -/
def start : Formatter where
  text := JsonTokenizer.ascii "[ "

/-- `Add(tag)` of a string. -/
def add (signed : Bool) (f : Formatter) (tag : Text) : Formatter where
  text := f.insertSeparation.text ++ [quote] ++ insertEscapedTag signed tag ++ [quote]
  empty := f.insertSeparation.empty

/-- The destructor. -/
def finish (f : Formatter) : Text := f.text ++ JsonTokenizer.ascii " ]"

end JsonArrayFormatter

/-! ## The text of a string, character by character -/

/-- The characters that are escaped. -/
def isEscaped (signed : Bool) (c : UInt8) : Bool := shouldBeFound.contains c || isControl signed c

/-- What is written for a character. -/
def written (signed : Bool) (c : UInt8) : Text :=
  if isEscaped signed c then insertEscapedCharacter c else [c]

theorem findIdx_take_findIdx {α : Type} (p q : α → Bool) (l : List α) :
    (l.take (l.findIdx p)).findIdx q = l.findIdx (fun c => p c || q c) := by
  induction l with
  | nil => rfl
  | cons c l ih =>
      rw [List.findIdx_cons, List.findIdx_cons]
      cases hp : p c with
      | true => simp
      | false =>
          cases hq : q c with
          | true => simp [List.findIdx_cons, hq]
          | false => simp [List.findIdx_cons, hq, ih]

/-- The search for the characters and that for the control characters find the first one that is
escaped. -/
theorem nonEscapedSubString_eq (signed : Bool) (string : Text) (start : Nat) :
    nonEscapedSubString signed string start =
      (start + (string.drop start).findIdx (isEscaped signed),
        (string.drop start).take ((string.drop start).findIdx (isEscaped signed))) := by
  unfold nonEscapedSubString
  simp only [Nat.add_sub_cancel_left, findIdx_take_findIdx]
  rfl

variable {signed : Bool}

theorem flatMap_written_of_not {l : Text} (h : ∀ c ∈ l, isEscaped signed c = false) :
    l.flatMap (written signed) = l := by
  induction l with
  | nil => rfl
  | cons c l ih =>
      rw [List.flatMap_cons, ih (fun d hd => h d (List.mem_cons_of_mem _ hd)), written,
        h c List.mem_cons_self]
      rfl

/-- What is before the first character that is escaped is written as it is. -/
theorem flatMap_written_take (signed : Bool) (l : Text) :
    (l.take (l.findIdx (isEscaped signed))).flatMap (written signed) =
      l.take (l.findIdx (isEscaped signed)) := by
  apply flatMap_written_of_not
  intro c hc
  obtain ⟨i, hi, rfl⟩ := List.mem_iff_getElem.mp hc
  rw [List.length_take] at hi
  rw [List.getElem_take]
  exact List.not_of_lt_findIdx (lt_of_lt_of_le hi (Nat.min_le_left _ _))

theorem insertEscapedFrom_length (signed : Bool) (tag : Text) (turns : Nat) :
    insertEscapedFrom signed tag turns tag.length = [] := by
  cases turns with
  | zero => rfl
  | succ turns => rw [insertEscapedFrom, if_pos rfl]

theorem insertEscapedFrom_eq (signed : Bool) (tag : Text) (turns start : Nat)
    (hstart : start ≤ tag.length) (hturns : tag.length - start < turns) :
    insertEscapedFrom signed tag turns start = (tag.drop start).flatMap (written signed) := by
  induction turns generalizing start with
  | zero => omega
  | succ turns ih =>
      unfold insertEscapedFrom
      by_cases hend : start = tag.length
      · rw [if_pos hend, List.drop_eq_nil_of_le (by omega)]
        rfl
      · rw [if_neg hend, nonEscapedSubString_eq]
        dsimp only
        have hle : (tag.drop start).findIdx (isEscaped signed) ≤ (tag.drop start).length :=
          List.findIdx_le_length
        have hlength : (tag.drop start).length = tag.length - start := List.length_drop
        -- what is before the character, and what is from it on
        have hsplit : (tag.drop start).flatMap (written signed) =
            (tag.drop start).take ((tag.drop start).findIdx (isEscaped signed)) ++
              (tag.drop (start + (tag.drop start).findIdx (isEscaped signed))).flatMap
                (written signed) := by
          rw [← List.drop_drop, ← flatMap_written_take, ← List.flatMap_append, List.take_append_drop]
        rw [hsplit]
        by_cases hnone : start + (tag.drop start).findIdx (isEscaped signed) = tag.length
        · rw [if_neg (fun hc => hc hnone), hnone, List.drop_length, insertEscapedFrom_length]
          rfl
        · have hlt : start + (tag.drop start).findIdx (isEscaped signed) < tag.length := by omega
          rw [if_pos hnone, ih _ (by omega) (by omega), List.append_assoc,
            List.drop_eq_getElem_cons hlt, List.flatMap_cons]
          have hescaped : isEscaped signed
              tag[start + (tag.drop start).findIdx (isEscaped signed)] = true := by
            rw [← List.getElem_drop]
            · exact List.findIdx_getElem
            · omega
          rw [written, if_pos hescaped, List.getD_eq_getElem?_getD, List.getElem?_eq_getElem hlt,
            Option.getD_some]

theorem insertEscapedTag_eq (signed : Bool) (tag : Text) :
    insertEscapedTag signed tag = tag.flatMap (written signed) := by
  rw [insertEscapedTag, insertEscapedFrom_eq signed tag _ 0 (by omega) (by omega), List.drop_zero]

/-! ## Escapes are read back -/

theorem outputAsHexadecimal_eq : ∀ n, n < 256 → outputAsHexadecimal 4 (byte '0') n =
    [byte '0', byte '0', hexChars.getD (n / 16) 0, hexChars.getD (n % 16) 0] := by
  decide +kernel

theorem hexValue_hexChars : ∀ n, n < 16 → hexValue (hexChars.getD n 0) = some (UInt8.ofNat n) ∧
    hexChars.getD n 0 ≠ quote ∧ hexChars.getD n 0 ≠ backslash := by
  decide +kernel

theorem ofNat_hexDigits (n : Nat) :
    ((((0 : UInt8) * 16 + 0) * 16 + 0) * 16 + UInt8.ofNat (n / 16)) * 16 + UInt8.ofNat (n % 16) =
      UInt8.ofNat n := by
  apply UInt8.toNat_inj.mp
  simp only [UInt8.zero_mul, UInt8.zero_add, UInt8.toNat_add, UInt8.toNat_mul, UInt8.toNat_ofNat', UInt8.reduceToNat]
  omega

/-- An escape is read as the character that it was written for. -/
theorem characters_insertEscapedCharacter (c : UInt8) (t : Text) :
    JsonString.characters (insertEscapedCharacter c ++ t) =
      (JsonString.characters t).map (c :: ·) := by
  unfold insertEscapedCharacter
  split_ifs with h1 h2 h3 h4 h5 h6 h7
  · rw [h1]
    exact JsonString.characters_escaped (by decide) t
  · rw [h2]
    exact JsonString.characters_escaped (by decide) t
  · rw [h3]
    exact JsonString.characters_escaped (by decide) t
  · rw [h4]
    exact JsonString.characters_escaped (by decide) t
  · rw [h5]
    exact JsonString.characters_escaped (by decide) t
  · rw [h6]
    exact JsonString.characters_escaped (by decide) t
  · rw [h7]
    exact JsonString.characters_escaped (by decide) t
  · have hc : c.toNat < 256 := UInt8.toNat_lt c
    have hzero : hexValue (byte '0') = some 0 := by decide
    have hhigh := (hexValue_hexChars (c.toNat / 16) (by omega)).1
    have hlow := (hexValue_hexChars (c.toNat % 16) (by omega)).1
    have hvalue := ofNat_hexDigits c.toNat
    rw [UInt8.ofNat_toNat] at hvalue
    rw [outputAsHexadecimal_eq c.toNat hc]
    show JsonString.characters (backslash :: byte 'u' :: byte '0' :: byte '0' ::
      hexChars.getD (c.toNat / 16) 0 :: hexChars.getD (c.toNat % 16) 0 :: t) = _
    rw [JsonString.characters_unicode]
    simp only [JsonStringIterator.skipHex, JsonStringIterator.readHex, hzero, hhigh, hlow,
      Option.isSome_some, if_true, hvalue]

/-- The characters of an escape after the backslash: none of them ends the string or is a backslash,
and they do not begin with the character itself. -/
def HasPlainTail (c : UInt8) : Prop :=
  insertEscapedCharacter c = backslash :: (insertEscapedCharacter c).tail ∧
    (∀ y ∈ (insertEscapedCharacter c).tail, y ≠ quote ∧ y ≠ backslash) ∧
    (insertEscapedCharacter c).tail.head? ≠ some c ∧ (insertEscapedCharacter c).tail ≠ []

theorem isEscaped_backslash (signed : Bool) : isEscaped signed backslash = false := by
  cases signed <;> decide

theorem isEscaped_u (signed : Bool) : isEscaped signed (byte 'u') = false := by
  cases signed <;> rfl

variable {c : UInt8} {s tagName body : Text}

theorem hasPlainTail (h : isEscaped signed c = true) (hc : c ≠ quote) : HasPlainTail c := by
  unfold HasPlainTail insertEscapedCharacter
  split_ifs with h1 h2
  · exact absurd h1 hc
  · rw [h2, isEscaped_backslash] at h
    exact Bool.noConfusion h
  iterate 5
    · exact ⟨rfl, List.forall_mem_singleton.mpr (by decide), by subst c; decide, List.cons_ne_nil _ _⟩
  · have hn : c.toNat < 256 := UInt8.toNat_lt c
    have hzero : byte '0' ≠ quote ∧ byte '0' ≠ backslash := by decide
    rw [outputAsHexadecimal_eq c.toNat hn]
    refine ⟨rfl, ?_, ?_, List.cons_ne_nil _ _⟩
    · simp only [List.cons_append, List.nil_append, List.tail_cons, List.forall_mem_cons]
      exact ⟨by decide, hzero, hzero, (hexValue_hexChars _ (by omega)).2, (hexValue_hexChars _ (by omega)).2,
        List.forall_mem_nil _⟩
    · intro hhead
      rw [← Option.some.inj hhead, isEscaped_u] at h
      exact Bool.noConfusion h

open JsonTokenizer JsonString

theorem stringPart_append_plain {x : Text} (h : ∀ y ∈ x, y ≠ quote ∧ y ≠ backslash) (t : Text) :
    stringPart (x ++ t) = (stringPart t).map (x ++ ·) := by
  induction x with
  | nil => simp
  | cons c x ih =>
      obtain ⟨hq, hb⟩ := h c List.mem_cons_self
      rw [List.cons_append, stringPart_plain hq hb, ih (fun y hy => h y (List.mem_cons_of_mem _ hy)),
        Option.map_map]
      rfl

theorem characters_append_plain {x : Text} (h : ∀ y ∈ x, y ≠ backslash) (t : Text) :
    characters (x ++ t) = (characters t).map (x ++ ·) := by
  induction x with
  | nil => simp
  | cons c x ih =>
      rw [List.cons_append, characters_plain (h c List.mem_cons_self),
        ih (fun y hy => h y (List.mem_cons_of_mem _ hy)), Option.map_map]
      rfl

theorem isEscaped_quote (signed : Bool) : isEscaped signed quote = true := by
  cases signed <;> decide

theorem written_of_not (h : isEscaped signed c = false) : written signed c = [c] := by
  rw [written, h]
  rfl

/-- What is written for a character other than the backslash does not end the string. -/
theorem stringPart_written (hc : c ≠ backslash) (t : Text) :
    stringPart (written signed c ++ t) = (stringPart t).map (written signed c ++ ·) := by
  by_cases hescaped : isEscaped signed c = true
  · rw [written, if_pos hescaped]
    by_cases hq : c = quote
    · rw [hq]
      exact stringPart_escaped quote t
    · obtain ⟨htail, hplain, -, hne⟩ := hasPlainTail hescaped hq
      obtain ⟨x, tail, hx⟩ := List.exists_cons_of_ne_nil hne
      rw [hx] at htail hplain
      rw [htail, List.cons_append, List.cons_append, stringPart_escaped,
        stringPart_append_plain (fun y hy => hplain y (List.mem_cons_of_mem _ hy)), Option.map_map]
      rfl
  · have hq : c ≠ quote := fun hq => hescaped (hq ▸ isEscaped_quote signed)
    rw [written_of_not (Bool.eq_false_iff.mpr hescaped)]
    exact stringPart_plain hq hc t

/-- What is written for a character other than the backslash is read as that character. -/
theorem characters_written (hc : c ≠ backslash) (t : Text) :
    characters (written signed c ++ t) = (characters t).map (c :: ·) := by
  by_cases hescaped : isEscaped signed c = true
  · rw [written, if_pos hescaped]
    exact characters_insertEscapedCharacter c t
  · rw [written_of_not (Bool.eq_false_iff.mpr hescaped)]
    exact characters_plain hc t

theorem stringPart_flatMap_written (h : backslash ∉ s) (t : Text) :
    stringPart (s.flatMap (written signed) ++ t) =
      (stringPart t).map (s.flatMap (written signed) ++ ·) := by
  induction s with
  | nil => simp
  | cons c s ih =>
      have hc : c ≠ backslash := fun hc => h (hc ▸ List.mem_cons_self)
      rw [List.flatMap_cons, List.append_assoc, stringPart_written hc,
        ih (fun hm => h (List.mem_cons_of_mem _ hm)), Option.map_map]
      simp only [List.append_assoc]
      rfl

theorem characters_flatMap_written (h : backslash ∉ s) (t : Text) :
    characters (s.flatMap (written signed) ++ t) = (characters t).map (s ++ ·) := by
  induction s with
  | nil => simp
  | cons c s ih =>
      have hc : c ≠ backslash := fun hc => h (hc ▸ List.mem_cons_self)
      rw [List.flatMap_cons, List.append_assoc, characters_written hc,
        ih (fun hm => h (List.mem_cons_of_mem _ hm)), Option.map_map]
      rfl

/-- **Without backslashes the closing quote is the one that the formatter writes.** -/
theorem stringPart_insertEscapedTag (h : backslash ∉ s) (after : Text) :
    stringPart (insertEscapedTag signed s ++ quote :: after) = some (insertEscapedTag signed s) := by
  rw [insertEscapedTag_eq, stringPart_flatMap_written h, stringPart_quote, Option.map_some,
    List.append_nil]

/-- **Without backslashes the string is read back.** -/
theorem characters_insertEscapedTag (h : backslash ∉ s) :
    characters (insertEscapedTag signed s) = some s := by
  have hread : characters (s.flatMap (written signed) ++ []) = _ := characters_flatMap_written h []
  rw [List.append_nil, characters_nil, Option.map_some, List.append_nil] at hread
  rw [insertEscapedTag_eq, hread]

/-! ## Backslashes are not read back -/

section Backslash

variable {signed : Bool} {after : Text} {part t : Text} {d : UInt8}

/-- The text that is written for the rest of a string, with what comes after it. -/
def writtenWith (signed : Bool) (after t : Text) : Text :=
  t.flatMap (written signed) ++ quote :: after

theorem writtenWith_cons (c : UInt8) (t : Text) :
    writtenWith signed after (c :: t) = written signed c ++ writtenWith signed after t := by
  rw [writtenWith, List.flatMap_cons, List.append_assoc, writtenWith]

theorem writtenWith_raw (h : isEscaped signed c = false) (t : Text) :
    writtenWith signed after (c :: t) = c :: writtenWith signed after t := by
  rw [writtenWith_cons, written_of_not h]
  rfl

/-- What is written for a character is the character, or begins with a backslash. -/
theorem writtenWith_escape (h : isEscaped signed c = true) (t : Text) :
    ∃ tail, writtenWith signed after (c :: t) = backslash :: tail := by
  rw [writtenWith_cons, written, if_pos h]
  by_cases hq : c = quote
  · rw [hq]
    exact ⟨_, rfl⟩
  · rw [(hasPlainTail h hq).1]
    exact ⟨_, rfl⟩

theorem stringPart_of_backslash {text : Text} (h : stringPart (backslash :: text) = some part) :
    ∃ tail, part = backslash :: tail := by
  cases text with
  | nil => simp at h
  | cons d text =>
      rw [stringPart_escaped, Option.map_eq_some_iff] at h
      obtain ⟨tail, -, rfl⟩ := h
      exact ⟨_, rfl⟩

/-- The hexadecimal digits that are skipped are characters of the string. -/
theorem skipHex_written (n : Nat) (h : stringPart (writtenWith signed after t) = some part) :
    ∃ digits rest, t = digits ++ rest ∧
      stringPart (writtenWith signed after rest) = some (JsonStringIterator.skipHex n part) := by
  induction n generalizing t part with
  | zero => exact ⟨[], t, rfl, h⟩
  | succ n ih =>
      -- nothing is skipped, unless the text begins with a digit
      have hstop : JsonStringIterator.skipHex (n + 1) part = part →
          ∃ digits rest, t = digits ++ rest ∧ stringPart (writtenWith signed after rest) =
            some (JsonStringIterator.skipHex (n + 1) part) :=
        fun hpart => ⟨[], t, rfl, by rw [hpart, h]⟩
      have hbackslash : (∃ tail, part = backslash :: tail) →
          JsonStringIterator.skipHex (n + 1) part = part := by
        rintro ⟨tail, rfl⟩
        rfl
      cases t with
      | nil =>
          simp only [writtenWith, List.flatMap_nil, List.nil_append, stringPart_quote,
            Option.some.injEq] at h
          subst h
          exact hstop rfl
      | cons c t =>
          by_cases hc : c = backslash
          · rw [hc, writtenWith_raw (isEscaped_backslash signed)] at h
            exact hstop (hbackslash (stringPart_of_backslash h))
          by_cases hescaped : isEscaped signed c = true
          · obtain ⟨tail, htail⟩ : ∃ tail, writtenWith signed after (c :: t) = _ := writtenWith_escape hescaped t
            rw [htail] at h
            exact hstop (hbackslash (stringPart_of_backslash h))
          · have hq : c ≠ quote := fun hq => hescaped (hq ▸ isEscaped_quote signed)
            rw [writtenWith_raw (Bool.eq_false_iff.mpr hescaped), stringPart_plain hq hc,
              Option.map_eq_some_iff] at h
            obtain ⟨part, hpart, rfl⟩ := h
            by_cases hdigit : (hexValue c).isSome = true
            · obtain ⟨digits, rest, rfl, hrest⟩ := ih hpart
              refine ⟨c :: digits, rest, rfl, ?_⟩
              rw [hrest, JsonStringIterator.skipHex, if_pos hdigit]
            · exact hstop (by rw [JsonStringIterator.skipHex, if_neg hdigit])

/-- A backslash before an escape: the escape is read as its backslash and the characters after it. -/
theorem part_of_backslash_escape (hescaped : isEscaped signed d = true)
    (hd : d ≠ quote) (h : stringPart (writtenWith signed after (backslash :: d :: t)) = some part) :
    ∃ tail rest, part = backslash :: backslash :: (tail ++ rest) ∧
      stringPart (writtenWith signed after t) = some rest ∧ (∀ y ∈ tail, y ≠ backslash) ∧
      tail.head? ≠ some d ∧ tail ≠ [] := by
  obtain ⟨htail, hplain, hhead, hne⟩ := hasPlainTail hescaped hd
  rw [writtenWith_raw (isEscaped_backslash signed), writtenWith_cons, written, if_pos hescaped, htail,
    List.cons_append, stringPart_escaped, stringPart_append_plain hplain, Option.map_map,
    Option.map_eq_some_iff] at h
  obtain ⟨rest, hrest, rfl⟩ := h
  exact ⟨_, rest, rfl, hrest, fun y hy => (hplain y hy).2, hhead, hne⟩

/-- A backslash before a character that is not escaped. -/
theorem part_of_backslash_raw (hescaped : isEscaped signed d = false)
    (h : stringPart (writtenWith signed after (backslash :: d :: t)) = some part) :
    ∃ rest, part = backslash :: d :: rest ∧ stringPart (writtenWith signed after t) = some rest := by
  rw [writtenWith_raw (isEscaped_backslash signed), writtenWith_raw hescaped, stringPart_escaped,
    Option.map_eq_some_iff] at h
  obtain ⟨rest, hrest, rfl⟩ := h
  exact ⟨rest, rfl, hrest⟩

/-- One character is read for at least two that were written, so that something is pending. -/
theorem pending_of_cons {v x y : UInt8} {cs pending chunk rest : Text}
    (h : v :: cs = pending ++ x :: y :: (chunk ++ rest)) :
    ∃ pending' : Text, pending' ≠ [] ∧ cs = pending' ++ rest := by
  cases pending with
  | nil =>
      rw [List.nil_append, List.cons.injEq] at h
      exact ⟨y :: chunk, by simp, h.2⟩
  | cons z pending =>
      rw [List.cons_append, List.cons.injEq] at h
      refine ⟨pending ++ x :: y :: chunk, by simp, ?_⟩
      rw [h.2, List.append_assoc]
      rfl

/-- More is read than was written, but it does not match. -/
theorem pending_of_tail {tail cs pending : Text} (hplain : ∀ y ∈ tail, y ≠ backslash)
    (hhead : tail.head? ≠ some d) (hne : tail ≠ [])
    (h : backslash :: (tail ++ cs) = pending ++ backslash :: d :: t) :
    ∃ pending' : Text, pending' ≠ [] ∧ cs = pending' ++ t := by
  obtain ⟨y, tail, rfl⟩ := List.exists_cons_of_ne_nil hne
  cases pending with
  | nil =>
      simp only [List.nil_append, List.cons_append, List.cons.injEq, true_and] at h
      exact absurd (congrArg some h.1) hhead
  | cons x pending =>
      have htail : (y :: tail) ++ cs = pending ++ backslash :: d :: t := (List.cons.inj h).2
      rcases List.append_eq_append_iff.mp htail with ⟨more, rfl, rfl⟩ | ⟨more, hmore, hrest⟩
      · refine ⟨more ++ [backslash, d], by simp, ?_⟩
        rw [List.append_assoc]
        rfl
      · cases more with
        | nil => exact ⟨[backslash, d], by simp, hrest.symm⟩
        | cons z more =>
            rw [List.cons_append, List.cons.injEq] at hrest
            exact absurd hrest.1.symm (hplain z (by rw [hmore]; simp))

/-- **What is read is not the rest of the string, preceded by something that was read before it was
written**, and neither is it the rest of the string itself when that begins with a backslash. -/
theorem characters_ne (hafter : quote ∉ after) (n : Nat) (pending t part : Text) (hn : t.length ≤ n)
    (hpending : pending ≠ [] ∨ t.head? = some backslash)
    (h : stringPart (writtenWith signed after t) = some part) :
    characters part ≠ some (pending ++ t) := by
  induction n generalizing pending t part with
  | zero =>
      have ht : t = [] := List.eq_nil_of_length_eq_zero (by omega)
      subst ht
      simp only [writtenWith, List.flatMap_nil, List.nil_append, stringPart_quote,
        Option.some.injEq] at h
      subst h
      simpa using hpending.symm
  | succ n ih =>
      intro heq
      cases t with
      | nil =>
          simp only [writtenWith, List.flatMap_nil, List.nil_append, stringPart_quote,
            Option.some.injEq] at h
          subst h
          simp at heq hpending
          exact hpending heq
      | cons c t =>
          simp only [List.length_cons] at hn
          by_cases hc : c = backslash
          · subst hc
            cases t with
            | nil =>
                rw [writtenWith_raw (isEscaped_backslash signed), writtenWith, List.flatMap_nil,
                  List.nil_append, stringPart_escaped, stringPart_eq_none hafter] at h
                cases h
            | cons d t =>
                simp only [List.length_cons] at hn
                by_cases hescaped : isEscaped signed d = true
                · by_cases hd : d = quote
                  · -- the quote that was escaped ends the string
                    rw [hd, writtenWith_raw (isEscaped_backslash signed), writtenWith_cons, written,
                      if_pos (isEscaped_quote signed)] at h
                    obtain rfl : [backslash, backslash] = part := Option.some.inj h
                    have hlength := congrArg List.length (Option.some.inj heq)
                    simp at hlength
                    omega
                  · obtain ⟨tail, rest, rfl, hrest, hplain, hhead, hne⟩ :=
                      part_of_backslash_escape hescaped hd h
                    rw [characters_escaped (by decide), characters_append_plain hplain, Option.map_map,
                      Option.map_eq_some_iff] at heq
                    obtain ⟨cs, hcs, heq⟩ := heq
                    obtain ⟨pending', hpending', rfl⟩ := pending_of_tail hplain hhead hne heq
                    exact ih pending' t rest (by omega) (Or.inl hpending') hrest hcs
                · obtain ⟨rest, rfl, hrest⟩ := part_of_backslash_raw (Bool.eq_false_iff.mpr hescaped) h
                  by_cases hu : d = byte 'u'
                  · rw [hu, characters_unicode, Option.map_eq_some_iff] at heq
                    obtain ⟨cs, hcs, heq⟩ := heq
                    obtain ⟨digits, t', rfl, hrest'⟩ := skipHex_written 4 hrest
                    obtain ⟨pending', hpending', rfl⟩ := pending_of_cons heq
                    rw [List.length_append] at hn
                    exact ih pending' t' _ (by omega) (Or.inl hpending') hrest' hcs
                  · rw [characters_escaped hu, Option.map_eq_some_iff] at heq
                    obtain ⟨cs, hcs, heq⟩ := heq
                    obtain ⟨pending', hpending', rfl⟩ := pending_of_cons (show _ = pending ++ backslash :: d :: ([] ++ t) from heq)
                    exact ih pending' t rest (by omega) (Or.inl hpending') hrest hcs
          · -- the character is read
            rw [writtenWith_cons, stringPart_written hc, Option.map_eq_some_iff] at h
            obtain ⟨rest, hrest, rfl⟩ := h
            rw [characters_written hc, Option.map_eq_some_iff] at heq
            obtain ⟨cs, hcs, heq⟩ := heq
            cases pending with
            | nil => simp [hc] at hpending
            | cons x pending =>
                simp only [List.cons_append, List.cons.injEq] at heq
                obtain ⟨rfl, rfl⟩ := heq
                refine ih (pending ++ [c]) t rest (by omega) (Or.inl (by simp)) hrest ?_
                rw [hcs, List.append_assoc]
                rfl

end Backslash

/-- **A string is read back exactly when it has no backslash**, when there is no quote after it. -/
theorem readsBack_iff (signed : Bool) (s : Text) {after : Text} (hafter : quote ∉ after) :
    (∃ part, stringPart (insertEscapedTag signed s ++ quote :: after) = some part ∧
      characters part = some s) ↔ backslash ∉ s := by
  constructor
  · rintro ⟨part, hpart, hread⟩ hmem
    obtain ⟨front, t, rfl, hfront⟩ := List.eq_append_cons_of_mem hmem
    rw [insertEscapedTag_eq, List.flatMap_append, List.append_assoc,
      stringPart_flatMap_written hfront, Option.map_eq_some_iff] at hpart
    obtain ⟨rest, hrest, rfl⟩ := hpart
    rw [characters_flatMap_written hfront, Option.map_eq_some_iff] at hread
    obtain ⟨cs, hcs, heq⟩ := hread
    rw [List.append_cancel_left heq] at hcs
    exact characters_ne hafter _ [] (backslash :: t) rest (le_refl _) (Or.inr rfl) hrest hcs
  · intro h
    exact ⟨_, stringPart_insertEscapedTag h after, characters_insertEscapedTag h⟩

/-! ## Objects and arrays are read back -/

/-- What `GetString(key)` and an iteration over its result yield. -/
def readString (objectString key : Text) : Option Text := do
  let (source, error) ← JsonObject.getString objectString key
  if error then none else characters source

/-- What an iteration over the first string of an array yields. -/
def readFirst (objectString : Text) : Option Text := do
  let it ← JsonArray.first objectString
  match it.state, it.value with
  | .readCommaOrArrayEnd, .string source => characters source
  | _, _ => none

/-- The tokens at the start of an object with a string: its brace, its key and a colon. -/
theorem object_tokens {t : JsonTokenizer}
    (ht : t.rest = 0x7b :: 0x20 :: quote :: (tagName ++ quote :: byte ':' :: quote :: body))
    (htag : ∀ y ∈ tagName, y ≠ quote ∧ y ≠ backslash) :
    ∃ t₁ t₂ t₃ : JsonTokenizer, t.token = some (Token.leftBrace t.skipWhitespace.parseIndex, t₁) ∧
      t₁.token = some (Token.string tagName, t₂) ∧ t₂.token = some (Token.colon, t₃) ∧
      t₃.rest = quote :: body := by
  have hkey : stringPart (tagName ++ quote :: byte ':' :: quote :: body) = some tagName := by
    rw [stringPart_append_plain htag, stringPart_quote, Option.map_some, List.append_nil]
  obtain ⟨t₁, htoken₁, hrest₁⟩ := reads_of_cons (by rw [ht]; rfl)
    (Or.inr (Or.inr (Or.inl ⟨rfl, rfl⟩)))
  obtain ⟨t₂, htoken₂, hrest₂⟩ := reads_string (by rw [hrest₁]; rfl) hkey
  rw [← List.drop_drop, List.drop_left, List.drop_succ_cons, List.drop_zero] at hrest₂
  obtain ⟨t₃, htoken₃, hrest₃⟩ := reads_of_cons (by rw [hrest₂]; rfl) (Or.inl ⟨rfl, rfl⟩)
  exact ⟨t₁, t₂, t₃, htoken₁, htoken₂, htoken₃, hrest₃⟩

theorem advanceFor_of_parse {n : Nat} {it it' : JsonObjectIterator} (h : it.parseNextToken = some it') :
    JsonObjectIterator.advanceFor (n + 1) it =
      if it'.state ≠ ObjectState.readCommaOrObjectEnd ∧ it'.state ≠ ObjectState.ended then
        JsonObjectIterator.advanceFor n it'
      else some it' := by
  rw [JsonObjectIterator.advanceFor, h]
  rfl

/-- The iterator that is at the value of the first member of an object. -/
theorem object_value (htag : ∀ y ∈ tagName, y ≠ quote ∧ y ≠ backslash) (body : Text) :
    ∃ t : JsonTokenizer, t.rest = quote :: body ∧
      JsonObject.first (0x7b :: 0x20 :: quote :: (tagName ++ quote :: byte ':' :: quote :: body)) =
        JsonObjectIterator.advanceFor 1
          { tokenizer := t, state := ObjectState.readValue, key := tagName } := by
  obtain ⟨t₁, t₂, t₃, htoken, htoken₁, htoken₂, hrest₃⟩ := object_tokens
    (t := { objectString := 0x7b :: 0x20 :: quote :: (tagName ++ quote :: byte ':' :: quote :: body) })
    rfl htag
  have hstart : JsonObjectIterator.parseNextToken
      { tokenizer := { objectString :=
        0x7b :: 0x20 :: quote :: (tagName ++ quote :: byte ':' :: quote :: body) } } =
      some { tokenizer := t₁, state := ObjectState.readKeyOrEnd } := by
    rw [JsonObjectIterator.parseNextToken, htoken]
    rfl
  have hkey : JsonObjectIterator.parseNextToken
      { tokenizer := t₁, state := ObjectState.readKeyOrEnd } =
      some { tokenizer := t₂, state := ObjectState.readColon, key := tagName } := by
    rw [JsonObjectIterator.parseNextToken, htoken₁]
    rfl
  have hcolon : JsonObjectIterator.parseNextToken
      { tokenizer := t₂, state := ObjectState.readColon, key := tagName } =
      some { tokenizer := t₃, state := ObjectState.readValue, key := tagName } := by
    rw [JsonObjectIterator.parseNextToken, htoken₂]
    rfl
  refine ⟨t₃, hrest₃, ?_⟩
  rw [JsonObject.first, JsonObjectIterator.advance, advanceFor_of_parse hstart, if_pos (by simp),
    advanceFor_of_parse hkey, if_pos (by simp), advanceFor_of_parse hcolon, if_pos (by simp)]

/-- **What is read of an object with one string.** -/
theorem readString_object (htag : ∀ y ∈ tagName, y ≠ quote ∧ y ≠ backslash) (hbody : body ≠ []) :
    readString (0x7b :: 0x20 :: quote :: (tagName ++ quote :: byte ':' :: quote :: body)) tagName =
      (stringPart body).bind characters := by
  obtain ⟨t, hrest, hfirst⟩ := object_value htag body
  have hvalue : t.rest.dropWhile isspace = quote :: body := by
    rw [hrest]
    rfl
  rw [readString, JsonObject.getString, hfirst]
  cases hpart : stringPart body with
  | some part =>
      have hparse : JsonObjectIterator.parseNextToken
          { tokenizer := t, state := ObjectState.readValue, key := tagName } =
          some { tokenizer := t.skipWhitespace.skip (part.length + 2),
                 state := ObjectState.readCommaOrObjectEnd
                 key := tagName
                 value := Value.string part } := by
        rw [JsonObjectIterator.parseNextToken, token_string hvalue hpart]
        rfl
      have hkey : JsonString.equal tagName tagName = some true := by
        have hplain := characters_append_plain (fun y hy => (htag y hy).2) []
        rw [List.append_nil, characters_nil, Option.map_some, List.append_nil] at hplain
        rw [equal_of_characters hplain]
        simp
      rw [advanceFor_of_parse hparse, if_neg (fun hc => hc.1 rfl)]
      simp [JsonObject.getStringFrom, hkey]
  | none =>
      obtain ⟨c, text, rfl⟩ := List.exists_cons_of_ne_nil hbody
      obtain ⟨t', htoken⟩ := token_string_open hvalue hpart
      have hparse : JsonObjectIterator.parseNextToken
          { tokenizer := t, state := ObjectState.readValue, key := tagName } =
          some { tokenizer := t', state := ObjectState.ended, key := tagName, error := true } := by
        rw [JsonObjectIterator.parseNextToken, htoken]
        rfl
      rw [advanceFor_of_parse hparse, if_neg (fun hc => hc.2 rfl)]
      rfl

/-- **What is read of an array with one string.** -/
theorem readFirst_array (hbody : body ≠ []) :
    readFirst (byte '[' :: 0x20 :: quote :: body) = (stringPart body).bind characters := by
  obtain ⟨t, htoken, hrest⟩ := reads_of_cons
    (show (rest { objectString := byte '[' :: 0x20 :: quote :: body }).dropWhile isspace =
      byte '[' :: 0x20 :: quote :: body from rfl)
    (Or.inr (Or.inr (Or.inr (Or.inr (Or.inl ⟨rfl, rfl⟩)))))
  have hvalue : t.rest.dropWhile isspace = quote :: body := by
    rw [hrest]
    rfl
  have hstart : JsonArrayIterator.parseNextToken
      { tokenizer := { objectString := byte '[' :: 0x20 :: quote :: body } } =
      some { tokenizer := t, state := ArrayState.readValueOrEnd } := by
    rw [JsonArrayIterator.parseNextToken, htoken]
    rfl
  rw [readFirst, JsonArray.first, JsonArrayIterator.advance, JsonArrayIterator.advanceFor, hstart]
  cases hpart : stringPart body with
  | some part =>
      have hparse : JsonArrayIterator.parseNextToken
          { tokenizer := t, state := ArrayState.readValueOrEnd } =
          some { tokenizer := t.skipWhitespace.skip (part.length + 2),
                 state := ArrayState.readCommaOrArrayEnd
                 value := Value.string part } := by
        rw [JsonArrayIterator.parseNextToken, token_string hvalue hpart]
        rfl
      simp [JsonArrayIterator.advanceFor, hparse]
  | none =>
      obtain ⟨c, text, rfl⟩ := List.exists_cons_of_ne_nil hbody
      obtain ⟨t', htoken'⟩ := token_string_open hvalue hpart
      have hparse : JsonArrayIterator.parseNextToken
          { tokenizer := t, state := ArrayState.readValueOrEnd } =
          some { tokenizer := t', state := ArrayState.ended, error := true } := by
        rw [JsonArrayIterator.parseNextToken, htoken']
        rfl
      simp [JsonArrayIterator.advanceFor, hparse]

/-! ## The round trip -/

/-- The tokenizer that is at the opening quote of a string that was written between other text. -/
def atString (signed : Bool) (before s after : Text) : JsonTokenizer where
  objectString := before ++ quote :: (insertEscapedTag signed s ++ quote :: after)
  parseIndex := before.length

/-- The string is read back: wherever it is written, the closing quote that the tokenizer finds is the
one that the formatter wrote, and the token yields the string. -/
def ReadsBack (signed : Bool) (s : Text) : Prop :=
  ∀ before after, ∃ t' source, (atString signed before s after).token = some (Token.string source, t') ∧
    t'.rest = after ∧ characters source = some s

theorem rest_atString (signed : Bool) (before s after : Text) :
    (atString signed before s after).rest.dropWhile isspace =
      quote :: (insertEscapedTag signed s ++ quote :: after) := by
  rw [rest, atString, List.drop_left]
  rfl

theorem readsBack_of_not_mem (h : backslash ∉ s) : ReadsBack signed s := by
  intro before after
  have hrest := rest_atString signed before s after
  obtain ⟨t', htoken, hrest'⟩ := reads_string hrest (stringPart_insertEscapedTag h after)
  refine ⟨t', _, htoken, ?_, characters_insertEscapedTag h⟩
  rw [hrest', ← List.drop_drop, List.drop_left, List.drop_succ_cons, List.drop_zero]

theorem ReadsBack.not_mem (h : ReadsBack signed s) : backslash ∉ s := by
  obtain ⟨t', source, htoken, -, hread⟩ := h [] []
  have hrest := rest_atString signed [] s []
  obtain ⟨c, text, htext⟩ : ∃ c text, insertEscapedTag signed s ++ [quote] = c :: text :=
    List.exists_cons_of_ne_nil (by simp)
  apply (readsBack_iff signed s (show quote ∉ ([] : Text) by simp)).mp
  cases hpart : stringPart (insertEscapedTag signed s ++ [quote]) with
  | some part =>
      rw [token_string hrest hpart] at htoken
      cases htoken
      exact ⟨_, rfl, hread⟩
  | none =>
      rw [htext] at hrest hpart
      obtain ⟨t'', herror⟩ := token_string_open hrest hpart
      rw [herror] at htoken
      cases htoken

/-- **A string is read back exactly when it has no backslash**: as a token wherever it is written, by
`GetString` from an object, and as an element of an array. -/
theorem string_roundTrip (signed : Bool) (s : Text) :
    (ReadsBack signed s ↔ backslash ∉ s) ∧
    (∀ tagName, quote ∉ tagName → backslash ∉ tagName →
      (readString (JsonObjectFormatter.finish
        (JsonObjectFormatter.add signed JsonObjectFormatter.start tagName s)) tagName = some s ↔
        backslash ∉ s)) ∧
    (readFirst (JsonArrayFormatter.finish
      (JsonArrayFormatter.add signed JsonArrayFormatter.start s)) = some s ↔ backslash ∉ s) := by
  refine ⟨⟨ReadsBack.not_mem, readsBack_of_not_mem⟩, ?_, ?_⟩
  · intro tagName hquote hbackslash
    have htag : ∀ y ∈ tagName, y ≠ quote ∧ y ≠ backslash :=
      fun y hy => ⟨fun hc => hquote (hc ▸ hy), fun hc => hbackslash (hc ▸ hy)⟩
    have htext : JsonObjectFormatter.finish
        (JsonObjectFormatter.add signed JsonObjectFormatter.start tagName s) =
        0x7b :: 0x20 :: quote :: (tagName ++ quote :: byte ':' :: quote ::
          (insertEscapedTag signed s ++ quote :: [0x20, 0x7d])) := by
      simp [JsonObjectFormatter.finish, JsonObjectFormatter.add, Formatter.insertSeparation,
        JsonObjectFormatter.start]
    rw [htext, readString_object htag (by simp), Option.bind_eq_some_iff]
    exact readsBack_iff signed s (by decide)
  · have htext : JsonArrayFormatter.finish
        (JsonArrayFormatter.add signed JsonArrayFormatter.start s) =
        byte '[' :: 0x20 :: quote :: (insertEscapedTag signed s ++ quote :: [0x20, byte ']']) := by
      simp [JsonArrayFormatter.finish, JsonArrayFormatter.add, Formatter.insertSeparation,
        JsonArrayFormatter.start, ascii]
      decide
    rw [htext, readFirst_array (by simp), Option.bind_eq_some_iff]
    exact readsBack_iff signed s (by decide)

/-- A string with each kind of character. -/
theorem string_roundTrip_escapes :
    readString (JsonObjectFormatter.finish (JsonObjectFormatter.add true JsonObjectFormatter.start
      [byte 't'] [quote, 0x08, 0x11, 0x41, 0xe9])) [byte 't'] = some [quote, 0x08, 0x11, 0x41, 0xe9] :=
  ((string_roundTrip true [quote, 0x08, 0x11, 0x41, 0xe9]).2.1 [byte 't'] (by decide) (by decide)).mpr
    (by decide)

/-- **A backslash is not escaped**: a backslash and the letter n are read as a line feed, and the quote
that closes a backslash is not found. -/
theorem backslash_not_escaped :
    (readString (JsonObjectFormatter.finish (JsonObjectFormatter.add true JsonObjectFormatter.start
        [byte 't'] [backslash, byte 'n'])) [byte 't'] = some [0x0a]) ∧
      (∃ t', (atString true [] [backslash] [0x20, 0x7d]).token = some (Token.error, t')) ∧
      ¬ ReadsBack true [backslash] := by
  refine ⟨by decide +kernel, ⟨_, rfl⟩, fun h => ?_⟩
  obtain ⟨t', source, htoken, -⟩ := h [] []
  exact absurd htoken (by simp [show (atString true [] [backslash] []).token = some (Token.error, _) from rfl])

end EmbeddedInfra.Json
