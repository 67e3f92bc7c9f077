import EmbeddedInfra.Infra.Syntax.JsonStreamingChunks

set_option autoImplicit false

/-! # Strings in the streaming JSON parser

A string that is longer than the value buffer is reported as an overflow. That it does not fit is
kept in the token state `stringOverflowOpen`, which an escape replaces for a while. After an escape
of two characters the state comes back, since the buffer is still full; after a unicode escape it
does not, a full buffer is an error there. `reports_iff` says which strings are reported as they should.
-/

namespace EmbeddedInfra.JsonStreaming

open EmbeddedInfra.Json (Text byte quote backslash hexValue)
open EmbeddedInfra.Json.JsonStringIterator (escaped readHex)

/-! ## The text of a string -/

/-- A hexadecimal digit. -/
abbrev HexDigit := { c : UInt8 // (hexValue c).isSome = true }

/-- A piece of the text of a string, which stands for one character. -/
inductive Piece
  | plain (c : UInt8) (hquote : c ≠ quote) (hbackslash : c ≠ backslash)
  | escape (c : UInt8) (hunicode : c ≠ byte 'u')
  | unicode (first second third fourth : HexDigit)

namespace Piece

def text : Piece → Text
  | plain c _ _ => [c]
  | escape c _ => [backslash, c]
  | unicode first second third fourth =>
      [backslash, byte 'u', first.val, second.val, third.val, fourth.val]

/-- The character that the piece stands for. -/
def character : Piece → UInt8
  | plain c _ _ => c
  | escape c _ => escaped c
  | unicode first second third fourth => readHex 4 [first.val, second.val, third.val, fourth.val] 0

def isUnicode : Piece → Bool
  | unicode .. => true
  | _ => false

/-- The text of a string, between the quotes. -/
def textOf (pieces : List Piece) : Text := pieces.flatMap text

def decoded (pieces : List Piece) : Text := pieces.map character

end Piece

/-! ## Reading the text -/

variable {value : Text} {pieces : List Piece}

namespace Tokens

variable (maxValue : Nat) {t u : Tokens} {c : UInt8} {saveValue : Bool}

/-- Inside a string, of which these characters were read. -/
def inString (t : Tokens) (value : Text) : Tokens :=
  { t with
    tokenState := if value.length ≤ maxValue then .stringOpen else .stringOverflowOpen
    valueBuffer := value.take maxValue
    unicodeIndex := 0
    unicode := 0 }

theorem inString_not_done (t : Tokens) (value : Text) :
    (t.inString maxValue value).tokenState ≠ .done := by
  unfold inString
  dsimp only
  split <;> simp

/-- One more character: it is added, or the string overflows. -/
theorem addToValueBuffer_inString (t : Tokens) (value : Text) (c : UInt8) {state : TokenState}
    (hstate : state = .stringOpen ∨ (state = .stringOverflowOpen ∧ maxValue < value.length)) :
    addToValueBuffer maxValue { t.inString maxValue value with tokenState := state } c true true =
      t.inString maxValue (value ++ [c]) := by
  by_cases hlt : value.length < maxValue
  · have hstate : state = .stringOpen := by
      rcases hstate with hstate | ⟨-, hlong⟩
      · exact hstate
      · omega
    have hfull : full maxValue { t.inString maxValue value with tokenState := state } = false := by
      simp only [full, inString, List.length_take, beq_eq_false_iff_ne]
      omega
    rw [addToValueBuffer, hfull]
    simp only [Bool.false_eq_true, if_false, if_true, inString, List.length_append,
      List.length_singleton, hstate]
    rw [if_pos (by omega), List.take_of_length_le (by omega), List.take_of_length_le (by simp; omega)]
  · have hfull : full maxValue { t.inString maxValue value with tokenState := state } = true := by
      simp only [full, inString, List.length_take, beq_iff_eq]
      omega
    rw [addToValueBuffer, hfull]
    simp only [if_true, inString, List.length_append, List.length_singleton]
    rw [if_neg (by omega), List.take_append_of_le_length (by omega)]

/-- A hexadecimal digit of a unicode escape. A `char` holds the value of the digits modulo 256. -/
theorem unicodeDigit_eq (saveValue : Bool) {value : UInt8} (hc : hexValue c = some value) :
    ∃ unicode : UInt16, unicode.toUInt8 = t.unicode.toUInt8 * 16 + value ∧
      t.unicodeDigit maxValue saveValue c =
        if t.unicodeIndex + 1 = 4 then
          { (if t.full maxValue then t.foundToken .error
              else addToValueBuffer maxValue { t with tokenState := .stringOpen } unicode.toUInt8 saveValue true)
            with unicodeIndex := 0, unicode := 0 }
        else { t with unicodeIndex := t.unicodeIndex + 1, unicode := unicode } := by
  have hdigit : ∃ unicode : UInt16, unicode.toUInt8 = t.unicode.toUInt8 * 16 + value ∧
      (if byte '0' ≤ c ∧ c ≤ byte '9' then
        { t with unicodeIndex := t.unicodeIndex + 1
                 unicode := t.unicode * 16 + (c.toUInt16 - (byte '0').toUInt16) }
      else if byte 'a' ≤ c ∧ c ≤ byte 'f' then
        { t with unicodeIndex := t.unicodeIndex + 1
                 unicode := t.unicode * 16 + (c.toUInt16 - (byte 'a').toUInt16 + 10) }
      else if byte 'A' ≤ c ∧ c ≤ byte 'F' then
        { t with unicodeIndex := t.unicodeIndex + 1
                 unicode := t.unicode * 16 + (c.toUInt16 - (byte 'A').toUInt16 + 10) }
      else foundToken { t with unicodeIndex := 0, unicode := 0 } .error) =
        { t with unicodeIndex := t.unicodeIndex + 1, unicode := unicode } := by
    unfold hexValue at hc
    split_ifs at hc ⊢ <;> obtain rfl := Option.some.inj hc <;> exact ⟨_, by simp, rfl⟩
  obtain ⟨unicode, hvalue, hdigit⟩ := hdigit
  refine ⟨unicode, hvalue, ?_⟩
  unfold unicodeDigit
  dsimp only
  rw [hdigit]
  dsimp only
  by_cases hfull : t.valueBuffer.length = maxValue
  · simp [full, hfull, foundToken]
  · cases saveValue <;> simp [full, hfull, addToValueBuffer]

theorem processEscapedData_eq (t : Tokens) (hc : c ≠ byte 'u') :
    t.processEscapedData maxValue c true = t.addToValueBuffer maxValue (escaped c) true true := by
  by_cases hquote : c = quote
  · rw [processEscapedData, if_pos hquote, hquote]
    rfl
  · by_cases hbackslash : c = backslash
    · rw [processEscapedData, if_neg hquote, if_pos hbackslash, hbackslash]
      rfl
    · unfold processEscapedData escaped
      rw [if_neg hquote, if_neg hbackslash, if_neg hc]
      split_ifs <;> rfl

theorem inString_state (t : Tokens) (value : Text) :
    (t.inString maxValue value).tokenState = .stringOpen ∨
      ((t.inString maxValue value).tokenState = .stringOverflowOpen ∧ maxValue < value.length) := by
  unfold inString
  dsimp only
  split
  case isTrue h => exact .inl rfl
  case isFalse h => exact .inr ⟨rfl, by omega⟩

/-- A character of the text of a string, outside an escape. -/
theorem scan_inString (t : Tokens) (value : Text) (c : UInt8) (data : Text) :
    (t.inString maxValue value).scan maxValue true (c :: data) =
      ((t.inString maxValue value).stringCharacter maxValue true c).scan maxValue true data := by
  apply scan_taken _ _ (inString_not_done maxValue t value)
  rcases inString_state maxValue t value with h | ⟨h, -⟩ <;> rw [feedTurn, h] <;> rfl

/-- The backslash that starts an escape. -/
theorem scan_backslash (t : Tokens) (value : Text) (data : Text) :
    (t.inString maxValue value).scan maxValue true (backslash :: data) =
      scan maxValue true { t.inString maxValue value with tokenState := .stringOpenAndEscaped } data := by
  rw [scan_inString, stringCharacter, if_pos rfl]

theorem feedTurn_unicode (ht : t.tokenState = .unicodeValueOpen) (c : UInt8) :
    t.feedTurn maxValue true c [] = some (t.unicodeDigit maxValue true c, []) := by
  simp only [feedTurn, ht]

/-- The digits of a unicode escape but the last. -/
theorem scan_unicodeDigit (ht : t.tokenState = .unicodeValueOpen)
    (hindex : t.unicodeIndex < 3) {value : UInt8} (hc : hexValue c = some value) (data : Text) :
    ∃ unicode : UInt16, unicode.toUInt8 = t.unicode.toUInt8 * 16 + value ∧
      t.scan maxValue true (c :: data) =
        scan maxValue true { t with unicodeIndex := t.unicodeIndex + 1, unicode := unicode } data := by
  obtain ⟨unicode, hunicode, hdigit⟩ := unicodeDigit_eq maxValue true (t := t) hc
  refine ⟨unicode, hunicode, ?_⟩
  rw [if_neg (by omega)] at hdigit
  apply scan_taken _ _ (by simp [ht])
  rw [feedTurn_unicode maxValue ht, hdigit]

/-- The last digit of a unicode escape. -/
theorem scan_lastDigit (ht : t.tokenState = .unicodeValueOpen)
    (hindex : t.unicodeIndex = 3) {value : UInt8} (hc : hexValue c = some value) (data : Text) :
    t.scan maxValue true (c :: data) = scan maxValue true
      { (if t.full maxValue then t.foundToken .error
          else addToValueBuffer maxValue { t with tokenState := .stringOpen }
            (t.unicode.toUInt8 * 16 + value) true true)
        with unicodeIndex := 0, unicode := 0 } data := by
  obtain ⟨unicode, hunicode, hdigit⟩ := unicodeDigit_eq maxValue true (t := t) hc
  rw [if_pos (by omega), hunicode] at hdigit
  apply scan_taken _ _ (by simp [ht])
  rw [feedTurn_unicode maxValue ht, hdigit]

/-- A unicode escape: its character is added, or the buffer is full and that is an error. -/
theorem scan_unicode (t : Tokens) (value : Text) (first second third fourth : HexDigit) (data : Text) :
    (t.inString maxValue value).scan maxValue true
        ((Piece.unicode first second third fourth).text ++ data) =
      if value.length < maxValue then
        (t.inString maxValue (value ++ [(Piece.unicode first second third fourth).character])).scan
          maxValue true data
      else
        scan maxValue true ((t.inString maxValue value).foundToken .error) data := by
  obtain ⟨a, ha⟩ := Option.isSome_iff_exists.mp first.property
  obtain ⟨b, hb⟩ := Option.isSome_iff_exists.mp second.property
  obtain ⟨c, hc⟩ := Option.isSome_iff_exists.mp third.property
  obtain ⟨d, hd⟩ := Option.isSome_iff_exists.mp fourth.property
  have hcharacter : (Piece.unicode first second third fourth).character =
      (((0 * 16 + a) * 16 + b) * 16 + c) * 16 + d := by
    simp [Piece.character, readHex, ha, hb, hc, hd]
  show (t.inString maxValue value).scan maxValue true (backslash :: byte 'u' :: first.val ::
    second.val :: third.val :: fourth.val :: data) = _
  have hu (data : Text) : scan maxValue true
      { t.inString maxValue value with tokenState := .stringOpenAndEscaped } (byte 'u' :: data) =
      scan maxValue true { t.inString maxValue value with tokenState := .unicodeValueOpen } data :=
    scan_taken _ _ (by simp) rfl data
  obtain ⟨u₁, hu₁, h₁⟩ := scan_unicodeDigit maxValue
    (t := { t.inString maxValue value with tokenState := .unicodeValueOpen }) rfl (by simp [inString]) ha
    (second.val :: third.val :: fourth.val :: data)
  obtain ⟨u₂, hu₂, h₂⟩ := scan_unicodeDigit maxValue
    (t := { t.inString maxValue value with
      tokenState := .unicodeValueOpen, unicodeIndex := 1, unicode := u₁ }) rfl (by simp) hb
    (third.val :: fourth.val :: data)
  obtain ⟨u₃, hu₃, h₃⟩ := scan_unicodeDigit maxValue
    (t := { t.inString maxValue value with
      tokenState := .unicodeValueOpen, unicodeIndex := 2, unicode := u₂ }) rfl (by simp) hc
    (fourth.val :: data)
  have h₄ := scan_lastDigit maxValue
    (t := { t.inString maxValue value with
      tokenState := .unicodeValueOpen, unicodeIndex := 3, unicode := u₃ }) rfl rfl hd data
  rw [scan_backslash, hu, h₁]
  refine h₂.trans (h₃.trans (h₄.trans ?_))
  dsimp only at hu₁ hu₂ hu₃ ⊢
  rw [hu₃, hu₂, hu₁, hcharacter]
  by_cases hlt : value.length < maxValue
  · have hroom : value.length ≠ maxValue := by omega
    have hfits : (value ++ [(((0 * 16 + a) * 16 + b) * 16 + c) * 16 + d]).length ≤ maxValue := by
      rw [List.length_append, List.length_singleton]
      omega
    rw [if_pos hlt]
    apply congrArg (scan maxValue true · data)
    simp only [inString, List.take_of_length_le hlt.le, List.take_of_length_le hfits, hfits, if_true]
    simp [full, addToValueBuffer, hroom]
  · have hfull : (value.take maxValue).length = maxValue := by
      rw [List.length_take]
      omega
    rw [if_neg hlt]
    apply congrArg (scan maxValue true · data)
    simp [full, inString, hfull, foundToken]

/-- One piece more of the string. -/
theorem scan_piece (t : Tokens) (value : Text) (piece : Piece) (data : Text)
    (hpiece : piece.isUnicode = true → value.length < maxValue) :
    (t.inString maxValue value).scan maxValue true (piece.text ++ data) =
      (t.inString maxValue (value ++ [piece.character])).scan maxValue true data := by
  cases piece with
  | plain c hquote hbackslash =>
      have hadd := addToValueBuffer_inString maxValue t value c (inString_state maxValue t value)
      show (t.inString maxValue value).scan maxValue true (c :: data) = _
      rw [scan_inString, stringCharacter, if_neg hbackslash, if_neg hquote]
      exact congrArg (scan maxValue true · data) hadd
  | escape c hunicode =>
      have hadd := addToValueBuffer_inString maxValue t value (escaped c) (.inl rfl)
      show (t.inString maxValue value).scan maxValue true (backslash :: c :: data) = _
      rw [scan_backslash]
      apply scan_taken _ _ (by simp)
      rw [feedTurn]
      dsimp only
      rw [processEscapedData_eq maxValue _ hunicode]
      exact congrArg (fun t => some (t, [])) hadd
  | unicode first second third fourth =>
      rw [scan_unicode, if_pos (hpiece rfl)]

/-- The pieces of which no unicode escape comes after the buffer is full. -/
def Timely (value : Text) (pieces : List Piece) : Prop :=
  ∀ i piece, pieces[i]? = some piece → piece.isUnicode = true → value.length + i < maxValue

theorem timely_cons {piece : Piece} : Timely maxValue value (piece :: pieces) ↔
      (piece.isUnicode = true → value.length < maxValue) ∧
        Timely maxValue (value ++ [piece.character]) pieces := by
  constructor
  · intro h
    refine ⟨fun hu => h 0 piece rfl hu, fun i other hother hu => ?_⟩
    have := h (i + 1) other hother hu
    rw [List.length_append, List.length_singleton]
    omega
  · rintro ⟨hfirst, hrest⟩ i other hother hu
    cases i with
    | zero =>
        obtain rfl : piece = other := Option.some.inj hother
        exact hfirst hu
    | succ i =>
        have := hrest i other hother hu
        rw [List.length_append, List.length_singleton] at this
        omega

/-- **The text of a string is read**, up to the closing quote. -/
theorem scan_textOf (t : Tokens) (h : Timely maxValue value pieces) (data : Text) :
    (t.inString maxValue value).scan maxValue true (Piece.textOf pieces ++ quote :: data) =
      some ((t.inString maxValue (value ++ Piece.decoded pieces)).foundToken
        (if (value ++ Piece.decoded pieces).length ≤ maxValue then .string else .stringOverflow), data) := by
  induction pieces generalizing value with
  | nil =>
      rw [Piece.decoded, List.map_nil, List.append_nil]
      show (t.inString maxValue value).scan maxValue true (quote :: data) = _
      rw [scan_inString, stringCharacter, if_neg (by decide), if_pos rfl, scan_done _ _ rfl]
      by_cases hle : value.length ≤ maxValue <;> simp [inString, hle]
  | cons piece pieces ih =>
      obtain ⟨hfirst, hrest⟩ := (timely_cons maxValue).mp h
      have htext : Piece.textOf (piece :: pieces) ++ quote :: data =
          piece.text ++ (Piece.textOf pieces ++ quote :: data) := by
        rw [← List.append_assoc]
        rfl
      have hdecoded : value ++ Piece.decoded (piece :: pieces) =
          value ++ [piece.character] ++ Piece.decoded pieces := by
        rw [List.append_assoc]
        rfl
      rw [htext, scan_piece maxValue t value piece _ hfirst, ih hrest, hdecoded]

/-- **A unicode escape after the buffer is full is an error**, in the middle of the string. -/
theorem scan_textOf_error (t : Tokens) (h : ¬ Timely maxValue value pieces) (data : Text) :
    ∃ u rest, (t.inString maxValue value).scan maxValue true (Piece.textOf pieces ++ data) =
      some (u, rest) ∧ u.tokenState = .done ∧ u.token = .error := by
  induction pieces generalizing value with
  | nil => exact absurd (fun i piece hpiece => by simp at hpiece) h
  | cons piece pieces ih =>
      have htext : Piece.textOf (piece :: pieces) ++ data = piece.text ++ (Piece.textOf pieces ++ data) := by
        rw [← List.append_assoc]
        rfl
      rw [htext]
      by_cases hfirst : piece.isUnicode = true → value.length < maxValue
      · rw [scan_piece maxValue t value piece _ hfirst]
        exact ih (fun hrest => h ((timely_cons maxValue).mpr ⟨hfirst, hrest⟩))
      · cases piece with
        | plain | escape => exact absurd (by rintro ⟨⟩) hfirst
        | unicode first second third fourth =>
            rw [scan_unicode, if_neg (fun hlt => hfirst (fun _ => hlt)), scan_done _ _ rfl]
            exact ⟨_, _, rfl, rfl, rfl⟩

/-- Nothing is left of the tokens before: the digits of a unicode escape are kept inside one only, and
the buffer is empty between tokens and after a token that starts a nested value. -/
structure Clean (t : Tokens) : Prop where
  unicode : t.tokenState ≠ .unicodeValueOpen → t.unicodeIndex = 0 ∧ t.unicode = 0
  value : t.tokenState = .open ∨ (t.tokenState = .done ∧ (t.token = .leftBrace ∨ t.token = .leftBracket)) →
    t.valueBuffer = []

theorem Clean.ite {c : Prop} [Decidable c] (ht : t.Clean) (hu : u.Clean) :
    (if c then t else u).Clean := by
  split
  · exact ht
  · exact hu

/-- The character that starts a token, of whichever kind. -/
theorem Clean.startToken (ht : t.Clean) (hopen : t.tokenState = .open)
    (h : t.startToken maxValue c = some u) : u.Clean := by
  have hunicode := ht.unicode (by simp [hopen])
  have hfound (token : Token) (u : Tokens) (hu : some (t.foundToken token) = some u) : u.Clean := by
    cases hu
    exact ⟨fun _ => hunicode, fun _ => ht.value (.inl hopen)⟩
  have hstarted {v : Tokens} (hstate : v.tokenState ≠ .open ∧ v.tokenState ≠ .done)
      (hv : v.unicodeIndex = 0 ∧ v.unicode = 0) (u : Tokens) (hu : some v = some u) : u.Clean := by
    cases hu
    exact ⟨fun _ => hv, by simp [hstate]⟩
  have hite {c : Prop} [Decidable c] {x y : Option Tokens} (hx : ∀ u, x = some u → u.Clean)
      (hy : ∀ u, y = some u → u.Clean) : ∀ u, (if c then x else y) = some u → u.Clean := by
    split
    · exact hx
    · exact hy
  suffices hall : ∀ u, t.startToken maxValue c = some u → u.Clean from hall u h
  unfold Tokens.startToken
  refine hite (hfound _) ?_
  refine hite (hfound _) ?_
  refine hite (hfound _) ?_
  refine hite (hfound _) ?_
  refine hite (hfound _) ?_
  refine hite (hfound _) ?_
  -- strings, numbers and identifiers go on
  refine hite (hstarted ⟨TokenState.noConfusion, TokenState.noConfusion⟩ ?_) ?_
  · exact hunicode
  refine hite (hstarted ⟨TokenState.noConfusion, TokenState.noConfusion⟩ ?_) ?_
  · exact hunicode
  refine hite (hite ?_ (hstarted ⟨TokenState.noConfusion, TokenState.noConfusion⟩ ?_)) ?_
  · intro u hu
    cases hu
  · exact hunicode
  refine hite (hstarted ⟨TokenState.noConfusion, TokenState.noConfusion⟩ ?_) (hfound _)
  exact hunicode

theorem Clean.addToValueBuffer {inString : Bool}
    (hunicode : t.unicodeIndex = 0 ∧ t.unicode = 0) (hopen : t.tokenState ≠ .open)
    (hdone : t.tokenState ≠ .done) : (t.addToValueBuffer maxValue c saveValue inString).Clean := by
  unfold Tokens.addToValueBuffer
  split_ifs <;> constructor <;> simp [foundToken, hunicode, hopen, hdone]

theorem Clean.stringCharacter
    (hunicode : t.unicodeIndex = 0 ∧ t.unicode = 0) (hopen : t.tokenState ≠ .open)
    (hdone : t.tokenState ≠ .done) : (t.stringCharacter maxValue saveValue c).Clean := by
  unfold Tokens.stringCharacter
  split_ifs
  · constructor <;> simp [hunicode]
  · constructor <;> simp [foundToken, hunicode]
  · constructor <;> simp [foundToken, hunicode]
  · exact Clean.addToValueBuffer maxValue hunicode hopen hdone

theorem Clean.processEscapedData
    (hunicode : t.unicodeIndex = 0 ∧ t.unicode = 0) (hopen : t.tokenState ≠ .open)
    (hdone : t.tokenState ≠ .done) : (t.processEscapedData maxValue c saveValue).Clean := by
  have hadd (d : UInt8) : (t.addToValueBuffer maxValue d saveValue true).Clean :=
    Clean.addToValueBuffer maxValue hunicode hopen hdone
  have hopened : Clean { t with tokenState := .unicodeValueOpen } :=
    ⟨fun h => absurd rfl h, by rintro (⟨⟨⟩⟩ | ⟨⟨⟩, -⟩)⟩
  unfold Tokens.processEscapedData
  exact .ite (hadd _) (.ite (hadd _) (.ite (hadd _) (.ite (hadd _) (.ite (hadd _) (.ite (hadd _)
    (.ite (hadd _) (.ite hopened (hadd _))))))))

theorem Clean.unicodeDigit
    (hstate : t.tokenState = .unicodeValueOpen) : (t.unicodeDigit maxValue saveValue c).Clean := by
  -- the digit: it is counted, or it ends the token
  have hdigit : ∀ u : Tokens, (u.tokenState = .unicodeValueOpen ∨ (u.tokenState = .done ∧
      u.token = .error ∧ u.unicodeIndex = 0 ∧ u.unicode = 0)) →
      Clean (if u.unicodeIndex = 4 then
        { (if full maxValue { u with tokenState := .stringOpen } then
            foundToken { u with tokenState := .stringOpen } .error
          else Tokens.addToValueBuffer maxValue { u with tokenState := .stringOpen } u.unicode.toUInt8
            saveValue true) with unicodeIndex := 0, unicode := 0 }
      else u) := by
    intro u hu
    split
    · refine ⟨fun _ => ⟨rfl, rfl⟩, fun hvalue => ?_⟩
      unfold Tokens.addToValueBuffer at hvalue
      split_ifs at hvalue <;> simp [foundToken] at hvalue
    · rcases hu with hu | ⟨hdone, herror, hunicode⟩
      · exact ⟨fun h => absurd hu h, by simp [hu]⟩
      · exact ⟨fun _ => hunicode, by simp [hdone, herror]⟩
  unfold Tokens.unicodeDigit
  apply hdigit
  repeat' split
  · exact .inl hstate
  · exact .inl hstate
  · exact .inl hstate
  · exact .inr ⟨rfl, rfl, rfl, rfl⟩

/-- A turn of `FeedToken` leaves nothing behind. -/
theorem Clean.feedTurn {rest : Text} (ht : t.Clean)
    (h : t.feedTurn maxValue saveValue c [] = some (u, rest)) : u.Clean := by
  -- a token that goes on, and a token that the character ends
  have hkeep {u : Tokens} (hstate : u.tokenState ≠ .open ∧ u.tokenState ≠ .done)
      (hunicode : u.unicodeIndex = 0 ∧ u.unicode = 0) : u.Clean :=
    ⟨fun _ => hunicode, by simp [hstate]⟩
  have hfound {token : Token} (hstate : t.tokenState ≠ .unicodeValueOpen)
      (htoken : token ≠ .leftBrace ∧ token ≠ .leftBracket) : (t.foundToken token).Clean :=
    ⟨fun _ => ht.unicode hstate, by simp [foundToken, htoken]⟩
  unfold Tokens.feedTurn at h
  cases hstate : t.tokenState with
  | «open» =>
      simp only [hstate] at h
      split at h
      · cases h
        exact ht
      · obtain ⟨v, hv, hu⟩ := Option.map_eq_some_iff.mp h
        cases hu
        exact ht.startToken maxValue hstate hv
  | done => simp [hstate] at h
  | stringOpen | stringOverflowOpen =>
      simp only [hstate] at h
      cases h
      exact Clean.stringCharacter maxValue (ht.unicode (by simp [hstate])) (by simp [hstate])
        (by simp [hstate])
  | stringOpenAndEscaped =>
      simp only [hstate] at h
      cases h
      exact Clean.processEscapedData maxValue (ht.unicode (by simp [hstate])) (by simp) (by simp)
  | unicodeValueOpen =>
      simp only [hstate] at h
      cases h
      exact Clean.unicodeDigit maxValue hstate
  | numberOpen | numberFractionalOpen | numberExponentOpen =>
      have hunicode := ht.unicode (by simp [hstate])
      simp only [hstate] at h
      split_ifs at h
      all_goals
        cases h
        first
          | exact hfound (by simp [hstate]) (by simp)
          | exact hkeep (by simp [hstate]) hunicode
  | identifierOpen =>
      have hunicode := ht.unicode (by simp [hstate])
      simp only [hstate] at h
      split at h
      · cases h
        exact Clean.addToValueBuffer maxValue hunicode (by simp [hstate]) (by simp [hstate])
      · cases h
        refine hfound (by simp [hstate]) ?_
        unfold identifier
        split_ifs <;> simp

end Tokens

/-! ## Between tokens -/

section

variable {ν : Type} (respond : List (Callback ν) → Response ν)

namespace Parser

/-- Nothing is left of tokens in any parser of the stack. -/
def AllClean (p : Parser ν) : Prop := ∀ t ∈ p.subObjects.map (·.tokens), t.Clean

variable {q : Parser ν} {tokens : Tokens} {p : Parser ν}

theorem allClean_of_map_eq
    (h : q.subObjects.map (·.tokens) = p.subObjects.map (·.tokens)) (hp : p.AllClean) : q.AllClean := by
  unfold AllClean
  rw [h]
  exact hp

theorem allClean_setBack (sub : SubParser ν) (hsub : sub.tokens.Clean)
    (hlower : ∀ t ∈ p.lower, t.Clean) : (p.setBack sub).AllClean := by
  intro t ht
  rcases List.mem_cons.mp ht with rfl | ht
  · exact hsub
  · exact hlower t ht

theorem AllClean.lower (h : p.AllClean) : ∀ t ∈ p.lower, t.Clean := by
  intro t ht
  apply h
  rw [Parser.lower, List.map_tail] at ht
  exact List.mem_of_mem_tail ht

theorem AllClean.nextToken (h : p.AllClean)
    (htop : ∀ sub ∈ p.subObjects.head?, sub.tokens.tokenState = .done) : p.nextToken.AllClean := by
  unfold Parser.nextToken
  split
  · exact h
  case h_2 sub outer hp =>
      have hclean : sub.tokens.Clean := h _ (by simp [hp])
      have hstate : sub.tokens.tokenState = .done := htop sub (by simp [hp])
      intro t ht
      rcases List.mem_cons.mp ht with rfl | ht
      · exact ⟨fun _ => hclean.unicode (by simp [hstate]), fun _ => rfl⟩
      · apply h
        rw [hp]
        exact List.mem_cons_of_mem _ ht

/-- What a token may lead to: nothing is left of it, or `Feed` goes on and the token is cleared. -/
def Cleans (r : Handled ν) : Prop :=
  r.1.AllClean ∧ (r.2 = false → ∀ sub ∈ r.1.subObjects.head?, sub.tokens.tokenState = .done)

section

variable {p : Parser ν} {sub : SubParser ν} (hsub : sub.tokens.Clean)
  (hdone : sub.tokens.tokenState = .done) (hlower : ∀ t ∈ p.lower, t.Clean)
include hsub hdone hlower

/-- The parsers keep their tokens. -/
theorem cleans_of_map_eq {r : Handled ν}
    (h : r.1.subObjects.map (·.tokens) = sub.tokens :: p.lower) : Cleans r := by
  constructor
  · intro t ht
    rw [h] at ht
    rcases List.mem_cons.mp ht with rfl | ht
    · exact hsub
    · exact hlower t ht
  · rintro - s hs
    have hhead := congrArg List.head? h
    rw [List.head?_map, hs] at hhead
    obtain heq : s.tokens = sub.tokens := Option.some.inj hhead
    rw [heq, hdone]

theorem cleans_skip (left right : Token) : Cleans (p.skip sub left right) := by
  unfold skip become
  refine ite_cases (fun _ => ite_cases (fun _ => ?_) ?_) (ite_cases (fun _ => ?_) ?_)
  all_goals exact cleans_of_map_eq hsub hdone hlower rfl

theorem cleans_visit (event : Event) (clearTag : Bool) :
    Cleans (p.visit respond sub event clearTag) :=
  cleans_of_map_eq hsub hdone hlower (map_tokens_call respond _ _ _)

omit hsub hdone in
theorem cleans_close : Cleans (p.close respond sub) := by
  refine ⟨fun t ht => hlower t ?_, fun h => by cases h⟩
  rw [← lower_call respond p sub.visitor .close]
  exact ht

omit hsub hdone hlower in
theorem allClean_enterNested (h : p.AllClean) (nested : Option ν) (skip : State) :
    (p.enterNested nested skip).AllClean := by
  unfold enterNested
  split
  case h_1 child parent outer visitor hp =>
      refine allClean_of_map_eq ?_ h
      rw [hp]
      simp [clearTag_tokens]
  case h_2 child parent outer hp =>
      intro t ht
      apply h
      rw [hp]
      simp only [List.map_cons, clearTag_tokens] at ht ⊢
      exact List.mem_cons_of_mem _ ht
  case h_3 => exact h

theorem cleans_nest (htoken : sub.tokens.token = .leftBrace ∨ sub.tokens.token = .leftBracket)
    (kind : Kind) (event : Event) (skip : State) : Cleans (p.nest respond sub kind event skip) := by
  have hvalue := hsub.value (.inr ⟨hdone, htoken⟩)
  have hunicode := hsub.unicode (by simp [hdone])
  have hopen : Tokens.Clean { sub.tokens with tokenState := .open } := ⟨fun _ => hunicode, fun _ => hvalue⟩
  refine ⟨?_, ?_⟩
  · unfold nest
    dsimp only
    split
    · apply allClean_setBack _ _ hlower
      rw [clearTag_tokens]
      exact hopen
    · apply allClean_enterNested
      refine allClean_of_map_eq (map_tokens_call respond _ _ _) ?_
      intro t ht
      rcases List.mem_cons.mp ht with rfl | ht
      · exact ⟨fun _ => ⟨rfl, rfl⟩, fun _ => hvalue⟩
      · exact allClean_setBack { sub with
          state := .closed, tokens := { sub.tokens with tokenState := .open } } hopen hlower t ht
  · unfold nest
    dsimp only
    split <;> exact fun h => by cases h

/-- **Nothing is left of a token that was dealt with.** -/
theorem cleans_handleToken : Cleans (p.handleToken respond sub) := by
  apply handleToken_cases
  case become =>
      intro s state hs
      apply cleans_of_map_eq hsub hdone hlower
      rw [← hs]
      rfl
  case visit => exact cleans_visit respond hsub hdone hlower
  case nest => exact cleans_nest respond hsub hdone hlower
  case close => exact fun q hq => cleans_close respond (hq ▸ hlower)
  case skip => exact cleans_skip hsub hdone hlower

end

omit respond in
theorem bind_eq_ok {α β : Type} {x : Result ν α} {f : α → Result ν β} {b : β} (h : (x >>= f) = .ok b) :
    ∃ a, x = .ok a ∧ f a = .ok b := by
  cases x with
  | error e => cases h
  | ok a => exact ⟨a, rfl, h⟩

theorem AllClean.settle (h : p.AllClean) (hq : p.settle respond = .ok q) : q.AllClean := by
  obtain rfl | hq := settle_subObjects respond hq
  · exact h
  · intro t ht
    rw [hq] at ht
    cases ht

theorem allClean_finish {sub : SubParser ν} (h : tokens.Clean)
    (hlower : ∀ t ∈ p.lower, t.Clean) (hq : p.finish respond sub tokens = .ok q) : q.AllClean := by
  unfold finish at hq
  dsimp only at hq
  split at hq
  · cases hq
    exact allClean_setBack { sub with tokens := tokens } h hlower
  case isFalse hstate =>
      have hdone : tokens.tokenState = .done := not_not.mp hstate
      obtain ⟨hclean, htop⟩ := @cleans_handleToken ν respond (p.setBack { sub with tokens := tokens })
        { sub with tokens := tokens } h hdone hlower
      split at hq
      · cases hq
        exact hclean
      case isFalse hreturned =>
          have hnext := hclean.nextToken (htop (Bool.eq_false_iff.mpr hreturned))
          exact hnext.settle respond hq

theorem AllClean.turn {p : Parser ν} {c : UInt8} {r : Parser ν × Bool} (h : p.AllClean)
    (hr : p.turn respond c = .ok r) : r.1.AllClean := by
  unfold Parser.turn at hr
  split at hr
  · cases hr
    exact h
  case h_2 sub outer hp =>
      have hsub : sub.tokens.Clean := h _ (by simp [hp])
      split at hr
      · obtain ⟨q, hq, hr⟩ := bind_eq_ok hr
        cases hr
        exact h.settle respond hq
      · split at hr
        · cases hr
        case h_2 tokens rest hscan =>
            obtain ⟨q, hq, hr⟩ := bind_eq_ok hr
            cases hr
            refine allClean_finish respond ?_ h.lower hq
            have hnd : sub.tokens.tokenState ≠ .done ∨ sub.tokens.tokenState = .done := ne_or_eq _ _
            rcases hnd with hnd | hdone
            · rw [Tokens.scan, if_neg hnd] at hscan
              cases hturn : sub.tokens.feedTurn p.maxValue sub.saveValue c [] with
              | none =>
                  rw [hturn] at hscan
                  cases hscan
              | some r =>
                  have hclean := hsub.feedTurn _ hturn
                  obtain ⟨u, left⟩ := r
                  rw [hturn] at hscan
                  cases left <;> cases hscan <;> exact hclean
            · rw [Tokens.scan_done _ _ hdone] at hscan
              cases hscan
              exact hsub

theorem AllClean.foldlM {data : Text} (h : p.AllClean)
    (hq : data.foldlM (feedCharacter respond) p = .ok q) : q.AllClean := by
  induction data generalizing p with
  | nil =>
      cases hq
      exact h
  | cons c data ih =>
      rw [List.foldlM_cons] at hq
      obtain ⟨p', hp', hq⟩ := bind_eq_ok hq
      refine ih ?_ hq
      unfold feedCharacter at hp'
      obtain ⟨⟨p₁, taken⟩, hr, hp'⟩ := bind_eq_ok hp'
      have hfirst := h.turn respond hr
      cases taken with
      | true =>
          cases hp'
          exact hfirst
      | false =>
          obtain ⟨r', hr', hp'⟩ := bind_eq_ok hp'
          cases hp'
          exact hfirst.turn respond hr'

/-- The parser after some text, for limits and a visitor for the whole document. -/
def Reached (p : Parser ν) : Prop :=
  ∃ maxTag maxValue maxNesting visitor before p₀,
    create maxTag maxValue maxNesting visitor = .ok p₀ ∧ p₀.feed respond before = .ok p

/-- **Nothing is left of the tokens before**, whatever the parser was fed. -/
theorem Reached.clean (h : Reached respond p) : p.Ready ∧ p.AllClean := by
  obtain ⟨maxTag, maxValue, maxNesting, visitor, before, p₀, hcreate, hfeed⟩ := h
  have hstart : p₀.Ready ∧ p₀.AllClean := by
    unfold create at hcreate
    split at hcreate
    · cases hcreate
    · cases hcreate
      refine ⟨ready_of_allOpen rfl, fun t ht => ?_⟩
      rw [List.mem_singleton.mp ht]
      exact ⟨fun _ => ⟨rfl, rfl⟩, fun _ => rfl⟩
  obtain ⟨heq, hready⟩ := feed_eq_foldlM respond hstart.1 before
  exact ⟨hready p hfeed, hstart.2.foldlM respond (heq.symm.trans hfeed)⟩

/-! ## What is told of a string -/

/-- The next value of the document is one of the parser on top, and it has not begun. -/
structure Expects (p : Parser ν) (sub : SubParser ν) : Prop where
  top : p.subObjects.head? = some sub
  between : sub.tokens.tokenState = .open
  state : (sub.kind = .object ∧ sub.state = .valueExpected) ∨
    (sub.kind = .array ∧ (sub.state = .initialOpen ∨ sub.state = .open))

/-- The parser after the visitor was told of a value: the value is over, and an error that the visitor
raises is reported. The token that the value was found as stays in its member, and is not used again. -/
def told (p : Parser ν) (sub : SubParser ν) (token : Token) (event : Event) : Result ν (Parser ν) :=
  (nextToken (p.visit respond { sub with tokens := { sub.tokens with token := token } } event
    (sub.kind = .object)).1).settle respond

/-- A string is reported: the visitor is told of it once, of the characters when they fit the value
buffer and of an overflow when they do not, and the parser goes on with the data after the string. -/
def Reports (p : Parser ν) (sub : SubParser ν) (pieces : List Piece) : Prop :=
  ∀ data, p.feed respond (quote :: (Piece.textOf pieces ++ quote :: data)) =
    (if (Piece.decoded pieces).length ≤ p.maxValue then
      p.told respond sub .string (.visitString sub.tag (Piece.decoded pieces))
    else p.told respond sub .stringOverflow .stringOverflow) >>= fun q => q.feed respond data

omit respond in
/-- The calls of `SemanticError` on the parser on top, and on those below. -/
theorem raise_cons (outer : List (SubParser ν)) (positions : List Nat) :
    ∃ (raised : Bool) (outer' : List (SubParser ν)), ∀ sub, raise (sub :: outer) positions =
      (if raised then sub.semanticError else sub) :: outer' := by
  induction positions generalizing outer with
  | nil => exact ⟨false, outer, fun _ => rfl⟩
  | cons i positions ih =>
      by_cases hi : i < outer.length + 1
      · cases hindex : outer.length + 1 - 1 - i with
        | zero =>
            obtain ⟨raised, outer', h⟩ := ih outer
            refine ⟨true, outer', fun sub => ?_⟩
            rw [raise, List.foldl_cons, List.length_cons, if_pos hi, hindex]
            refine (h sub.semanticError).trans ?_
            cases raised <;> rfl
        | succ j =>
            obtain ⟨raised, outer', h⟩ := ih (outer.modify j SubParser.semanticError)
            refine ⟨raised, outer', fun sub => ?_⟩
            rw [raise, List.foldl_cons, List.length_cons, if_pos hi, hindex]
            exact h sub
      · obtain ⟨raised, outer', h⟩ := ih outer
        refine ⟨raised, outer', fun sub => ?_⟩
        rw [raise, List.foldl_cons, List.length_cons, if_neg hi]
        exact h sub

/-- The buffer and the state of the token do not matter once the value is over. -/
theorem nextToken_visit (p : Parser ν) (sub : SubParser ν) (state : TokenState) (value : Text)
    (event : Event) (clearTag : Bool) :
    nextToken (p.visit respond
        { sub with tokens := { sub.tokens with tokenState := state, valueBuffer := value } } event clearTag).1 =
      nextToken (p.visit respond sub event clearTag).1 := by
  unfold visit call nextToken setBack
  dsimp only
  obtain ⟨raised, outer', h⟩ := raise_cons p.subObjects.tail
    (respond ({ visitor := sub.visitor, event := event } :: p.history)).semanticErrors
  rw [h, h]
  cases raised <;> rfl

section

variable {p : Parser ν} {sub : SubParser ν} (h : Expects p sub) (hready : p.Ready) (hclean : p.AllClean)
include h hready hclean

/-- The text is read by the parser on top, which then deals with what it has found. -/
theorem foldlM_string (data : Text) :
    (quote :: data).foldlM (feedCharacter respond) p =
      p.resume respond sub ((sub.tokens.inString p.maxValue []).scan p.maxValue true data) := by
  obtain ⟨outer, hp⟩ : ∃ outer, p.subObjects = sub :: outer := by
    have htop := h.top
    cases hp : p.subObjects with
    | nil => simp [hp] at htop
    | cons s outer =>
        rw [hp] at htop
        exact ⟨outer, by rw [Option.some.inj htop]⟩
  have hfailed : sub.failed = false := by
    rcases h.state with ⟨-, hs⟩ | ⟨-, hs | hs⟩ <;> simp [SubParser.failed, hs]
  have hsave : sub.saveValue = true := by
    rcases h.state with ⟨-, hs⟩ | ⟨-, hs | hs⟩ <;> simp [SubParser.saveValue, hs]
  have hsub : sub.tokens.Clean := hclean _ (by simp [hp])
  -- the quote starts the string, with an empty buffer
  have hopened : sub.tokens.feedTurn p.maxValue true quote [] =
      some (sub.tokens.inString p.maxValue [], []) := by
    have hvalue := hsub.value (.inl h.between)
    obtain ⟨hindex, hunicode⟩ := hsub.unicode (by simp [h.between])
    have hstart : sub.tokens.startToken p.maxValue quote = some { sub.tokens with tokenState := .stringOpen } := rfl
    rw [Tokens.feedTurn, h.between]
    dsimp only
    rw [if_neg (by decide), hstart, Tokens.inString]
    simp [hvalue, hindex, hunicode]
  rw [foldlM_feedCharacter respond hp hready hfailed (List.cons_ne_nil _ _), hsave,
    Tokens.scan_taken _ _ (by simp [h.between]) hopened]

omit hready hclean in
theorem handleToken_string (q : Parser ν) (htoken : tokens.token = .string) :
    q.handleToken respond { sub with tokens := tokens } =
      q.visit respond { sub with tokens := tokens } (.visitString sub.tag tokens.valueBuffer)
        (sub.kind = .object) := by
  rcases h.state with ⟨hkind, hs⟩ | ⟨hkind, hs | hs⟩
  · simp [handleToken, handleObjectToken, hkind, hs, htoken, SubParser.tag]
  · simp [handleToken, handleArrayToken, hkind, hs, htoken, SubParser.tag]
  · simp [handleToken, handleArrayToken, hkind, hs, htoken, SubParser.tag]

omit hready hclean in
theorem handleToken_stringOverflow (q : Parser ν) (htoken : tokens.token = .stringOverflow) :
    q.handleToken respond { sub with tokens := tokens } =
      q.visit respond { sub with tokens := tokens } .stringOverflow (sub.kind = .object) := by
  rcases h.state with ⟨hkind, hs⟩ | ⟨hkind, hs | hs⟩
  · simp [handleToken, handleObjectToken, hkind, hs, htoken]
  · simp [handleToken, handleArrayToken, hkind, hs, htoken]
  · simp [handleToken, handleArrayToken, hkind, hs, htoken]

omit hready hclean in
theorem handleToken_error (q : Parser ν) (htoken : tokens.token = .error) :
    q.handleToken respond { sub with tokens := tokens } =
      q.become { sub with tokens := tokens } .parseError := by
  rcases h.state with ⟨hkind, hs⟩ | ⟨hkind, hs | hs⟩
  · simp [handleToken, handleObjectToken, hkind, hs, htoken]
  · simp [handleToken, handleArrayToken, hkind, hs, htoken]
  · simp [handleToken, handleArrayToken, hkind, hs, htoken]

omit hready in
/-- The visitor is told of the string that was found. -/
theorem finish_string {token : Token} {event : Event}
    (hhandle : ∀ q : Parser ν, q.handleToken respond
        { sub with tokens := (sub.tokens.inString p.maxValue value).foundToken token } =
      q.visit respond { sub with tokens := (sub.tokens.inString p.maxValue value).foundToken token } event
        (sub.kind = .object)) :
    p.finish respond sub ((sub.tokens.inString p.maxValue value).foundToken token) =
      p.told respond sub token event := by
  have hsub : sub.tokens.Clean := hclean _ (List.mem_map_of_mem (List.mem_of_mem_head? h.top))
  obtain ⟨hindex, hunicode⟩ := hsub.unicode (by simp [h.between])
  have htokens : (sub.tokens.inString p.maxValue value).foundToken token =
      { sub.tokens with token := token, tokenState := .done, valueBuffer := value.take p.maxValue } := by
    rw [Tokens.foundToken, Tokens.inString]
    simp [hindex, hunicode]
  have hnext := nextToken_visit respond p { sub with tokens := { sub.tokens with token := token } } .done
    (value.take p.maxValue) event (sub.kind = .object)
  unfold finish told
  dsimp only
  rw [if_neg (fun hstate => hstate rfl), hhandle, ← hnext, htokens]
  rfl

/-- **A string with no late unicode escape is reported.** -/
theorem reports_of_timely (htimely : Tokens.Timely p.maxValue [] pieces) :
    p.Reports respond sub pieces := by
  have hchars (data : Text) : (quote :: (Piece.textOf pieces ++ quote :: data)).foldlM
      (feedCharacter respond) p =
      (if (Piece.decoded pieces).length ≤ p.maxValue then
        p.told respond sub .string (.visitString sub.tag (Piece.decoded pieces))
      else p.told respond sub .stringOverflow .stringOverflow) >>=
        data.foldlM (feedCharacter respond) := by
    rw [foldlM_string respond h hready hclean, Tokens.scan_textOf _ _ htimely, List.nil_append, resume]
    split
    case isTrue hfits =>
        rw [finish_string respond h hclean (fun q => handleToken_string respond h q rfl)]
        rw [show ((sub.tokens.inString p.maxValue (Piece.decoded pieces)).foundToken .string).valueBuffer =
          Piece.decoded pieces from List.take_of_length_le hfits]
    case isFalse =>
        rw [finish_string respond h hclean (fun q => handleToken_stringOverflow respond h q rfl)]
  intro data
  obtain ⟨hfeed, -⟩ := feed_eq_foldlM respond hready (quote :: (Piece.textOf pieces ++ quote :: data))
  obtain ⟨hfirst, hkeep⟩ := feed_eq_foldlM respond hready (quote :: (Piece.textOf pieces ++ quote :: []))
  have hend := hchars []
  rw [hfeed, hchars data]
  generalize (if (Piece.decoded pieces).length ≤ p.maxValue then
      p.told respond sub .string (.visitString sub.tag (Piece.decoded pieces))
    else p.told respond sub .stringOverflow .stringOverflow) = after at hend ⊢
  cases after with
  | error e => rfl
  | ok q => exact (feed_eq_foldlM respond (hkeep q (hfirst.trans hend)) data).1.symm

end

omit respond in
/-- The callbacks that were made stay in the history. -/
theorem history_callAll (respond : List (Callback ν) → Response ν) (p : Parser ν)
    (subs : List (SubParser ν)) (event : Event) : p.history <:+ (p.callAll respond subs event).history := by
  induction subs generalizing p with
  | nil => exact List.suffix_rfl
  | cons sub subs ih => exact (List.suffix_cons _ _).trans (ih (p.call respond sub.visitor event).1)

theorem history_settle (p : Parser ν) : p.history <:+ historyOf (p.settle respond) := by
  unfold settle exitFeed
  split
  · unfold reportParseError
    dsimp only
    split <;> exact history_callAll respond p _ _
  · exact history_callAll respond p _ _
  · exact List.suffix_rfl

theorem history_nextToken (p : Parser ν) : p.nextToken.history = p.history := by
  unfold nextToken
  split <;> rfl

theorem history_told (p : Parser ν) (sub : SubParser ν) (token : Token) (event : Event) :
    { visitor := sub.visitor, event := event } :: p.history <:+ historyOf (p.told respond sub token event) := by
  have hsettle := history_settle respond (nextToken (p.visit respond
    { sub with tokens := { sub.tokens with token := token } } event (sub.kind = .object)).1)
  rw [history_nextToken] at hsettle
  exact hsettle

/-- The visitor of the parser on top is the first to be told of a parse error, and the parser stops. -/
theorem settle_parseError {sub : SubParser ν} {outer : List (SubParser ν)}
    (hp : p.subObjects = sub :: outer) (hstate : sub.state = .parseError) :
    { visitor := sub.visitor, event := .parseError } :: p.history <:+ historyOf (p.settle respond) ∧
      ∀ q, p.settle respond = .ok q → q.subObjects = [] := by
  have hsettle : p.settle respond = p.reportParseError respond := by
    unfold settle exitFeed
    rw [hp]
    obtain ⟨kind, visitor, state, tagBuffer, skipSubObjects, tokens⟩ := sub
    obtain rfl : state = .parseError := hstate
    dsimp only
    cases p.reportParseError respond <;> rfl
  rw [hsettle]
  refine ⟨?_, fun q hq => reportParseError_subObjects respond hq⟩
  have hcalls := history_callAll respond (p.call respond sub.visitor .parseError).1 outer .parseError
  unfold reportParseError
  rw [hp]
  dsimp only
  split <;> exact hcalls

section

variable {p : Parser ν} {sub : SubParser ν} (h : Expects p sub) (hready : p.Ready) (hclean : p.AllClean)
include h hready hclean

/-- **A late unicode escape is a parse error**, of which the visitor is told instead. -/
theorem history_of_not_timely (hlate : ¬ Tokens.Timely p.maxValue [] pieces) (data : Text) :
    { visitor := sub.visitor, event := .parseError } :: p.history <:+
      historyOf (p.feed respond (quote :: (Piece.textOf pieces ++ data))) := by
  obtain ⟨tokens, rest, hscan, hdone, herror⟩ := Tokens.scan_textOf_error _ sub.tokens hlate data
  rw [(feed_eq_foldlM respond hready _).1, foldlM_string respond h hready hclean, hscan, resume, finish]
  dsimp only
  rw [if_neg (fun hstate => hstate hdone), handleToken_error respond h _ herror]
  obtain ⟨hhistory, hstopped⟩ := settle_parseError respond
    (p := nextToken ((p.setBack { sub with tokens := tokens }).become { sub with tokens := tokens }
      .parseError).1) rfl rfl
  rw [history_nextToken] at hhistory
  generalize hsettled : Parser.settle respond (nextToken ((p.setBack { sub with tokens := tokens }).become
    { sub with tokens := tokens } .parseError).1) = settled at hhistory hstopped
  have hdata : historyOf (settled >>= rest.foldlM (feedCharacter respond)) = historyOf settled := by
    cases settled with
    | error e => rfl
    | ok q => exact congrArg historyOf (foldlM_of_nil respond (hstopped q rfl) rest)
  refine hhistory.trans ?_
  rw [← hdata, ← hsettled]
  exact List.suffix_rfl

end

end Parser

/-- **Strings are reported as they should exactly when no unicode escape comes after the value buffer is
full.** -/
theorem reports_iff {p : Parser ν} {sub : SubParser ν} (hreached : Parser.Reached respond p)
    (hexpects : Parser.Expects p sub) (pieces : List Piece) :
    p.Reports respond sub pieces ↔
      ∀ i piece, pieces[i]? = some piece → piece.isUnicode = true → i < p.maxValue := by
  obtain ⟨hready, hclean⟩ := hreached.clean
  have htimely : Tokens.Timely p.maxValue [] pieces ↔
      ∀ i piece, pieces[i]? = some piece → piece.isUnicode = true → i < p.maxValue := by
    simp only [Tokens.Timely, List.length_nil, Nat.zero_add]
  rw [← htimely]
  constructor
  · intro hreports
    by_contra hlate
    have herror := Parser.history_of_not_timely respond hexpects hready hclean hlate [quote]
    have hnothing (after : Result ν (Parser ν)) : (after >>= fun q => q.feed respond []) = after := by
      cases after <;> rfl
    rw [hreports [], hnothing] at herror
    -- the callback that the string leads to is the first of two different ones
    have hfirst {token : Token} {event : Event} (hne : event ≠ .parseError) :
        ¬ { visitor := sub.visitor, event := .parseError } :: p.history <:+
          historyOf (p.told respond sub token event) := by
      intro hsuffix
      have htold := Parser.history_told respond p sub token event
      have heq := (List.suffix_of_suffix_length_le htold hsuffix (le_refl _)).eq_of_length rfl
      exact hne (congrArg Callback.event (List.cons.inj heq).1)
    split at herror
    · exact hfirst Event.noConfusion herror
    · exact hfirst Event.noConfusion herror
  · exact Parser.reports_of_timely respond hexpects hready hclean

end

/-! ## A document -/

/-- A visitor that does nothing. -/
def silent : List (Callback Unit) → Response Unit := fun _ => ⟨none, []⟩

/-- The start of an object, up to a value. -/
def beforeValue : Text := [0x7b, quote, byte 'a', quote, byte ':']

/-- The parser of the object that is to read the value. -/
def atValue : SubParser Unit where
  kind := .object
  visitor := ()
  state := .valueExpected
  tagBuffer := [byte 'a']
  tokens := { token := .colon }

/-- A parser with room for two characters. -/
def roomForTwo : Parser Unit where
  maxTag := 4
  maxValue := 2
  maxNesting := 1
  subObjects := [atValue]
  history := []

theorem reached_roomForTwo : Parser.Reached silent roomForTwo :=
  ⟨4, 2, 1, (), beforeValue, _, rfl, rfl⟩

theorem expects_roomForTwo : Parser.Expects roomForTwo atValue :=
  ⟨rfl, rfl, .inl ⟨rfl, rfl⟩⟩

/-- A unicode escape, two letters and a line feed: an overflow. -/
theorem reports_iff_overflow :
    Parser.Reports silent roomForTwo atValue
      [.unicode ⟨byte '0', by decide⟩ ⟨byte '0', by decide⟩ ⟨byte '4', by decide⟩ ⟨byte '1', by decide⟩,
        .plain (byte 'b') (by decide) (by decide), .plain (byte 'c') (by decide) (by decide),
        .escape (byte 'n') (by decide)] := by
  refine (reports_iff silent reached_roomForTwo expects_roomForTwo _).mpr ?_
  intro i piece hpiece hunicode
  rcases i with _ | _ | _ | _ | i
  · decide
  · cases hpiece
    cases hunicode
  · cases hpiece
    cases hunicode
  · cases hpiece
    cases hunicode
  · simp at hpiece

/-- **A unicode escape as the third character**: a parse error instead of an overflow. -/
theorem not_reports_unicode :
    callbacks silent 4 2 1 () [beforeValue ++ [quote, byte 'b', byte 'c', backslash, byte 'u', byte '0',
        byte '0', byte '4', byte '1', quote, 0x7d]] = [⟨(), .parseError⟩] ∧
      ¬ Parser.Reports silent roomForTwo atValue
        [.plain (byte 'b') (by decide) (by decide), .plain (byte 'c') (by decide) (by decide),
          .unicode ⟨byte '0', by decide⟩ ⟨byte '0', by decide⟩ ⟨byte '4', by decide⟩
            ⟨byte '1', by decide⟩] := by
  refine ⟨by decide, fun h => ?_⟩
  have hhistory := congrArg historyOf (h [])
  revert hhistory
  decide

end EmbeddedInfra.JsonStreaming
