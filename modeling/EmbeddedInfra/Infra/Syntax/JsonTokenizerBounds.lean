import EmbeddedInfra.Lib.Iteration
import EmbeddedInfra.Infra.Syntax.Json

set_option autoImplicit false

/-! # The JSON tokenizer stays inside its string

Every scanner of `infra::JsonTokenizer` moves `parseIndex` and looks at characters with a test for the
end of the string of its own. Here they are written with that index, and an access outside the string
is `none`; they compute the tokens of `JsonTokenizer.token`. A tokenizer stays inside its string except
at an opening quote that is the last character, and then objects and arrays are iterated to their end.
-/

namespace EmbeddedInfra.Json.JsonTokenizer

open JsonIterator

/-! ## The scanners -/

/-- `objectString.size()` -/
def size (t : JsonTokenizer) : Nat := t.objectString.length

/-- `objectString[parseIndex]` -/
def charAt (t : JsonTokenizer) : Option UInt8 := t.objectString[t.parseIndex]?

@[simp] theorem skip_zero (t : JsonTokenizer) : t.skip 0 = t := rfl

namespace Reading

/-- `while (parseIndex != objectString.size() && p(objectString[parseIndex])) ++parseIndex`; the number
bounds the turns. -/
def advanceWhile (p : UInt8 → Bool) : Nat → JsonTokenizer → Option JsonTokenizer
  | 0, _ => none
  | turns + 1, t =>
      if t.parseIndex = t.size then some t
      else do
        let c ← t.charAt
        if p c then advanceWhile p turns (t.skip 1) else return t

/-- Every turn of a loop of the tokenizer takes a character. -/
def turns (t : JsonTokenizer) : Nat := t.size + 1

def skipWhitespace (t : JsonTokenizer) : Option JsonTokenizer := advanceWhile isspace (turns t) t

/-- The loop of `TryCreateStringToken`: whether it ends at the closing quote. -/
def closeString : Nat → Bool → JsonTokenizer → Option (Bool × JsonTokenizer)
  | 0, _, _ => none
  | turns + 1, escape, t => do
      let inside ← if escape then some true else t.charAt.map (· != quote)
      if inside then
        let escape ← if escape then some false else t.charAt.map (· == backslash)
        let t := t.skip 1
        if t.parseIndex = t.size then return (false, t) else closeString turns escape t
      else
        return (true, t)

def tryCreateStringToken (t : JsonTokenizer) : Option (Token × JsonTokenizer) := do
  let t := t.skip 1
  let tokenStart := t.parseIndex
  let (closed, t) ← closeString (turns t) false t
  if closed then
    let t := t.skip 1
    return (Token.string ((t.objectString.drop tokenStart).take (t.parseIndex - tokenStart - 1)), t)
  else
    return (Token.error, t)

def tryCreateIntegerToken (t : JsonTokenizer) : Option (Token × JsonTokenizer) := do
  let tokenStart := t.parseIndex
  let sign ← if t.parseIndex ≠ t.size then t.charAt.map (· == byte '-') else some false
  let t := if sign then t.skip 1 else t
  let t ← advanceWhile isdigit (turns t) t
  let integer := (t.objectString.drop tokenStart).take (t.parseIndex - tokenStart)
  let value := (integer.drop (if sign then 1 else 0)).foldl
    (fun value c => value * 10 + Int32.ofNat c.toNat - Int32.ofNat 0x30) 0
  return (Token.integer (if sign then value * (-1) else value), t)

def tryCreateIdentifierToken (t : JsonTokenizer) : Option (Token × JsonTokenizer) := do
  let tokenStart := t.parseIndex
  let t ← advanceWhile isalpha (turns t) t
  let identifier := (t.objectString.drop tokenStart).take (t.parseIndex - tokenStart)
  let token :=
    if identifier = ascii "true" then Token.boolean true
    else if identifier = ascii "false" then Token.boolean false
    else Token.error
  return (token, t)

def token (t : JsonTokenizer) : Option (Token × JsonTokenizer) := do
  let t ← skipWhitespace t
  if t.parseIndex = t.size then return (Token.ended, t)
  else
    let c ← t.charAt
    if c = quote then tryCreateStringToken t
    else if c = byte ':' then return (Token.colon, t.skip 1)
    else if c = byte ',' then return (Token.comma, t.skip 1)
    else if c = byte '.' then return (Token.dot, t.skip 1)
    else if c = 0x7b then return (Token.leftBrace t.parseIndex, t.skip 1)
    else if c = 0x7d then return (Token.rightBrace t.parseIndex, t.skip 1)
    else if c = byte '[' then return (Token.leftBracket t.parseIndex, t.skip 1)
    else if c = byte ']' then return (Token.rightBracket t.parseIndex, t.skip 1)
    else if isdigit c ∨ c = byte '-' then tryCreateIntegerToken t
    else if isalpha c then tryCreateIdentifierToken t
    else return (Token.error, t)

end Reading

/-! ## The scanners, by the text that is left -/

theorem rest_eq_nil {t : JsonTokenizer} (h : t.parseIndex ≤ t.size) : t.rest = [] ↔ t.parseIndex = t.size := by
  rw [rest, List.drop_eq_nil_iff]
  exact ⟨fun hle => le_antisymm h hle, fun heq => heq.ge⟩

theorem charAt_of_rest {t : JsonTokenizer} {c : UInt8} {text : Text} (h : t.rest = c :: text) :
    t.charAt = some c := by
  have hhead := congrArg List.head? h
  rw [rest, List.head?_drop] at hhead
  exact hhead

theorem length_rest (t : JsonTokenizer) : t.rest.length = t.size - t.parseIndex := List.length_drop

@[simp] theorem size_skip (t : JsonTokenizer) (n : Nat) : (t.skip n).size = t.size := rfl

@[simp] theorem parseIndex_skip (t : JsonTokenizer) (n : Nat) :
    (t.skip n).parseIndex = t.parseIndex + n := rfl

theorem skip_skip (t : JsonTokenizer) (m n : Nat) : (t.skip m).skip n = t.skip (m + n) := by
  simp [skip, Nat.add_assoc]

namespace Reading

/-- The loop stops at the first character of another kind, or at the end. -/
theorem advanceWhile_eq (p : UInt8 → Bool) {n : Nat} {t : JsonTokenizer} (ht : t.parseIndex ≤ t.size)
    (hn : t.rest.length < n) : advanceWhile p n t = some (t.skip (t.rest.takeWhile p).length) := by
  induction n generalizing t with
  | zero => omega
  | succ n ih =>
      rw [advanceWhile]
      cases hrest : t.rest with
      | nil =>
          rw [if_pos ((rest_eq_nil ht).mp hrest)]
          rfl
      | cons c text =>
          have hne : t.parseIndex ≠ t.size := by
            intro heq
            rw [(rest_eq_nil ht).mpr heq] at hrest
            cases hrest
          have hnext : (t.skip 1).rest = text := by rw [rest_skip, hrest, List.drop_succ_cons, List.drop_zero]
          rw [if_neg hne, charAt_of_rest hrest, List.takeWhile_cons]
          simp only [Option.bind_eq_bind, Option.bind_some]
          by_cases hc : p c = true
          · rw [if_pos hc, if_pos hc, ih (by rw [parseIndex_skip, size_skip]; omega)
              (by rw [hnext]; rw [hrest, List.length_cons] at hn; omega), hnext, skip_skip,
              List.length_cons, Nat.add_comm]
          · rw [if_neg hc, if_neg hc]
            rfl

/-- The loop of `TryCreateStringToken`, once there is a character to look at. -/
theorem closeString_eq {n : Nat} {escape : Bool} {t : JsonTokenizer} (ht : t.parseIndex < t.size)
    (hn : t.rest.length ≤ n) : closeString n escape t =
      (stringSize escape t.rest).elim (some (false, t.skip t.rest.length)) (fun m => some (true, t.skip m)) := by
  induction n generalizing escape t with
  | zero =>
      rw [length_rest] at hn
      omega
  | succ n ih =>
      obtain ⟨c, text, hrest⟩ : ∃ c text, t.rest = c :: text := by
        refine List.exists_cons_of_ne_nil (fun hnil => ?_)
        have := (rest_eq_nil ht.le).mp hnil
        omega
      have hnext : (t.skip 1).rest = text := by
        rw [rest_skip, hrest, List.drop_succ_cons, List.drop_zero]
      rw [hrest, List.length_cons] at hn
      -- the turn that takes the character
      have hgo (escape : Bool) : (if (t.skip 1).parseIndex = (t.skip 1).size then some (false, t.skip 1)
          else closeString n escape (t.skip 1)) =
          ((stringSize escape text).map (· + 1)).elim (some (false, t.skip (text.length + 1)))
            (fun m => some (true, t.skip m)) := by
        by_cases hend : (t.skip 1).parseIndex = (t.skip 1).size
        · have htext : text = [] := hnext.symm.trans ((rest_eq_nil hend.le).mpr hend)
          rw [if_pos hend, htext]
          rfl
        · rw [if_neg hend]
          rw [parseIndex_skip, size_skip] at hend
          rw [ih (by rw [parseIndex_skip, size_skip]; omega) (by rw [hnext]; omega), hnext]
          cases stringSize escape text with
          | none => simp [skip_skip, Nat.add_comm]
          | some m => simp [skip_skip, Nat.add_comm]
      rw [closeString, hrest, charAt_of_rest hrest, stringSize, List.length_cons]
      cases escape with
      | true =>
          simp only [if_true, Option.bind_eq_bind, Option.bind_some, true_or]
          exact hgo false
      | false =>
          simp only [Bool.false_eq_true, if_false, Option.map_some, Option.bind_eq_bind, Option.bind_some,
            false_or, bne_iff_ne, ne_eq, Bool.not_false, Bool.true_and]
          by_cases hc : c = quote
          · simp [hc]
          · rw [if_pos hc, if_pos hc]
            exact hgo _

theorem tryCreateStringToken_eq {t : JsonTokenizer} (ht : t.parseIndex < t.size) :
    tryCreateStringToken t = t.tryCreateStringToken := by
  rw [tryCreateStringToken, JsonTokenizer.tryCreateStringToken]
  dsimp only
  have hle : (t.skip 1).parseIndex ≤ (t.skip 1).size := ht
  cases hrest : (t.skip 1).rest with
  | nil =>
      have hchar : (t.skip 1).charAt = none := by
        have hhead := congrArg List.head? hrest
        rw [rest, List.head?_drop] at hhead
        exact hhead
      rw [turns, closeString, hchar]
      rfl
  | cons c text =>
      have hlt : (t.skip 1).parseIndex < (t.skip 1).size := by
        have hlength := length_rest (t.skip 1)
        rw [hrest, List.length_cons] at hlength
        omega
      rw [closeString_eq hlt (by rw [length_rest, turns]; omega), hrest]
      cases hsize : stringSize false (c :: text) with
      | none =>
          simp only [hsize]
          rfl
      | some n =>
          have htext : t.objectString.drop (t.parseIndex + 1) = c :: text := hrest
          have hcount : t.parseIndex + 1 + n + 1 - (t.parseIndex + 1) - 1 = n := by omega
          simp only [hsize, Option.elim_some, Option.bind_eq_bind, Option.bind_some, if_true,
            objectString_skip, parseIndex_skip, htext, hcount]
          rfl

/-- What a scanner has passed. -/
theorem take_passed (p : UInt8 → Bool) (t : JsonTokenizer) :
    ((t.skip (t.rest.takeWhile p).length).objectString.drop t.parseIndex).take
      ((t.skip (t.rest.takeWhile p).length).parseIndex - t.parseIndex) = t.rest.takeWhile p := by
  rw [objectString_skip, parseIndex_skip, Nat.add_sub_cancel_left]
  exact (List.prefix_iff_eq_take.mp (List.takeWhile_prefix p)).symm

theorem tryCreateIdentifierToken_eq {t : JsonTokenizer} (ht : t.parseIndex ≤ t.size) :
    tryCreateIdentifierToken t = some t.tryCreateIdentifierToken := by
  rw [tryCreateIdentifierToken, advanceWhile_eq isalpha ht (by rw [length_rest, turns]; omega)]
  simp only [Option.bind_eq_bind, Option.bind_some, take_passed]
  rfl

theorem tryCreateIntegerToken_eq {t : JsonTokenizer} (ht : t.parseIndex < t.size) :
    tryCreateIntegerToken t = some t.tryCreateIntegerToken := by
  obtain ⟨c, text, hrest⟩ : ∃ c text, t.rest = c :: text := by
    refine List.exists_cons_of_ne_nil (fun hnil => ?_)
    have := (rest_eq_nil ht.le).mp hnil
    omega
  rw [tryCreateIntegerToken, JsonTokenizer.tryCreateIntegerToken, if_pos ht.ne, charAt_of_rest hrest, hrest]
  simp only [Option.map_some, Option.bind_eq_bind, Option.bind_some, List.head?_cons]
  by_cases hsign : c = byte '-'
  · have hle : (t.skip 1).parseIndex ≤ (t.skip 1).size := ht
    have hpassed := take_passed isdigit (t.skip 1)
    -- the sign is before the digits
    have hinteger : ∀ n, ((t.objectString.drop t.parseIndex).take (n + 1)).drop 1 =
        (t.objectString.drop (t.parseIndex + 1)).take n := by
      intro n
      rw [List.drop_take, List.drop_drop, Nat.add_sub_cancel]
    rw [objectString_skip, objectString_skip, parseIndex_skip, parseIndex_skip, Nat.add_sub_cancel_left]
      at hpassed
    have hcount : ∀ n, t.parseIndex + 1 + n - t.parseIndex = n + 1 := fun n => by omega
    simp only [hsign, beq_self_eq_true, if_true]
    rw [advanceWhile_eq isdigit hle (by rw [length_rest, turns]; omega)]
    simp only [Option.bind_some, objectString_skip, parseIndex_skip, hcount, hinteger, hpassed]
    rfl
  · have hpassed := take_passed isdigit t
    simp only [beq_eq_false_iff_ne.mpr hsign, Option.some_beq_some, Bool.false_eq_true, if_false]
    rw [advanceWhile_eq isdigit ht.le (by rw [length_rest, turns]; omega)]
    simp only [Option.bind_some, hpassed, List.drop_zero]
    rfl

/-- **The scanners compute the tokens**, or look outside the string where there is none. -/
theorem token_eq {t : JsonTokenizer} (ht : t.parseIndex ≤ t.size) : token t = t.token := by
  have hskip : skipWhitespace t = some t.skipWhitespace :=
    advanceWhile_eq isspace ht (by rw [length_rest, turns]; omega)
  have hspaces : (t.rest.takeWhile isspace).length ≤ t.rest.length :=
    (List.takeWhile_sublist _).length_le
  have hle : t.skipWhitespace.parseIndex ≤ t.skipWhitespace.size := by
    rw [length_rest] at hspaces
    rw [JsonTokenizer.skipWhitespace, parseIndex_skip, size_skip]
    omega
  rw [token, hskip, JsonTokenizer.token]
  generalize t.skipWhitespace = t at hle
  simp only [Option.bind_eq_bind, Option.bind_some]
  cases hrest : t.rest with
  | nil =>
      rw [if_pos ((rest_eq_nil hle).mp hrest)]
      rfl
  | cons c text =>
      have hlt : t.parseIndex < t.size := by
        have hlength := length_rest t
        rw [hrest, List.length_cons] at hlength
        omega
      rw [if_neg (by omega), charAt_of_rest hrest, tryCreateStringToken_eq hlt,
        tryCreateIntegerToken_eq hlt, tryCreateIdentifierToken_eq hle]
      rfl

end Reading

/-! ## A call -/

theorem size_skipWhitespace (t : JsonTokenizer) : t.skipWhitespace.size = t.size := rfl

theorem le_skipWhitespace (t : JsonTokenizer) : t.parseIndex ≤ t.skipWhitespace.parseIndex :=
  Nat.le_add_right _ _

theorem skipWhitespace_le {t : JsonTokenizer} (ht : t.parseIndex ≤ t.size) :
    t.skipWhitespace.parseIndex ≤ t.size := by
  have hspaces : (t.rest.takeWhile isspace).length ≤ t.rest.length :=
    (List.takeWhile_sublist _).length_le
  rw [length_rest] at hspaces
  rw [skipWhitespace, parseIndex_skip]
  omega

/-- What a call does with the index: it stays inside the string, and goes on. -/
structure Moves (t : JsonTokenizer) (token : Token) (t' : JsonTokenizer) : Prop where
  objectString : t'.objectString = t.objectString
  inside : t'.parseIndex ≤ t.size
  progress : token = .ended ∨ token = .error ∨ t.parseIndex < t'.parseIndex

theorem moves_skip {t : JsonTokenizer} {token : Token} {n : Nat} (hn : n ≤ t.rest.length)
    (ht : t.parseIndex ≤ t.size) (hprogress : token = .ended ∨ token = .error ∨ 0 < n) :
    Moves t token (t.skip n) := by
  rw [length_rest] at hn
  refine ⟨rfl, by rw [parseIndex_skip]; omega, ?_⟩
  rw [parseIndex_skip]
  rcases hprogress with h | h | h
  · exact .inl h
  · exact .inr (.inl h)
  · exact .inr (.inr (by omega))

theorem moves_string {t t' : JsonTokenizer} {token : Token} (ht : t.parseIndex < t.size)
    (h : t.tryCreateStringToken = some (token, t')) : Moves t token t' := by
  have hlength := length_rest t
  have hrest : (t.skip 1).rest.length + 1 = t.rest.length := by
    rw [rest_skip, List.length_drop]
    omega
  unfold tryCreateStringToken at h
  dsimp only at h
  split at h
  · cases h
  case h_2 text hne =>
      split at h
      case h_1 hsize =>
          cases h
          rw [skip_skip]
          exact moves_skip (by omega) ht.le (.inr (.inl rfl))
      case h_2 n hsize =>
          cases h
          have hlt := stringSize_lt hsize
          rw [skip_skip]
          exact moves_skip (by omega) ht.le (.inr (.inr (by omega)))

theorem moves_integer {t : JsonTokenizer} {c : UInt8} {text : Text} (hrest : t.rest = c :: text)
    (ht : t.parseIndex ≤ t.size) (hc : isdigit c = true ∨ c = byte '-') :
    Moves t t.tryCreateIntegerToken.1 t.tryCreateIntegerToken.2 := by
  unfold tryCreateIntegerToken
  dsimp only
  rw [hrest, List.head?_cons]
  by_cases hsign : c = byte '-'
  · have hnext : (t.skip 1).rest = text := by
      rw [rest_skip, hrest, List.drop_succ_cons, List.drop_zero]
    have hdigits : (text.takeWhile isdigit).length ≤ text.length := (List.takeWhile_sublist _).length_le
    simp only [hsign, beq_self_eq_true, if_true, hnext, skip_skip]
    refine moves_skip ?_ ht (.inr (.inr (by omega)))
    rw [hrest, List.length_cons]
    omega
  · have hdigit : isdigit c = true := hc.resolve_right hsign
    have hsign' : (some c == some (byte '-')) = false := by simpa using hsign
    simp only [hsign', Bool.false_eq_true, if_false, hrest, List.takeWhile_cons, hdigit, if_true]
    refine moves_skip ?_ ht (.inr (.inr (by simp)))
    have hdigits : (text.takeWhile isdigit).length ≤ text.length := (List.takeWhile_sublist _).length_le
    rw [hrest, List.length_cons, List.length_cons]
    omega

theorem moves_identifier {t : JsonTokenizer} {c : UInt8} {text : Text} (hrest : t.rest = c :: text)
    (ht : t.parseIndex ≤ t.size) (hc : isalpha c = true) :
    Moves t t.tryCreateIdentifierToken.1 t.tryCreateIdentifierToken.2 := by
  refine moves_skip ((List.takeWhile_sublist _).length_le) ht (.inr (.inr ?_))
  rw [hrest, List.takeWhile_cons, if_pos hc]
  exact Nat.succ_pos _

/-- **A call that returns stays inside the string.** -/
theorem moves_token {t t' : JsonTokenizer} {token : Token} (ht : t.parseIndex ≤ t.size)
    (h : t.token = some (token, t')) : Moves t token t' := by
  have hle := skipWhitespace_le ht
  have hfrom := le_skipWhitespace t
  suffices hmoves : Moves t.skipWhitespace token t' by
    refine { hmoves with progress := ?_ }
    rcases hmoves.progress with h | h | h
    · exact .inl h
    · exact .inr (.inl h)
    · exact .inr (.inr (by omega))
  unfold JsonTokenizer.token at h
  rw [← size_skipWhitespace] at hle
  generalize t.skipWhitespace = t at h hle
  dsimp only at h
  cases hrest : t.rest with
  | nil =>
      rw [hrest] at h
      cases h
      exact ⟨rfl, hle, .inl rfl⟩
  | cons c text =>
      have hlt : t.parseIndex < t.size := by
        have hlength := length_rest t
        rw [hrest, List.length_cons] at hlength
        omega
      have hone {token : Token} : Moves t token (t.skip 1) :=
        moves_skip (by rw [hrest, List.length_cons]; omega) hle (.inr (.inr (by omega)))
      -- one case for each kind of token, in the order of the program
      have hite {c : Prop} [Decidable c] {x y : Option (Token × JsonTokenizer)}
          (hx : c → ∀ token t', x = some (token, t') → Moves t token t')
          (hy : ∀ token t', y = some (token, t') → Moves t token t') :
          ∀ token t', (if c then x else y) = some (token, t') → Moves t token t' := by
        split
        case isTrue hc => exact hx hc
        case isFalse => exact hy
      have hsome {r : Token × JsonTokenizer} (hr : Moves t r.1 r.2) :
          ∀ token t', some r = some (token, t') → Moves t token t' := by
        intro token t' heq
        cases heq
        exact hr
      rw [hrest] at h
      refine (?_ : ∀ token t', _ = some (token, t') → Moves t token t') token t' h
      refine hite (fun _ _ _ h => moves_string hlt h) ?_
      refine hite (fun _ => hsome hone) ?_
      refine hite (fun _ => hsome hone) ?_
      refine hite (fun _ => hsome hone) ?_
      refine hite (fun _ => hsome hone) ?_
      refine hite (fun _ => hsome hone) ?_
      refine hite (fun _ => hsome hone) ?_
      refine hite (fun _ => hsome hone) ?_
      refine hite (fun hc => hsome (moves_integer hrest hle hc)) ?_
      refine hite (fun hc => hsome (moves_identifier hrest hle hc)) ?_
      exact hsome ⟨rfl, hle, .inr (.inl rfl)⟩

/-- **A call looks outside the string exactly at an opening quote that is the last character.** -/
theorem token_eq_none {t : JsonTokenizer} : t.token = none ↔ t.rest.dropWhile isspace = [quote] := by
  rw [← rest_skipWhitespace]
  unfold JsonTokenizer.token
  generalize t.skipWhitespace = t
  dsimp only
  cases hrest : t.rest with
  | nil => simp
  | cons c text =>
      dsimp only
      by_cases hc : c = quote
      · have hnext : (t.skip 1).rest = text := by
          rw [rest_skip, hrest, List.drop_succ_cons, List.drop_zero]
        rw [if_pos hc, hc, tryCreateStringToken]
        simp only [hnext]
        cases text with
        | nil => simp
        | cons d text =>
            cases hsize : stringSize false (d :: text) <;> simp [hsize]
      · have hite {c : Prop} [Decidable c] {r : Token × JsonTokenizer} {y : Option (Token × JsonTokenizer)}
            (hy : y ≠ none) : (if c then some r else y) ≠ none := by
          split
          · exact Option.some_ne_none r
          · exact hy
        rw [if_neg hc]
        constructor
        · intro hnone
          refine absurd hnone ?_
          exact hite (hite (hite (hite (hite (hite (hite (hite (hite (Option.some_ne_none _)))))))))
        · intro heq
          exact absurd (List.cons.inj heq).1 hc

/-! ## A run of calls -/

/-- The tokenizers for a string in a run of calls, until one returns an end or an error. -/
inductive Reached (s : Text) : JsonTokenizer → Prop
  | start : Reached s { objectString := s }
  | next {t t' : JsonTokenizer} {token : Token} (ht : Reached s t)
      (htoken : Reading.token t = some (token, t')) (hended : token ≠ .ended) (herror : token ≠ .error) :
      Reached s t'

theorem Reached.inside {s : Text} {t : JsonTokenizer} (h : Reached s t) :
    t.objectString = s ∧ t.parseIndex ≤ t.size := by
  induction h with
  | start => exact ⟨rfl, Nat.zero_le _⟩
  | next ht htoken hended herror ih =>
      obtain ⟨hstring, hle⟩ := ih
      rw [Reading.token_eq hle] at htoken
      have hmoves := moves_token hle htoken
      refine ⟨hmoves.objectString.trans hstring, ?_⟩
      rw [size, hmoves.objectString]
      exact hmoves.inside

theorem Reached.size_eq {s : Text} {t : JsonTokenizer} (h : Reached s t) : t.size = s.length := by
  rw [size, h.inside.1]

/-- A call that looks at characters inside the string only, leaves the index there, and goes on unless it
returns an end or an error. -/
def StaysInside (t : JsonTokenizer) : Prop :=
  ∃ token t', Reading.token t = some (token, t') ∧ t'.parseIndex ≤ t.size ∧
    (token = .ended ∨ token = .error ∨ t.parseIndex < t'.parseIndex)

/-- The text at which a call looks outside the string. -/
def AtLastQuote (t : JsonTokenizer) : Prop := t.rest.dropWhile isspace = [quote]

theorem staysInside_iff {t : JsonTokenizer} (ht : t.parseIndex ≤ t.size) :
    t.StaysInside ↔ ¬ t.AtLastQuote := by
  unfold StaysInside AtLastQuote
  rw [← token_eq_none, Reading.token_eq ht]
  constructor
  · rintro ⟨token, t', htoken, -⟩ hnone
    rw [hnone] at htoken
    cases htoken
  · intro hne
    obtain ⟨⟨token, t'⟩, htoken⟩ := Option.ne_none_iff_exists'.mp hne
    have hmoves := moves_token ht htoken
    exact ⟨token, t', htoken, hmoves.inside, hmoves.progress⟩

end EmbeddedInfra.Json.JsonTokenizer

namespace EmbeddedInfra.Json

open JsonTokenizer

/-! ## Iteration -/

section

variable {s : Text} (hinside : ∀ t, Reached s t → ¬ t.AtLastQuote)
include hinside

/-- A call in a run: it returns, and the run goes on unless it returned an end or an error. -/
theorem JsonTokenizer.Reached.token {t : JsonTokenizer} (ht : Reached s t) :
    ∃ token t', t.token = some (token, t') ∧ (token = .ended ∨ token = .error ∨
      (Reached s t' ∧ t.parseIndex < t'.parseIndex)) := by
  obtain ⟨-, hle⟩ := ht.inside
  obtain ⟨token, t', htoken, -, hprogress⟩ := (staysInside_iff hle).mpr (hinside t ht)
  refine ⟨token, t', (Reading.token_eq hle).symm.trans htoken, ?_⟩
  by_cases hended : token = .ended
  · exact .inl hended
  · by_cases herror : token = .error
    · exact .inr (.inl herror)
    · refine .inr (.inr ⟨ht.next htoken hended herror, ?_⟩)
      rcases hprogress with h | h | h
      · exact absurd h hended
      · exact absurd h herror
      · exact h

/-- The search for the end of a nested value ends. -/
theorem JsonIterator.searchEnd_some (opens closes : Token → Bool) {n : Nat} {t : JsonTokenizer}
    (ht : Reached s t) (hn : t.rest.length < n) (nested : BitVec 64) :
    ∃ token t', searchEnd opens closes n t nested = some (token, t') ∧
      (token = .ended ∨ token = .error ∨ (Reached s t' ∧ t.parseIndex < t'.parseIndex)) := by
  induction n generalizing t nested with
  | zero => omega
  | succ n ih =>
      obtain ⟨token, t', htoken, hnext⟩ := ht.token hinside
      rw [searchEnd, htoken]
      simp only [Option.bind_eq_bind, Option.bind_some]
      split
      case isTrue hgo =>
          obtain ⟨hreached, hlt⟩ := (hnext.resolve_left hgo.2.1).resolve_left hgo.2.2
          have hlength : t'.rest.length < n := by
            have hle := hreached.inside.2
            rw [length_rest, ht.size_eq] at hn
            rw [hreached.size_eq] at hle
            rw [length_rest, hreached.size_eq]
            omega
          obtain ⟨last, t'', hsearch, hlast⟩ := ih hreached hlength
            (if closes token then (if opens token then nested - 1 else nested) + 1
              else if opens token then nested - 1 else nested)
          refine ⟨last, t'', hsearch, ?_⟩
          rcases hlast with h | h | ⟨h, hlt'⟩
          · exact .inl h
          · exact .inr (.inl h)
          · exact .inr (.inr ⟨h, by omega⟩)
      case isFalse => exact ⟨token, t', rfl, hnext⟩

/-- A value is read, or there is none; with a value the run goes on. -/
theorem JsonIterator.convertValue_some {t : JsonTokenizer} (ht : Reached s t) (token : Token) :
    ∃ value t', convertValue t token = some (value, t') ∧
      (value = none ∨ (Reached s t' ∧ t.parseIndex ≤ t'.parseIndex)) := by
  have hn : t.rest.length < turns t := Nat.lt_succ_self _
  have hsame (value : Option Value) : ∃ v t', some (value, t) = some (v, t') ∧
      (v = none ∨ (Reached s t' ∧ t.parseIndex ≤ t'.parseIndex)) :=
    ⟨value, t, rfl, .inr ⟨ht, le_refl _⟩⟩
  cases token with
  | leftBrace index =>
      obtain ⟨last, t', hsearch, hlast⟩ := searchEnd_some hinside
        isLeftBrace isRightBrace ht hn 0
      rw [convertValue, readObjectValue, hsearch]
      cases last with
      | rightBrace objectEnd =>
          obtain ⟨hreached, hlt⟩ := (hlast.resolve_left Token.noConfusion).resolve_left Token.noConfusion
          exact ⟨_, t', rfl, .inr ⟨hreached, hlt.le⟩⟩
      | _ => exact ⟨_, t', rfl, .inl rfl⟩
  | leftBracket index =>
      obtain ⟨last, t', hsearch, hlast⟩ := searchEnd_some hinside
        isLeftBracket isRightBracket ht hn 0
      rw [convertValue, readArrayValue, hsearch]
      cases last with
      | rightBracket arrayEnd =>
          obtain ⟨hreached, hlt⟩ := (hlast.resolve_left Token.noConfusion).resolve_left Token.noConfusion
          exact ⟨_, t', rfl, .inr ⟨hreached, hlt.le⟩⟩
      | _ => exact ⟨_, t', rfl, .inl rfl⟩
  | string value => exact hsame _
  | integer value => exact hsame _
  | boolean value => exact hsame _
  | ended | error | colon | comma | dot | rightBrace | rightBracket => exact hsame _

/-- The turns that the loop of `operator++` still takes, at most. -/
def JsonObjectIterator.turns : ObjectState → Nat
  | .readObjectStart => 4
  | .readCommaOrObjectEnd => 4
  | .readKeyOrEnd => 3
  | .readKey => 3
  | .readColon => 2
  | .readValue => 1
  | .ended => 0

/-- A turn: the object is at its end, or the run goes on. -/
theorem JsonObjectIterator.parseNextToken_some {it : JsonObjectIterator} (ht : Reached s it.tokenizer)
    (hstate : it.state ≠ .ended) :
    ∃ it', it.parseNextToken = some it' ∧ (it'.state = .ended ∨
      (Reached s it'.tokenizer ∧ it.tokenizer.parseIndex < it'.tokenizer.parseIndex ∧
        (it'.state = .readCommaOrObjectEnd ∨ turns it'.state + 1 = turns it.state))) := by
  obtain ⟨token, t', htoken, hnext⟩ := ht.token hinside
  obtain ⟨t, state, key, value, error⟩ := it
  rcases hnext with rfl | rfl | ⟨hreached, hlt⟩
  -- an end or an error is an error in every state
  · cases state <;> first
      | exact absurd rfl hstate
      | exact ⟨_, by rw [parseNextToken, htoken]; rfl, .inl rfl⟩
  · cases state <;> first
      | exact absurd rfl hstate
      | exact ⟨_, by rw [parseNextToken, htoken]; rfl, .inl rfl⟩
  · have hon {it' : JsonObjectIterator} (htokenizer : it'.tokenizer = t')
        (hturns : turns it'.state + 1 = turns state) : it'.state = .ended ∨ (Reached s it'.tokenizer ∧
          t.parseIndex < it'.tokenizer.parseIndex ∧
            (it'.state = .readCommaOrObjectEnd ∨ turns it'.state + 1 = turns state)) := by
      rw [htokenizer]
      exact .inr ⟨hreached, hlt, .inr hturns⟩
    cases state with
    | readObjectStart =>
        refine ⟨_, by rw [parseNextToken, htoken]; rfl, ?_⟩
        unfold readObjectStart
        dsimp only
        split
        · exact hon rfl rfl
        · exact .inl rfl
    | readKeyOrEnd =>
        refine ⟨_, by rw [parseNextToken, htoken]; rfl, ?_⟩
        cases token with
        | string value => exact hon rfl rfl
        | _ => exact .inl rfl
    | readKey =>
        refine ⟨_, by rw [parseNextToken, htoken]; rfl, ?_⟩
        cases token with
        | string value => exact hon rfl rfl
        | _ => exact .inl rfl
    | readColon =>
        refine ⟨_, by rw [parseNextToken, htoken]; rfl, ?_⟩
        unfold readColon
        dsimp only
        split
        · exact hon rfl rfl
        · exact .inl rfl
    | readValue =>
        obtain ⟨read, t'', hconvert, hread⟩ := JsonIterator.convertValue_some hinside hreached token
        rw [parseNextToken, htoken]
        simp only [Option.bind_eq_bind, Option.bind_some]
        rw [readValue, hconvert]
        cases read with
        | none => exact ⟨_, rfl, .inl rfl⟩
        | some value =>
            obtain ⟨hreached', hle⟩ := hread.resolve_left (Option.some_ne_none value)
            exact ⟨_, rfl, .inr ⟨hreached', lt_of_lt_of_le hlt hle, .inl rfl⟩⟩
    | readCommaOrObjectEnd =>
        refine ⟨_, by rw [parseNextToken, htoken]; rfl, ?_⟩
        cases token with
        | comma => exact hon rfl rfl
        | _ => exact .inl rfl
    | ended => exact absurd rfl hstate

/-- `operator++` returns: at the end of the object, or at a member that comes later. -/
theorem JsonObjectIterator.advanceFor_some {n : Nat} {it : JsonObjectIterator}
    (ht : Reached s it.tokenizer) (hstate : it.state ≠ .ended) (hn : turns it.state ≤ n) :
    ∃ it', advanceFor n it = some it' ∧ (it'.state = .ended ∨ (Reached s it'.tokenizer ∧
      it'.state = .readCommaOrObjectEnd ∧ it.tokenizer.parseIndex < it'.tokenizer.parseIndex)) := by
  refine @Iteration.advance_some JsonObjectIterator (·.tokenizer.parseIndex) (fun it => Reached s it.tokenizer)
    (·.state = .ended) (·.state = .readCommaOrObjectEnd) _ _ parseNextToken (fun it => turns it.state) advanceFor
    (fun _ _ => rfl) ?_ ?_ n it ht hstate hn
  · intro it hgoes
    cases hs : it.state <;> first
      | exact absurd hs hgoes
      | decide
  · intro it hvalid hgoes
    exact JsonObjectIterator.parseNextToken_some hinside hvalid hgoes

omit hinside in
theorem JsonObjectIterator.turns_le (state : ObjectState) : turns state ≤ 4 := by
  cases state <;> decide

end

/-- The iterator of `for (auto& keyValue : object)` after a number of members. -/
def JsonObject.iterate (objectString : Text) : Nat → Option JsonObjectIterator
  | 0 => JsonObject.first objectString
  | members + 1 => do
      let it ← iterate objectString members
      if it.state = ObjectState.ended then return it else it.advance

/-- The iteration of an object comes to its end. -/
def JsonObject.Terminates (objectString : Text) : Prop :=
  ∃ members it, JsonObject.iterate objectString members = some it ∧ it.state = .ended

theorem JsonObject.terminates {s : Text} (hinside : ∀ t, Reached s t → ¬ t.AtLastQuote) :
    JsonObject.Terminates s := by
  have hnext (it : JsonObjectIterator) (hreached : Reached s it.tokenizer) (hgoes : it.state ≠ .ended) :=
    JsonObjectIterator.advanceFor_some hinside hreached hgoes (JsonObjectIterator.turns_le _)
  refine Iteration.ends (fun _ => rfl) hnext (fun it hreached => hreached.inside.2.trans_eq hreached.size_eq) ?_
  obtain ⟨it, hadvance, hit⟩ := hnext { tokenizer := { objectString := s } } .start (by simp)
  exact ⟨it, hadvance, hit.imp_right fun h => h.1⟩

section

variable {s : Text} (hinside : ∀ t, Reached s t → ¬ t.AtLastQuote)
include hinside

/-- The turns that the loop of `operator++` still takes, at most. -/
def JsonArrayIterator.turns : ArrayState → Nat
  | .readArrayStart => 2
  | .readCommaOrArrayEnd => 2
  | .readValueOrEnd => 1
  | .readValue => 1
  | .ended => 0

/-- A value of an array. -/
theorem JsonArrayIterator.readValue_some {it : JsonArrayIterator} (ht : Reached s it.tokenizer)
    (hstate : it.state = .readCommaOrArrayEnd) (token : Token) :
    ∃ it', it.readValue token = some it' ∧ (it'.state = .ended ∨ (Reached s it'.tokenizer ∧
      it.tokenizer.parseIndex ≤ it'.tokenizer.parseIndex ∧ it'.state = .readCommaOrArrayEnd)) := by
  obtain ⟨read, t', hconvert, hread⟩ := JsonIterator.convertValue_some hinside ht token
  rw [readValue, hconvert]
  cases read with
  | none => exact ⟨_, rfl, .inl rfl⟩
  | some value =>
      obtain ⟨hreached, hle⟩ := hread.resolve_left (Option.some_ne_none value)
      exact ⟨_, rfl, .inr ⟨hreached, hle, hstate⟩⟩

/-- A turn: the array is at its end, or the run goes on. -/
theorem JsonArrayIterator.parseNextToken_some {it : JsonArrayIterator} (ht : Reached s it.tokenizer)
    (hstate : it.state ≠ .ended) :
    ∃ it', it.parseNextToken = some it' ∧ (it'.state = .ended ∨
      (Reached s it'.tokenizer ∧ it.tokenizer.parseIndex < it'.tokenizer.parseIndex ∧
        (it'.state = .readCommaOrArrayEnd ∨ turns it'.state + 1 = turns it.state))) := by
  obtain ⟨token, t', htoken, hnext⟩ := ht.token hinside
  obtain ⟨t, state, value, error⟩ := it
  rcases hnext with rfl | rfl | ⟨hreached, hlt⟩
  -- an end or an error is an error in every state
  · cases state <;> first
      | exact absurd rfl hstate
      | exact ⟨_, by rw [parseNextToken, htoken]; rfl, .inl rfl⟩
  · cases state <;> first
      | exact absurd rfl hstate
      | exact ⟨_, by rw [parseNextToken, htoken]; rfl, .inl rfl⟩
  · have hvalue : ∃ it', readValue { tokenizer := t', state := .readCommaOrArrayEnd, value := value, error := error }
        token = some it' ∧ (it'.state = .ended ∨ (Reached s it'.tokenizer ∧
          t.parseIndex < it'.tokenizer.parseIndex ∧
            (it'.state = .readCommaOrArrayEnd ∨ turns it'.state + 1 = turns state))) := by
      obtain ⟨it', hread, hit'⟩ := @JsonArrayIterator.readValue_some s hinside
        { tokenizer := t', state := .readCommaOrArrayEnd, value := value, error := error } hreached rfl token
      refine ⟨it', hread, ?_⟩
      rcases hit' with h | ⟨h, hle, hs⟩
      · exact .inl h
      · exact .inr ⟨h, lt_of_lt_of_le hlt hle, .inl hs⟩
    rw [parseNextToken, htoken]
    simp only [Option.bind_eq_bind, Option.bind_some]
    cases state with
    | readArrayStart =>
        refine ⟨_, rfl, ?_⟩
        split
        · exact .inr ⟨hreached, hlt, .inr rfl⟩
        · exact .inl rfl
    | readValueOrEnd =>
        dsimp only
        split
        · exact ⟨_, rfl, .inl rfl⟩
        · exact hvalue
    | readValue => exact hvalue
    | readCommaOrArrayEnd =>
        cases token with
        | comma => exact ⟨_, rfl, .inr ⟨hreached, hlt, .inr rfl⟩⟩
        | _ => exact ⟨_, rfl, .inl rfl⟩
    | ended => exact absurd rfl hstate

/-- `operator++` returns: at the end of the array, or at an element that comes later. -/
theorem JsonArrayIterator.advanceFor_some {n : Nat} {it : JsonArrayIterator}
    (ht : Reached s it.tokenizer) (hstate : it.state ≠ .ended) (hn : turns it.state ≤ n) :
    ∃ it', advanceFor n it = some it' ∧ (it'.state = .ended ∨ (Reached s it'.tokenizer ∧
      it'.state = .readCommaOrArrayEnd ∧ it.tokenizer.parseIndex < it'.tokenizer.parseIndex)) := by
  refine @Iteration.advance_some JsonArrayIterator (·.tokenizer.parseIndex) (fun it => Reached s it.tokenizer)
    (·.state = .ended) (·.state = .readCommaOrArrayEnd) _ _ parseNextToken (fun it => turns it.state) advanceFor
    (fun _ _ => rfl) ?_ ?_ n it ht hstate hn
  · intro it hgoes
    cases hs : it.state <;> first
      | exact absurd hs hgoes
      | decide
  · intro it hvalid hgoes
    exact JsonArrayIterator.parseNextToken_some hinside hvalid hgoes

omit hinside in
theorem JsonArrayIterator.turns_le (state : ArrayState) : turns state ≤ 2 := by
  cases state <;> decide

end

/-- The iterator of `for (auto value : array)` after a number of elements. -/
def JsonArray.iterate (objectString : Text) : Nat → Option JsonArrayIterator
  | 0 => JsonArray.first objectString
  | elements + 1 => do
      let it ← iterate objectString elements
      if it.state = ArrayState.ended then return it else it.advance

/-- The iteration of an array comes to its end. -/
def JsonArray.Terminates (objectString : Text) : Prop :=
  ∃ elements it, JsonArray.iterate objectString elements = some it ∧ it.state = .ended

theorem JsonArray.terminates {s : Text} (hinside : ∀ t, Reached s t → ¬ t.AtLastQuote) :
    JsonArray.Terminates s := by
  have hnext (it : JsonArrayIterator) (hreached : Reached s it.tokenizer) (hgoes : it.state ≠ .ended) :=
    JsonArrayIterator.advanceFor_some hinside hreached hgoes (JsonArrayIterator.turns_le _)
  refine Iteration.ends (fun _ => rfl) hnext (fun it hreached => hreached.inside.2.trans_eq hreached.size_eq) ?_
  obtain ⟨it, hadvance, hit⟩ := hnext { tokenizer := { objectString := s } } .start (by simp)
  exact ⟨it, hadvance, hit.imp_right fun h => h.1⟩

/-- **The tokenizer stays inside its string exactly when it meets no opening quote that is the last
character**; objects and arrays over the string are then iterated to their end. -/
theorem tokenizer_staysInside (s : Text) :
    ((∀ t, Reached s t → t.StaysInside) ∧ JsonObject.Terminates s ∧ JsonArray.Terminates s) ↔
      ∀ t, Reached s t → ¬ t.AtLastQuote := by
  constructor
  · rintro ⟨hinside, -⟩ t ht
    exact (staysInside_iff ht.inside.2).mp (hinside t ht)
  · intro hquote
    exact ⟨fun t ht => (staysInside_iff ht.inside.2).mpr (hquote t ht), JsonObject.terminates hquote,
      JsonArray.terminates hquote⟩

/-- **An opening quote at the end**: the tokenizer looks at the character after the string, and so does
the object that is iterated. -/
theorem not_staysInside_quote :
    Reading.token { objectString := [0x7b, quote], parseIndex := 1 } = none ∧
      JsonObject.first [0x7b, quote] = none ∧
      ¬ ((∀ t, Reached [0x7b, quote] t → t.StaysInside) ∧ JsonObject.Terminates [0x7b, quote] ∧
        JsonArray.Terminates [0x7b, quote]) := by
  have hnone : Reading.token { objectString := [0x7b, quote], parseIndex := 1 } = none := by decide
  refine ⟨hnone, by decide, ?_⟩
  rintro ⟨hinside, -⟩
  have hreached : Reached [0x7b, quote] { objectString := [0x7b, quote], parseIndex := 1 } :=
    @Reached.next _ _ _ (.leftBrace 0) .start (by decide) (by decide) (by decide)
  obtain ⟨token, t', htoken, -⟩ := hinside _ hreached
  rw [hnone] at htoken
  cases htoken

end EmbeddedInfra.Json
