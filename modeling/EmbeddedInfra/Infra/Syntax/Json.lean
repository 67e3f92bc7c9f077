import Mathlib.Tactic

set_option autoImplicit false

/-! # The in-memory JSON parser

`infra::JsonString`, `infra::JsonTokenizer`, `infra::JsonObject` and `infra::JsonArray` read a JSON
document that is in memory as a whole. A `char` is a byte. An assertion that fails is `none`.
-/

namespace EmbeddedInfra.Json

/-- Characters, and strings of them. -/
abbrev Text := List UInt8

def byte (c : Char) : UInt8 := c.toNat.toUInt8

/-- The double quote. -/
def quote : UInt8 := 0x22

/-- The backslash. -/
def backslash : UInt8 := 0x5c

def isspace (c : UInt8) : Bool := c == 0x20 || (0x09 ≤ c && c ≤ 0x0d)

def isdigit (c : UInt8) : Bool := 0x30 ≤ c && c ≤ 0x39

def isalpha (c : UInt8) : Bool := (0x41 ≤ c && c ≤ 0x5a) || (0x61 ≤ c && c ≤ 0x7a)

/-! ## Strings -/

/-- The value of a hexadecimal digit. -/
def hexValue (c : UInt8) : Option UInt8 :=
  if byte '0' ≤ c ∧ c ≤ byte '9' then some (c - byte '0')
  else if byte 'a' ≤ c ∧ c ≤ byte 'f' then some (c - byte 'a' + 10)
  else if byte 'A' ≤ c ∧ c ≤ byte 'F' then some (c - byte 'A' + 10)
  else none

namespace JsonStringIterator

/-- The value of the hexadecimal digits, at most the given number of them. A `char` holds the value
modulo 256. -/
def readHex : Nat → Text → UInt8 → UInt8
  | 0, _, result => result
  | _ + 1, [], result => result
  | digits + 1, c :: next, result =>
      match hexValue c with
      | none => result
      | some value => readHex digits next (result * 16 + value)

/-- The text after these digits. -/
def skipHex : Nat → Text → Text
  | 0, position => position
  | _ + 1, [] => []
  | digits + 1, c :: position => if (hexValue c).isSome then skipHex digits position else c :: position

/-- What the character after a backslash stands for, when it is not `u`. -/
def escaped (c : UInt8) : UInt8 :=
  if c = byte 'b' then 0x08
  else if c = byte 'f' then 0x0c
  else if c = byte 'n' then 0x0a
  else if c = byte 'r' then 0x0d
  else if c = byte 't' then 0x09
  else c

/-- `operator*`. An iterator is the text between its position and its end. -/
def current : Text → Option UInt8
  | [] => none
  | c :: next =>
      if c = backslash then
        match next with
        | [] => none
        | d :: next => some (if d = byte 'u' then readHex 4 next 0 else escaped d)
      else
        some c

/-- `operator++` -/
def advance : Text → Text
  | [] => []
  | c :: position =>
      if c = backslash then
        match position with
        | [] => []
        | d :: position => if d = byte 'u' then skipHex 4 position else position
      else
        position

end JsonStringIterator

open JsonStringIterator

namespace JsonString

/-- The characters from the iterator's position on; the first argument bounds their number. -/
def charactersFrom : Nat → Text → Option Text
  | _, [] => some []
  | 0, _ :: _ => none
  | bound + 1, c :: source => do
      let character ← current (c :: source)
      let rest ← charactersFrom bound (advance (c :: source))
      return character :: rest

/-- The string that a range-based loop over the iterators yields. -/
def characters (source : Text) : Option Text := charactersFrom source.length source

/-- The loop of the comparison with a string that is not escaped. -/
def equalFrom : Nat → Text → Text → Option Bool
  | _, [], other => some (other == [])
  | _, _ :: _, [] => some false
  | 0, _ :: _, _ :: _ => none
  | bound + 1, c :: source, y :: other => do
      let x ← current (c :: source)
      if x ≠ y then return false
      equalFrom bound (advance (c :: source)) other

/-- `operator==` -/
def equal (source other : Text) : Option Bool := equalFrom source.length source other

end JsonString

theorem JsonStringIterator.length_skipHex (n : Nat) (t : Text) : (skipHex n t).length ≤ t.length := by
  induction n generalizing t with
  | zero => exact le_refl _
  | succ n ih =>
      cases t with
      | nil => exact le_refl _
      | cons c t =>
          unfold skipHex
          split
          · exact (ih t).trans (Nat.le_succ _)
          · exact le_refl _

theorem JsonStringIterator.length_advance (c : UInt8) (t : Text) :
    (advance (c :: t)).length ≤ t.length := by
  simp only [advance]
  by_cases hc : c = backslash
  · rw [if_pos hc]
    cases t with
    | nil => exact le_refl _
    | cons d t =>
        dsimp only
        split
        · exact (length_skipHex 4 t).trans (Nat.le_succ _)
        · exact Nat.le_succ _
  · rw [if_neg hc]

namespace JsonString

theorem charactersFrom_of_le {n m : Nat} {t : Text} (hn : t.length ≤ n) (hm : t.length ≤ m) :
    charactersFrom n t = charactersFrom m t := by
  induction n generalizing m t with
  | zero =>
      have : t = [] := List.eq_nil_of_length_eq_zero (by omega)
      subst this
      simp [charactersFrom]
  | succ n ih =>
      cases t with
      | nil => simp [charactersFrom]
      | cons c t =>
          cases m with
          | zero => simp at hm
          | succ m =>
              have hlength := length_advance c t
              simp only [List.length_cons] at hn hm
              unfold charactersFrom
              rw [ih (m := m) (by omega) (by omega)]

/-- The characters of a string, one step of the iterator at a time. -/
theorem characters_cons (c : UInt8) (t : Text) :
    characters (c :: t) = (current (c :: t)).bind (fun x =>
      (characters (advance (c :: t))).map (x :: ·)) := by
  have hlength := length_advance c t
  unfold characters
  rw [List.length_cons, charactersFrom,
    charactersFrom_of_le (m := (advance (c :: t)).length) hlength (le_refl _)]
  cases current (c :: t) with
  | none => rfl
  | some x => exact (Option.map_eq_bind ..).symm

@[simp] theorem characters_nil : characters [] = some [] := rfl

theorem characters_plain {c : UInt8} (hc : c ≠ backslash) (t : Text) :
    characters (c :: t) = (characters t).map (c :: ·) := by
  rw [characters_cons]
  simp [current, advance, hc]

theorem characters_escaped {d : UInt8} (hd : d ≠ byte 'u') (t : Text) :
    characters (backslash :: d :: t) =
      (characters t).map (escaped d :: ·) := by
  rw [characters_cons]
  simp [current, advance, hd]

theorem characters_unicode (t : Text) :
    characters (backslash :: byte 'u' :: t) =
      (characters (skipHex 4 t)).map (readHex 4 t 0 :: ·) := by
  rw [characters_cons]
  simp [current, advance]

/-- A string is compared by its characters. -/
theorem equal_of_characters {source cs : Text} (h : characters source = some cs) (other : Text) :
    equal source other = some (decide (cs = other)) := by
  unfold characters at h
  unfold equal
  generalize source.length = n at h
  induction n generalizing source cs other with
  | zero =>
      cases source with
      | nil =>
          simp only [charactersFrom, Option.some.injEq] at h
          subst h
          cases other <;> simp [equalFrom]
      | cons c source => simp [charactersFrom] at h
  | succ n ih =>
      cases source with
      | nil =>
          simp only [charactersFrom, Option.some.injEq] at h
          subst h
          cases other <;> simp [equalFrom]
      | cons c source =>
          unfold charactersFrom at h
          cases hx : current (c :: source) with
          | none => simp [hx] at h
          | some x =>
              cases hr : charactersFrom n (advance (c :: source)) with
              | none => simp [hx, hr] at h
              | some rest =>
                  simp only [hx, hr, Option.bind_eq_bind, Option.bind_some, Option.pure_def,
                    Option.some.injEq] at h
                  subst h
                  cases other with
                  | nil => simp [equalFrom]
                  | cons y other =>
                      unfold equalFrom
                      rw [hx]
                      simp only [Option.bind_eq_bind, Option.bind_some]
                      by_cases hxy : x = y
                      · rw [if_neg (fun hc => hc hxy), ih other hr]
                        simp [hxy]
                      · rw [if_pos hxy]
                        simp [hxy]

end JsonString

/-! ## Tokens -/

inductive Token where
  | ended
  | error
  | colon
  | comma
  | dot
  | leftBrace (index : Nat)
  | rightBrace (index : Nat)
  | leftBracket (index : Nat)
  | rightBracket (index : Nat)
  | string (value : Text)
  | integer (value : Int32)
  | boolean (value : Bool)
deriving DecidableEq, Repr

open Token

structure JsonTokenizer where
  objectString : Text
  parseIndex : Nat := 0
deriving DecidableEq, Repr

namespace JsonTokenizer

/-- The text that is not read yet. -/
def rest (t : JsonTokenizer) : Text := t.objectString.drop t.parseIndex

/-- `n` characters are read. -/
def skip (t : JsonTokenizer) (n : Nat) : JsonTokenizer := { t with parseIndex := t.parseIndex + n }

def skipWhitespace (t : JsonTokenizer) : JsonTokenizer :=
  t.skip (t.rest.takeWhile isspace).length

/-- The number of characters before the closing quote. -/
def stringSize : Bool → Text → Option Nat
  | _, [] => none
  | escape, c :: rest =>
      if escape = true ∨ c ≠ quote then
        (stringSize (!escape && c == backslash) rest).map (· + 1)
      else
        some 0

def tryCreateStringToken (t : JsonTokenizer) : Option (Token × JsonTokenizer) :=
  let t := t.skip 1
  match t.rest with
  -- the element access asserts
  | [] => none
  | text =>
      match stringSize false text with
      | none => some (error, t.skip text.length)
      | some size => some (string (text.take size), t.skip (size + 1))

def tryCreateIntegerToken (t : JsonTokenizer) : Token × JsonTokenizer :=
  let sign := t.rest.head? == some (byte '-')
  let t := if sign then t.skip 1 else t
  let digits := t.rest.takeWhile isdigit
  let value := digits.foldl (fun value c => value * 10 + Int32.ofNat c.toNat - Int32.ofNat 0x30) 0
  (integer (if sign then value * (-1) else value), t.skip digits.length)

/-- The characters of an identifier. -/
def ascii (s : String) : Text := s.toList.map byte

def tryCreateIdentifierToken (t : JsonTokenizer) : Token × JsonTokenizer :=
  let identifier := t.rest.takeWhile isalpha
  let token :=
    if identifier = ascii "true" then boolean true
    else if identifier = ascii "false" then boolean false
    else error
  (token, t.skip identifier.length)

def token (t : JsonTokenizer) : Option (Token × JsonTokenizer) :=
  let t := t.skipWhitespace
  match t.rest with
  | [] => some (ended, t)
  | c :: _ =>
      if c = quote then t.tryCreateStringToken
      else if c = byte ':' then some (colon, t.skip 1)
      else if c = byte ',' then some (comma, t.skip 1)
      else if c = byte '.' then some (dot, t.skip 1)
      else if c = 0x7b then some (leftBrace t.parseIndex, t.skip 1)
      else if c = 0x7d then some (rightBrace t.parseIndex, t.skip 1)
      else if c = byte '[' then some (leftBracket t.parseIndex, t.skip 1)
      else if c = byte ']' then some (rightBracket t.parseIndex, t.skip 1)
      else if isdigit c ∨ c = byte '-' then some t.tryCreateIntegerToken
      else if isalpha c then some t.tryCreateIdentifierToken
      else some (error, t)

end JsonTokenizer

/-! ## The closing quote -/

namespace JsonTokenizer

/-- The text before the closing quote. -/
def stringPart (text : Text) : Option Text := (stringSize false text).map (text.take ·)

@[simp] theorem stringPart_quote (t : Text) : stringPart (quote :: t) = some [] := rfl

theorem stringPart_plain {c : UInt8} (hq : c ≠ quote) (hb : c ≠ backslash) (t : Text) :
    stringPart (c :: t) = (stringPart t).map (c :: ·) := by
  have hb' : (c == backslash) = false := by simpa using hb
  unfold stringPart
  rw [stringSize, if_pos (Or.inr hq), hb']
  cases h : stringSize false t <;> simp [h]

theorem stringPart_escaped (d : UInt8) (t : Text) :
    stringPart (backslash :: d :: t) = (stringPart t).map (fun part => backslash :: d :: part) := by
  unfold stringPart
  rw [stringSize, if_pos (Or.inr (by decide)), stringSize, if_pos (Or.inl (by decide))]
  cases h : stringSize false t <;> simp [h]

@[simp] theorem stringPart_backslash : stringPart [backslash] = none := rfl

theorem stringSize_eq_none {text : Text} (h : quote ∉ text) (escape : Bool) :
    stringSize escape text = none := by
  induction text generalizing escape with
  | nil => rfl
  | cons c text ih =>
      have hc : c ≠ quote := fun hc => h (hc ▸ List.mem_cons_self)
      rw [stringSize, if_pos (Or.inr hc), ih (fun hm => h (List.mem_cons_of_mem _ hm)), Option.map_none]

/-- Without a quote there is no closing one. -/
theorem stringPart_eq_none {text : Text} (h : quote ∉ text) : stringPart text = none := by
  rw [stringPart, stringSize_eq_none h, Option.map_none]

end JsonTokenizer

/-! ## What the tokenizer reads -/

namespace JsonTokenizer

theorem stringSize_lt {escape : Bool} {text : Text} {n : Nat} (h : stringSize escape text = some n) :
    n < text.length := by
  induction text generalizing escape n with
  | nil => simp [stringSize] at h
  | cons c text ih =>
      unfold stringSize at h
      split at h
      · rw [Option.map_eq_some_iff] at h
        obtain ⟨m, hm, rfl⟩ := h
        exact Nat.succ_lt_succ (ih hm)
      · simp only [Option.some.injEq] at h
        subst h
        exact Nat.zero_lt_succ _

@[simp] theorem rest_skip (t : JsonTokenizer) (n : Nat) : (t.skip n).rest = t.rest.drop n := by
  rw [rest, rest, skip, List.drop_drop]

@[simp] theorem objectString_skip (t : JsonTokenizer) (n : Nat) :
    (t.skip n).objectString = t.objectString := rfl

theorem rest_skipWhitespace (t : JsonTokenizer) : t.skipWhitespace.rest = t.rest.dropWhile isspace := by
  have hsplit : t.rest.takeWhile isspace ++ t.rest.dropWhile isspace = t.rest :=
    List.takeWhile_append_dropWhile
  calc t.skipWhitespace.rest
      = t.rest.drop (t.rest.takeWhile isspace).length := rest_skip t _
    _ = (t.rest.takeWhile isspace ++ t.rest.dropWhile isspace).drop
          (t.rest.takeWhile isspace).length := by rw [hsplit]
    _ = t.rest.dropWhile isspace := List.drop_left

/-- A string that is closed. -/
theorem token_string {t : JsonTokenizer} {text part : Text}
    (h : t.rest.dropWhile isspace = quote :: text) (hpart : stringPart text = some part) :
    t.token = some (string part, t.skipWhitespace.skip (part.length + 2)) := by
  have hrest : t.skipWhitespace.rest = quote :: text := (rest_skipWhitespace t).trans h
  rw [stringPart, Option.map_eq_some_iff] at hpart
  obtain ⟨size, hsize, rfl⟩ := hpart
  have hlt := stringSize_lt hsize
  obtain ⟨c, tail, rfl⟩ : ∃ c tail, text = c :: tail :=
    List.exists_cons_of_ne_nil (fun hc => by simp [hc] at hlt)
  unfold token
  simp only [hrest, if_true]
  unfold tryCreateStringToken
  simp only [rest_skip, hrest, List.drop_succ_cons, List.drop_zero, hsize]
  rw [List.length_take, Nat.min_eq_left (le_of_lt hlt)]
  simp only [skip, Nat.add_assoc, Nat.add_comm 1]

/-- A string that is not closed. -/
theorem token_string_open {t : JsonTokenizer} {c : UInt8} {text : Text}
    (h : t.rest.dropWhile isspace = quote :: c :: text) (hpart : stringPart (c :: text) = none) :
    ∃ t', t.token = some (error, t') := by
  have hrest : t.skipWhitespace.rest = quote :: c :: text := (rest_skipWhitespace t).trans h
  rw [stringPart, Option.map_eq_none_iff] at hpart
  unfold token
  simp only [hrest, if_true]
  unfold tryCreateStringToken
  simp only [rest_skip, hrest, List.drop_succ_cons, List.drop_zero, hpart]
  exact ⟨_, rfl⟩

/-- The tokens of one character. -/
theorem token_of_cons {t : JsonTokenizer} {c : UInt8} {text : Text}
    (h : t.rest.dropWhile isspace = c :: text) {make : Nat → Token}
    (hc : (c = byte ':' ∧ make = fun _ => colon) ∨
      (c = byte ',' ∧ make = fun _ => comma) ∨
      (c = 0x7b ∧ make = leftBrace) ∨ (c = 0x7d ∧ make = rightBrace) ∨
      (c = byte '[' ∧ make = leftBracket) ∨ (c = byte ']' ∧ make = rightBracket)) :
    t.token = some (make t.skipWhitespace.parseIndex, t.skipWhitespace.skip 1) := by
  have hrest : t.skipWhitespace.rest = c :: text := (rest_skipWhitespace t).trans h
  unfold token
  simp only [hrest]
  rcases hc with ⟨rfl, rfl⟩ | ⟨rfl, rfl⟩ | ⟨rfl, rfl⟩ | ⟨rfl, rfl⟩ | ⟨rfl, rfl⟩ | ⟨rfl, rfl⟩ <;> rfl

/-- What remains after a string. -/
theorem reads_string {t : JsonTokenizer} {text part : Text}
    (h : t.rest.dropWhile isspace = quote :: text) (hpart : stringPart text = some part) :
    ∃ t', t.token = some (string part, t') ∧ t'.rest = text.drop (part.length + 1) := by
  refine ⟨_, token_string h hpart, ?_⟩
  rw [rest_skip, rest_skipWhitespace, h, List.drop_succ_cons]

/-- What remains after a token of one character. -/
theorem reads_of_cons {t : JsonTokenizer} {c : UInt8} {text : Text} {make : Nat → Token}
    (h : t.rest.dropWhile isspace = c :: text)
    (hc : (c = byte ':' ∧ make = fun _ => colon) ∨
      (c = byte ',' ∧ make = fun _ => comma) ∨
      (c = 0x7b ∧ make = leftBrace) ∨ (c = 0x7d ∧ make = rightBrace) ∨
      (c = byte '[' ∧ make = leftBracket) ∨ (c = byte ']' ∧ make = rightBracket)) :
    ∃ t', t.token = some (make t.skipWhitespace.parseIndex, t') ∧ t'.rest = text := by
  refine ⟨_, token_of_cons h hc, ?_⟩
  rw [rest_skip, rest_skipWhitespace, h, List.drop_succ_cons, List.drop_zero]

end JsonTokenizer

/-! ## Values -/

/-- `JsonValue`. Strings, objects and arrays are substrings of the document. -/
inductive Value where
  | boolean (value : Bool)
  | integer (value : Int32)
  | string (source : Text)
  | object (objectString : Text)
  | array (objectString : Text)
deriving DecidableEq, Repr

namespace JsonIterator

/-- The loop of `SearchObjectEnd` and `SearchArrayEnd`: the tokenizer is read until the token that
`closes`, and that is not nested. The counter is unsigned, and counts down at what `opens`. -/
def searchEnd (opens closes : Token → Bool) :
    Nat → JsonTokenizer → BitVec 64 → Option (Token × JsonTokenizer)
  | 0, _, _ => none
  | turns + 1, tokenizer, nested => do
      let (token, tokenizer) ← tokenizer.token
      if (nested ≠ 0 ∨ closes token = false) ∧ token ≠ ended ∧ token ≠ error then
        let nested := if opens token then nested - 1 else nested
        let nested := if closes token then nested + 1 else nested
        searchEnd opens closes turns tokenizer nested
      else
        return (token, tokenizer)

def isLeftBrace : Token → Bool
  | .leftBrace _ => true
  | _ => false

def isRightBrace : Token → Bool
  | .rightBrace _ => true
  | _ => false

def isLeftBracket : Token → Bool
  | .leftBracket _ => true
  | _ => false

def isRightBracket : Token → Bool
  | .rightBracket _ => true
  | _ => false

/-- The turns that the search cannot exceed, since every token but the last takes a character. -/
def turns (tokenizer : JsonTokenizer) : Nat := tokenizer.rest.length + 1

def readObjectValue (tokenizer : JsonTokenizer) (index : Nat) :
    Option (Option Value × JsonTokenizer) := do
  let (token, tokenizer) ← searchEnd isLeftBrace isRightBrace (turns tokenizer) tokenizer 0
  match token with
  | .rightBrace objectEnd =>
      return (some (Value.object ((tokenizer.objectString.drop index).take (objectEnd + 1 - index))),
        tokenizer)
  | _ => return (none, tokenizer)

def readArrayValue (tokenizer : JsonTokenizer) (index : Nat) :
    Option (Option Value × JsonTokenizer) := do
  let (token, tokenizer) ← searchEnd isLeftBracket isRightBracket (turns tokenizer) tokenizer 0
  match token with
  | .rightBracket arrayEnd =>
      return (some (Value.array ((tokenizer.objectString.drop index).take (arrayEnd + 1 - index))),
        tokenizer)
  | _ => return (none, tokenizer)

def convertValue (tokenizer : JsonTokenizer) : Token → Option (Option Value × JsonTokenizer)
  | .string value => some (some (Value.string value), tokenizer)
  | .integer value => some (some (Value.integer value), tokenizer)
  | .boolean value => some (some (Value.boolean value), tokenizer)
  | .leftBrace index => readObjectValue tokenizer index
  | .leftBracket index => readArrayValue tokenizer index
  | _ => some (none, tokenizer)

end JsonIterator

/-! ## Objects -/

inductive ObjectState where
  | readObjectStart
  | readKeyOrEnd
  | readKey
  | readColon
  | readValue
  | readCommaOrObjectEnd
  | ended
deriving DecidableEq, Repr

/-- `JsonObjectIterator`, with the error that it sets on its object. -/
structure JsonObjectIterator where
  tokenizer : JsonTokenizer
  state : ObjectState := ObjectState.readObjectStart
  key : Text := []
  value : Value := Value.boolean false
  error : Bool := false
deriving DecidableEq, Repr

namespace JsonObjectIterator

def setError (it : JsonObjectIterator) : JsonObjectIterator :=
  { it with error := true, state := ObjectState.ended }

def readObjectStart (it : JsonObjectIterator) (token : Token) : JsonObjectIterator :=
  let it := { it with state := ObjectState.readKeyOrEnd }
  if JsonIterator.isLeftBrace token then it else it.setError

def readKeyOrEnd (it : JsonObjectIterator) (token : Token) : JsonObjectIterator :=
  let it := { it with state := ObjectState.readColon }
  match token with
  | .rightBrace _ => { it with state := ObjectState.ended }
  | .string value => { it with key := value }
  | _ => it.setError

def readKey (it : JsonObjectIterator) (token : Token) : JsonObjectIterator :=
  let it := { it with state := ObjectState.readColon }
  match token with
  | .string value => { it with key := value }
  | _ => it.setError

def readColon (it : JsonObjectIterator) (token : Token) : JsonObjectIterator :=
  let it := { it with state := ObjectState.readValue }
  if token = colon then it else it.setError

def readValue (it : JsonObjectIterator) (token : Token) : Option JsonObjectIterator := do
  let it := { it with state := ObjectState.readCommaOrObjectEnd }
  let (readValue, tokenizer) ← JsonIterator.convertValue it.tokenizer token
  let it := { it with tokenizer := tokenizer }
  match readValue with
  | some value => return { it with value := value }
  | none => return it.setError

def readCommaOrObjectEnd (it : JsonObjectIterator) (token : Token) : JsonObjectIterator :=
  match token with
  | .comma => { it with state := ObjectState.readKey }
  | .rightBrace _ => { it with state := ObjectState.ended }
  | _ => it.setError

def parseNextToken (it : JsonObjectIterator) : Option JsonObjectIterator := do
  let (token, tokenizer) ← it.tokenizer.token
  let it := { it with tokenizer := tokenizer }
  match it.state with
  | .readObjectStart => return it.readObjectStart token
  | .readKeyOrEnd => return it.readKeyOrEnd token
  | .readKey => return it.readKey token
  | .readColon => return it.readColon token
  | .readValue => it.readValue token
  | .readCommaOrObjectEnd => return it.readCommaOrObjectEnd token
  -- abort
  | .ended => none

/-- The loop of `operator++`, which takes at most four turns. -/
def advanceFor : Nat → JsonObjectIterator → Option JsonObjectIterator
  | 0, _ => none
  | turns + 1, it => do
      let it ← it.parseNextToken
      if it.state ≠ ObjectState.readCommaOrObjectEnd ∧ it.state ≠ ObjectState.ended then
        advanceFor turns it
      else
        return it

/-- `operator++` -/
def advance (it : JsonObjectIterator) : Option JsonObjectIterator := advanceFor 4 it

end JsonObjectIterator

namespace JsonObject

/-- `begin` -/
def first (objectString : Text) : Option JsonObjectIterator :=
  JsonObjectIterator.advance { tokenizer := { objectString := objectString } }

/-- The loop of `GetValue<JsonString>`: the string, and whether the object has an error then. -/
def getStringFrom (key : Text) : Nat → JsonObjectIterator → Option (Text × Bool)
  | 0, _ => none
  | turns + 1, it =>
      -- `SetError` and a default value
      if it.state = ObjectState.ended then some ([], true)
      else do
        let equal ← JsonString.equal it.key key
        match equal, it.value with
        | true, .string source => return (source, it.error)
        | _, _ =>
            let it ← it.advance
            getStringFrom key turns it

def getString (objectString key : Text) : Option (Text × Bool) := do
  let it ← first objectString
  getStringFrom key (objectString.length + 1) it

end JsonObject

/-! ## Arrays -/

inductive ArrayState where
  | readArrayStart
  | readValueOrEnd
  | readValue
  | readCommaOrArrayEnd
  | ended
deriving DecidableEq, Repr

/-- `JsonArrayIterator`, with the error that it sets on its array. -/
structure JsonArrayIterator where
  tokenizer : JsonTokenizer
  state : ArrayState := ArrayState.readArrayStart
  value : Value := Value.boolean false
  error : Bool := false
deriving DecidableEq, Repr

namespace JsonArrayIterator

def setError (it : JsonArrayIterator) : JsonArrayIterator :=
  { it with error := true, state := ArrayState.ended }

def readValue (it : JsonArrayIterator) (token : Token) : Option JsonArrayIterator := do
  let (readValue, tokenizer) ← JsonIterator.convertValue it.tokenizer token
  let it := { it with tokenizer := tokenizer }
  match readValue with
  | some value => return { it with value := value }
  | none => return it.setError

/-- One turn of the loop of `operator++`. -/
def parseNextToken (it : JsonArrayIterator) : Option JsonArrayIterator := do
  let (token, tokenizer) ← it.tokenizer.token
  let it := { it with tokenizer := tokenizer }
  match it.state with
  | .readArrayStart =>
      let it := { it with state := ArrayState.readValueOrEnd }
      return if JsonIterator.isLeftBracket token then it else it.setError
  | .readValueOrEnd =>
      if JsonIterator.isRightBracket token then
        return { it with state := ArrayState.ended }
      else
        readValue { it with state := ArrayState.readCommaOrArrayEnd } token
  | .readValue => readValue { it with state := ArrayState.readCommaOrArrayEnd } token
  | .readCommaOrArrayEnd =>
      match token with
      | .comma => return { it with state := ArrayState.readValue }
      | .rightBracket _ => return { it with state := ArrayState.ended }
      | _ => return it.setError
  -- abort
  | .ended => none

/-- The loop of `operator++`, which takes at most two turns. -/
def advanceFor : Nat → JsonArrayIterator → Option JsonArrayIterator
  | 0, _ => none
  | turns + 1, it => do
      let it ← it.parseNextToken
      if it.state ≠ ArrayState.readCommaOrArrayEnd ∧ it.state ≠ ArrayState.ended then
        advanceFor turns it
      else
        return it

/-- `operator++` -/
def advance (it : JsonArrayIterator) : Option JsonArrayIterator := advanceFor 2 it

end JsonArrayIterator

namespace JsonArray

/-- `begin` -/
def first (objectString : Text) : Option JsonArrayIterator :=
  JsonArrayIterator.advance { tokenizer := { objectString := objectString } }

end JsonArray

end EmbeddedInfra.Json
