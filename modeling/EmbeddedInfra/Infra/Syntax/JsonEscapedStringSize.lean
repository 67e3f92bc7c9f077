import EmbeddedInfra.Infra.Syntax.JsonFormatter
import EmbeddedInfra.Infra.Stream.ByteStreams

set_option autoImplicit false

/-! # The size of an escaped string

`infra::JsonEscapedStringSize` tells how much room `InsertEscapedTag` needs for a string. It walks over
the string in the same way, and adds sizes from a table of its own.
-/

namespace EmbeddedInfra.Json

/-- The characters of which `EscapedCharacterSize` knows that they are escaped by two characters. -/
def shouldBeEscaped : Text := [quote, backslash, 0x08, 0x0c, 0x0a, 0x0d, 0x09]

def escapedCharacterSize (c : UInt8) : Nat := if shouldBeEscaped.any (c == ·) then 2 else 6

/-- The loop of `JsonEscapedStringSize`; the size so far is added up on the way back. -/
def jsonEscapedStringSizeFrom (signed : Bool) (string : Text) : Nat → Nat → Nat
  | 0, _ => 0
  | turns + 1, start =>
      if start = string.length then 0
      else
        let (escape, nonEscaped) := nonEscapedSubString signed string start
        if escape ≠ string.length then
          nonEscaped.length + escapedCharacterSize (string.getD escape 0) +
            jsonEscapedStringSizeFrom signed string turns (escape + 1)
        else
          nonEscaped.length + jsonEscapedStringSizeFrom signed string turns escape

def jsonEscapedStringSize (signed : Bool) (string : Text) : Nat :=
  jsonEscapedStringSizeFrom signed string (string.length + 1) 0

/-! ## The writer -/

/-- The pieces in which `InsertEscapedCharacter` writes an escape; a number is written digit by digit. -/
def escapedPieces (c : UInt8) : List Text :=
  if c = quote then [[backslash, quote]]
  else if c = backslash then [[backslash, backslash]]
  else if c = 0x08 then [[backslash, byte 'b']]
  else if c = 0x0c then [[backslash, byte 'f']]
  else if c = 0x0a then [[backslash, byte 'n']]
  else if c = 0x0d then [[backslash, byte 'r']]
  else if c = 0x09 then [[backslash, byte 't']]
  else [backslash, byte 'u'] :: (outputAsHexadecimal 4 (byte '0') c.toNat).map fun digit => [digit]

/-- The pieces that the loop of `InsertEscapedTag` writes. -/
def tagPiecesFrom (signed : Bool) (tag : Text) : Nat → Nat → List Text
  | 0, _ => []
  | turns + 1, start =>
      if start = tag.length then []
      else
        let (escape, nonEscaped) := nonEscapedSubString signed tag start
        let plain := if nonEscaped ≠ [] then [nonEscaped] else []
        if escape ≠ tag.length then
          plain ++ escapedPieces (tag.getD escape 0) ++ tagPiecesFrom signed tag turns (escape + 1)
        else plain ++ tagPiecesFrom signed tag turns escape

/-- `InsertEscapedTag` on a stream -/
def writeEscapedTag (signed : Bool) (w : Streams.ByteOutputStreamWriter) (tag : Text) :
    Streams.ByteOutputStreamWriter :=
  (tagPiecesFrom signed tag (tag.length + 1) 0).foldl Streams.ByteOutputStreamWriter.insert w

/-! ## The two tables agree -/

/-- The numbers of the characters above `0x7f` have two hexadecimal digits as well. -/
theorem escapedCharacterSize_eq (c : UInt8) : escapedCharacterSize c = (insertEscapedCharacter c).length := by
  unfold insertEscapedCharacter
  split_ifs with h1 h2 h3 h4 h5 h6 h7
  all_goals try subst c
  all_goals try rfl
  have hother : shouldBeEscaped.any (c == ·) = false := by
    simp [shouldBeEscaped, h1, h2, h3, h4, h5, h6, h7]
  rw [escapedCharacterSize, hother, outputAsHexadecimal_eq c.toNat (UInt8.toNat_lt c)]
  rfl

theorem escapedPieces_flatten (c : UInt8) : (escapedPieces c).flatten = insertEscapedCharacter c := by
  have hdigits (number : Text) : (number.map fun digit => [digit]).flatten = number := by
    rw [← List.flatMap_def, List.flatMap_singleton']
  unfold escapedPieces insertEscapedCharacter
  split_ifs
  all_goals try exact List.flatten_singleton
  rw [List.flatten_cons, hdigits]

/-- Both loops look for the next character to be escaped in the same way, turn by turn. -/
theorem jsonEscapedStringSizeFrom_eq (signed : Bool) (string : Text) (turns start : Nat) :
    jsonEscapedStringSizeFrom signed string turns start = (insertEscapedFrom signed string turns start).length := by
  induction turns generalizing start with
  | zero => rfl
  | succ turns ih =>
      unfold jsonEscapedStringSizeFrom insertEscapedFrom
      split
      next => rfl
      next =>
          dsimp only
          split
          · rw [ih, escapedCharacterSize_eq, List.length_append, List.length_append]
          · rw [ih, List.length_append]

theorem tagPiecesFrom_flatten (signed : Bool) (tag : Text) (turns start : Nat) :
    (tagPiecesFrom signed tag turns start).flatten = insertEscapedFrom signed tag turns start := by
  have hplain (text : Text) : (if text ≠ [] then [text] else []).flatten = text := by
    split_ifs with h
    · exact List.flatten_singleton
    · rw [not_not.mp h, List.flatten_nil]
  induction turns generalizing start with
  | zero => rfl
  | succ turns ih =>
      unfold tagPiecesFrom insertEscapedFrom
      split
      next => rfl
      next =>
          dsimp only
          split
          · rw [List.flatten_append, List.flatten_append, hplain, escapedPieces_flatten, ih]
          · rw [List.flatten_append, hplain, ih]

/-- **The size is what `InsertEscapedTag` writes.** On a stream with this much room the escaped string is
written behind what is there, nothing fails, and the offset of the stream grows by the size. -/
theorem jsonEscapedStringSize_eq (signed : Bool) (string : Text) {w : Streams.ByteOutputStreamWriter}
    {before text free after : Text} (h : Streams.Writes w before text free after)
    (hroom : (insertEscapedTag signed string).length ≤ free.length) :
    jsonEscapedStringSize signed string = (insertEscapedTag signed string).length ∧
      (writeEscapedTag signed w string).processed = text ++ insertEscapedTag signed string ∧
      (writeEscapedTag signed w string).offset = w.offset + jsonEscapedStringSize signed string ∧
      (writeEscapedTag signed w string).failed = false := by
  have hsize : jsonEscapedStringSize signed string = (insertEscapedTag signed string).length :=
    jsonEscapedStringSizeFrom_eq signed string _ 0
  have hpieces : (tagPiecesFrom signed string (string.length + 1) 0).flatten = insertEscapedTag signed string :=
    tagPiecesFrom_flatten signed string _ 0
  obtain ⟨free', -, hw⟩ := h.insertAll (hpieces ▸ hroom)
  rw [hpieces] at hw
  refine ⟨hsize, hw.processed, ?_, hw.failed⟩
  rw [hsize, h.offset, ← List.length_append]
  exact hw.offset

/-- A quote, a control character, a character above `0x7f` and a plain one. -/
theorem jsonEscapedStringSize_eq_mixed :
    (writeEscapedTag true (.ofMemory (List.replicate 16 0)) [quote, 0x11, 0xe9, byte 'a']).processed =
        [] ++ JsonTokenizer.ascii "\\\"\\u0011\\u00e9a" ∧
      jsonEscapedStringSize true [quote, 0x11, 0xe9, byte 'a'] = 15 := by
  obtain ⟨hsize, hwritten, -⟩ := jsonEscapedStringSize_eq true [quote, 0x11, 0xe9, byte 'a']
    (Streams.Writes.ofMemory (List.replicate 16 0)) (by decide)
  exact ⟨hwritten, hsize⟩

end EmbeddedInfra.Json
