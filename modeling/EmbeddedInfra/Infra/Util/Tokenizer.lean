import EmbeddedInfra.Lib.PatternSearch

set_option autoImplicit false

/-! # Strings and their tokens

`infra::BoundedString` as the list of its characters, and `infra::Tokenizer`. A `char` is a byte. A
position in a string is the part of the string from there on.
-/

namespace EmbeddedInfra

/-- The characters of a `BoundedString`. -/
abbrev BoundedString := List UInt8

/-- A character of the source. -/
def char (c : Char) : UInt8 := c.toNat.toUInt8

/-- A string literal of the source. -/
def literal (s : String) : BoundedString := s.toList.map char

/-- `substr(pos, count)` -/
def BoundedString.substr (s : BoundedString) (pos count : Nat) : BoundedString := (s.drop pos).take count

def trimLeft (s : BoundedString) : BoundedString := s.dropWhile (· == char ' ')

theorem length_trimLeft_le (s : BoundedString) : (trimLeft s).length ≤ s.length :=
  (List.dropWhile_sublist _).length_le

theorem trimLeft_of_head {s : BoundedString} (h : s.head? ≠ some (char ' ')) : trimLeft s = s := by
  cases s with
  | nil => rfl
  | cons c s => simp_all [trimLeft]

namespace Tokenizer

variable (separator : UInt8)

def skipConsecutiveSeparators (position : BoundedString) : BoundedString :=
  position.dropWhile (· == separator)

def startOfNextToken (position : BoundedString) : BoundedString :=
  skipConsecutiveSeparators separator (position.dropWhile (· != separator))

def skipTokens (tokenIndex : Nat) (string : BoundedString) : BoundedString :=
  (startOfNextToken separator)^[tokenIndex] (skipConsecutiveSeparators separator string)

def makeToken (start : BoundedString) : BoundedString := start.takeWhile (· != separator)

def token (tokenIndex : Nat) (string : BoundedString) : BoundedString :=
  makeToken separator (skipTokens separator tokenIndex string)

def tokenAndRest (tokenIndex : Nat) (string : BoundedString) : BoundedString :=
  skipTokens separator tokenIndex string

/-! ## The first two tokens -/

variable {separator} {first rest : BoundedString}

theorem skipConsecutiveSeparators_of_head {position : BoundedString} (h : position.head? ≠ some separator) :
    skipConsecutiveSeparators separator position = position := by
  cases position with
  | nil => rfl
  | cons c position => simp_all [skipConsecutiveSeparators]

/-- A token in front of a separator ends there. -/
theorem makeToken_append (h : separator ∉ first) : makeToken separator (first ++ separator :: rest) = first := by
  rw [makeToken, List.takeWhile_append_of_pos (by grind)]
  simp

theorem head?_append_of_ne_nil (hne : first ≠ []) (h : separator ∉ first) :
    (first ++ rest).head? ≠ some separator := by
  cases first with
  | nil => exact absurd rfl hne
  | cons c first => simp_all [eq_comm]

theorem token_zero (hne : first ≠ []) (h : separator ∉ first) :
    token separator 0 (first ++ separator :: rest) = first := by
  show makeToken separator (skipConsecutiveSeparators separator _) = first
  rw [skipConsecutiveSeparators_of_head (head?_append_of_ne_nil hne h), makeToken_append h]

/-- What follows the first token, without the separators. -/
theorem tokenAndRest_one (hne : first ≠ []) (h : separator ∉ first) :
    tokenAndRest separator 1 (first ++ separator :: rest) = skipConsecutiveSeparators separator rest := by
  show startOfNextToken separator (skipConsecutiveSeparators separator _) = _
  rw [skipConsecutiveSeparators_of_head (head?_append_of_ne_nil hne h), startOfNextToken,
    List.dropWhile_append_of_pos (by grind)]
  simp [skipConsecutiveSeparators]

theorem token_one (hne : first ≠ []) (h : separator ∉ first) :
    token separator 1 (first ++ separator :: rest) =
      makeToken separator (skipConsecutiveSeparators separator rest) :=
  congrArg (makeToken separator) (tokenAndRest_one hne h)

/-- What follows a character behind the first token does not change it. -/
theorem token_zero_append {string : BoundedString} {c : UInt8} (hmem : c ∈ string) (hne : c ≠ separator)
    (hnot : c ∉ token separator 0 string) (more : BoundedString) :
    token separator 0 (string ++ more) = token separator 0 string := by
  have hbehind : c ∈ string.dropWhile (· == separator) := by
    rw [← List.takeWhile_append_dropWhile (p := (· == separator)) (l := string), List.mem_append] at hmem
    rcases hmem with hskipped | hbehind
    · have hspace := List.all_eq_true.mp List.all_takeWhile c hskipped
      exact absurd (beq_iff_eq.mp hspace) hne
    · exact hbehind
  have hskip : (string ++ more).dropWhile (· == separator) = string.dropWhile (· == separator) ++ more := by
    rw [List.dropWhile_append, if_neg]
    simp only [List.isEmpty_iff]
    exact List.ne_nil_of_mem hbehind
  have hend : ((string.dropWhile (· == separator)).takeWhile (· != separator)).length ≠
      (string.dropWhile (· == separator)).length := by
    intro hall
    apply hnot
    show c ∈ (string.dropWhile (· == separator)).takeWhile (· != separator)
    rw [(List.takeWhile_prefix _).eq_of_length hall]
    exact hbehind
  show ((string ++ more).dropWhile (· == separator)).takeWhile (· != separator) =
    (string.dropWhile (· == separator)).takeWhile (· != separator)
  rw [hskip, List.takeWhile_append, if_neg hend]

end Tokenizer

end EmbeddedInfra
