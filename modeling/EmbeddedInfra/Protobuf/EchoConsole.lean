import Mathlib.Data.List.TakeWhile
import Mathlib.Tactic

set_option autoImplicit false

/-! # Reading a line of the echo console

`application::ConsoleTokenizer` gives one token of a line at a time, and `Console::MethodInvocation` reads a line with
it, always with the next token at hand. The tokenizer tests for the end of the line everywhere but right behind an
opening quote, and it adds up the digits of a number in an `int32_t`. The characters of a line are those of the C
locale; the addition is that of a machine, which wraps around.
-/

namespace EmbeddedInfra.EchoConsole

/-! ## Characters -/

def isspace (c : UInt8) : Bool := (9 ≤ c && c ≤ 13) || c == 32

def isdigit (c : UInt8) : Bool := 48 ≤ c && c ≤ 57

def isalpha (c : UInt8) : Bool := (65 ≤ c && c ≤ 90) || (97 ≤ c && c ≤ 122)

def isalnum (c : UInt8) : Bool := isalpha c || isdigit c

def quote : UInt8 := 34

def backslash : UInt8 := 92

def minus : UInt8 := 45

/-- `"true"` and `"false"` -/
def trueText : List UInt8 := [116, 114, 117, 101]

def falseText : List UInt8 := [102, 97, 108, 115, 101]

/-! ## Tokens -/

inductive TokenKind
  | endOfLine
  | error
  | comma
  | dot
  | leftBrace
  | rightBrace
  | leftBracket
  | rightBracket
  | string (value : List UInt8)
  | integer (value : Int)
  | boolean (value : Bool)
  /-- There is none: a character behind the end of the line has been read. -/
  | undefined
  deriving DecidableEq

structure Token where
  kind : TokenKind
  index : Nat
  deriving DecidableEq

/-- No token comes behind the token. -/
def TokenKind.Last (kind : TokenKind) : Prop := kind = .endOfLine ∨ kind = .error

instance (kind : TokenKind) : Decidable kind.Last := inferInstanceAs (Decidable (_ ∨ _))

/-- `rest` is the line from `parseIndex` on. -/
structure ConsoleTokenizer where
  rest : List UInt8
  parseIndex : Nat
  deriving DecidableEq

namespace ConsoleTokenizer

def ofLine (line : List UInt8) : ConsoleTokenizer := { rest := line, parseIndex := 0 }

/-- The tokenizer behind so many characters. -/
def skip (t : ConsoleTokenizer) (n : Nat) : ConsoleTokenizer :=
  { rest := t.rest.drop n, parseIndex := t.parseIndex + n }

def skipWhitespace (t : ConsoleTokenizer) : ConsoleTokenizer := t.skip (t.rest.takeWhile isspace).length

/-- The loop of `TryCreateStringToken`. The first turn does not look whether the line has ended. -/
def stringFrom (tokenStart : Nat) : Bool → List UInt8 → Nat → List UInt8 → Token × ConsoleTokenizer
  | _, _, parseIndex, [] => (⟨.undefined, tokenStart⟩, ⟨[], parseIndex⟩)
  | escape, stringToken, parseIndex, c :: rest =>
      if !escape && c == quote then (⟨.string stringToken, tokenStart⟩, ⟨rest, parseIndex + 1⟩)
      else if rest.isEmpty then (⟨.error, parseIndex + 1⟩, ⟨rest, parseIndex + 1⟩)
      else
        let escape := !escape && c == backslash
        stringFrom tokenStart escape (if escape then stringToken else stringToken ++ [c]) (parseIndex + 1) rest

/-- At the opening quote. -/
def tryCreateStringToken (t : ConsoleTokenizer) : Token × ConsoleTokenizer :=
  stringFrom (t.parseIndex + 1) false [] (t.parseIndex + 1) t.rest.tail

/-- The value of digits, in an `int32_t`. -/
def digitsValue (digits : List UInt8) : Int32 :=
  digits.foldl (fun value c => value * 10 + Int32.ofNat c.toNat - 48) 0

def tryCreateIntegerToken (t : ConsoleTokenizer) : Token × ConsoleTokenizer :=
  let sign := t.rest.head? == some minus
  let unsigned := if sign then t.rest.tail else t.rest
  let digits := unsigned.takeWhile isdigit
  let value := if sign then digitsValue digits * -1 else digitsValue digits
  (⟨.integer value.toInt, t.parseIndex⟩, t.skip (digits.length + if sign then 1 else 0))

def createIdentifierOrStringToken (t : ConsoleTokenizer) : Token × ConsoleTokenizer :=
  let identifier := t.rest.takeWhile isalnum
  let kind :=
    if identifier = trueText then .boolean true
    else if identifier = falseText then .boolean false
    else .string identifier
  (⟨kind, t.parseIndex⟩, t.skip identifier.length)

/-- The tokens of one character. -/
def punctuation : UInt8 → Option TokenKind
  | 44 => some .comma
  | 46 => some .dot
  | 123 => some .leftBrace
  | 125 => some .rightBrace
  | 91 => some .leftBracket
  | 93 => some .rightBracket
  | _ => none

/-- `Token`, behind the white space. -/
def tokenHere (t : ConsoleTokenizer) : Token × ConsoleTokenizer :=
  match t.rest with
  | [] => (⟨.endOfLine, t.parseIndex⟩, t)
  | c :: _ =>
      if c = quote then t.tryCreateStringToken
      else
        match punctuation c with
        | some kind => (⟨kind, t.parseIndex⟩, t.skip 1)
        | none =>
            if isdigit c || c == minus then t.tryCreateIntegerToken
            else if isalpha c then t.createIdentifierOrStringToken
            else (⟨.error, t.parseIndex⟩, t)

def token (t : ConsoleTokenizer) : Token × ConsoleTokenizer := t.skipWhitespace.tokenHere

end ConsoleTokenizer

open ConsoleTokenizer

/-! ## Reading an invocation -/

inductive Failure
  /-- `ConsoleExceptions::SyntaxError` -/
  | syntaxError (index : Nat)
  | aborted
  | undefined
  /-- The fuel of the model does not suffice. -/
  | unfinished

mutual

inductive MessageTokenValue
  | string (value : List UInt8)
  | integer (value : Int)
  | boolean (value : Bool)
  | message (tokens : MessageTokens)
  | array (messages : MessageArray)

/-- The values, with their indices. -/
inductive MessageTokens
  | nil
  | cons (value : MessageTokenValue) (index : Nat) (rest : MessageTokens)

/-- The result of `ProcessArray`, which has at least one element. -/
inductive MessageArray
  | last (message : MessageTokens)
  | more (message : MessageTokens) (rest : MessageArray)

end

structure MethodInvocation where
  currentToken : Token
  tokenizer : ConsoleTokenizer

namespace MethodInvocation

/-- `currentToken = tokenizer.Token()` -/
def advance (s : MethodInvocation) : MethodInvocation :=
  { currentToken := s.tokenizer.token.1, tokenizer := s.tokenizer.token.2 }

def ofLine (line : List UInt8) : MethodInvocation :=
  { currentToken := (ConsoleTokenizer.ofLine line).token.1, tokenizer := (ConsoleTokenizer.ofLine line).token.2 }

/-- The loop of `ProcessMethodTokens`. -/
def methodTokensFrom : Nat → MethodInvocation → Except Failure (List (List UInt8) × MethodInvocation)
  | 0, _ => .error .unfinished
  | fuel + 1, s =>
      match s.currentToken.kind with
      | .string value =>
          if s.advance.currentToken.kind = .dot then do
            let (method, s) ← methodTokensFrom fuel s.advance.advance
            return (value :: method, s)
          else .ok ([value], s.advance)
      | _ => .ok ([], s)

def processMethodTokens (fuel : Nat) (s : MethodInvocation) :
    Except Failure (List (List UInt8) × MethodInvocation) := do
  let (method, s) ← methodTokensFrom fuel s
  if method.isEmpty then throw (.syntaxError 0)
  return (method, s)

mutual

def createMessageTokenValue : Nat → MethodInvocation → Except Failure (MessageTokenValue × MethodInvocation)
  | 0, _ => .error .unfinished
  | fuel + 1, s =>
      match s.currentToken.kind with
      | .endOfLine => .error .aborted
      | .error | .comma | .dot | .rightBrace | .rightBracket => .error (.syntaxError s.currentToken.index)
      | .leftBrace => processMessage fuel s.advance
      | .leftBracket => processArray fuel s.advance
      | .string value => .ok (.string value, s)
      | .integer value => .ok (.integer value, s)
      | .boolean value => .ok (.boolean value, s)
      | .undefined => .error .undefined

/-- The loop of `ProcessParameterTokens`, `ProcessMessage` and `ProcessArray`, which stop at different tokens. -/
def processTokens : Nat → List TokenKind → MethodInvocation → Except Failure (MessageTokens × MethodInvocation)
  | 0, _, _ => .error .unfinished
  | fuel + 1, stops, s =>
      if s.currentToken.kind = .endOfLine ∨ s.currentToken.kind ∈ stops then .ok (.nil, s)
      else do
        let (value, s') ← createMessageTokenValue fuel s
        let (tokens, s') ← processTokens fuel stops s'.advance
        return (.cons value s.currentToken.index tokens, s')

def processMessage : Nat → MethodInvocation → Except Failure (MessageTokenValue × MethodInvocation)
  | 0, _ => .error .unfinished
  | fuel + 1, s => do
      let (tokens, s) ← processTokens fuel [.rightBrace] s
      if s.currentToken.kind = .rightBrace then return (.message tokens, s.advance)
      else throw (.syntaxError s.currentToken.index)

/-- The outer loop of `ProcessArray`. -/
def processElements : Nat → MethodInvocation → Except Failure (MessageArray × MethodInvocation)
  | 0, _ => .error .unfinished
  | fuel + 1, s => do
      let (message, s) ← processTokens fuel [.rightBracket, .comma] s
      if s.currentToken.kind = .comma then do
        let (rest, s) ← processElements fuel s.advance
        return (.more message rest, s)
      else return (.last message, s)

def processArray : Nat → MethodInvocation → Except Failure (MessageTokenValue × MethodInvocation)
  | 0, _ => .error .unfinished
  | fuel + 1, s => do
      let (messages, s) ← processElements fuel s
      if s.currentToken.kind = .rightBracket then return (.array messages, s.advance)
      else throw (.syntaxError s.currentToken.index)

end

def processParameterTokens (fuel : Nat) (s : MethodInvocation) : Except Failure (MessageTokens × MethodInvocation) :=
  processTokens fuel [] s

/-- The constructor, with so much fuel for every loop. -/
def parse (fuel : Nat) (line : List UInt8) : Except Failure (List (List UInt8) × MessageTokens) := do
  let (method, s) ← processMethodTokens fuel (ofLine line)
  let (messageTokens, _) ← processParameterTokens fuel s
  return (method, messageTokens)

end MethodInvocation

open MethodInvocation

/-! ## What is promised -/

/-- The value of digits. -/
def decimal (digits : List UInt8) : Nat := digits.foldl (fun value c => value * 10 + (c.toNat - 48)) 0

/-- The number that a text begins with. -/
def numberWritten (text : List UInt8) : Int :=
  if text.head? = some minus then -(decimal (text.tail.takeWhile isdigit) : Int)
  else decimal (text.takeWhile isdigit)

/-- **What is promised of one call** on a line of this size. -/
structure CallFine (size : Nat) (t : ConsoleTokenizer) : Prop where
  inside : t.token.1.kind ≠ .undefined
  bounded : t.token.2.parseIndex ≤ size
  advances : ¬ t.token.1.kind.Last → t.parseIndex < t.token.2.parseIndex
  number : ∀ value, t.token.1.kind = .integer value → -(2 ^ 31) ≤ numberWritten t.skipWhitespace.rest →
    numberWritten t.skipWhitespace.rest < 2 ^ 32 → value = numberWritten t.skipWhitespace.rest

/-- The tokenizer in a run of calls, until there is no token. -/
inductive Reaches (line : List UInt8) : ConsoleTokenizer → Prop
  | start : Reaches line (.ofLine line)
  | call {t : ConsoleTokenizer} (ht : Reaches line t) (hmore : ¬ t.token.1.kind.Last)
      (hinside : t.token.1.kind ≠ .undefined) : Reaches line t.token.2

/-- A string in quotes, in which a backslash precedes quotes and backslashes. -/
def quoted (s : List UInt8) : List UInt8 :=
  quote :: s.flatMap (fun c => if c = quote ∨ c = backslash then [backslash, c] else [c]) ++ [quote]

/-- A parsed invocation, or an exception with an index in the line. -/
def Reads {α : Type} (size : Nat) : Except Failure α → Prop
  | .ok _ => True
  | .error (.syntaxError index) => index ≤ size
  | .error _ => False

/-- **What is promised of a line**: every call of a run is fine, a string in quotes is read back, and reading the line
as an invocation comes to an end. -/
structure Promised (line s : List UInt8) : Prop where
  calls : ∀ t, Reaches line t → CallFine line.length t
  strings : ∀ parseIndex rest, token ⟨quoted s ++ rest, parseIndex⟩
    = (⟨.string s, parseIndex + 1⟩, ⟨rest, parseIndex + (quoted s).length⟩)
  invocation : ∃ fuel, ∀ more, fuel ≤ more → Reads line.length (parse more line)

/-- No string is opened by the last character, and no number is from `2 ^ 31` up to `2 ^ 32 - 1`. -/
def Regular (t : ConsoleTokenizer) : Prop :=
  t.skipWhitespace.rest ≠ [quote] ∧
    ¬ (2 ^ 31 ≤ decimal (t.skipWhitespace.rest.takeWhile isdigit) ∧
      decimal (t.skipWhitespace.rest.takeWhile isdigit) < 2 ^ 32)

/-! ## One call -/

section Calls

variable {size : Nat} {t : ConsoleTokenizer} {line : List UInt8}

/-- The part of the line that is left. -/
def Within (size : Nat) (t : ConsoleTokenizer) : Prop := t.parseIndex + t.rest.length = size

theorem Within.skip (h : Within size t) {n : Nat} (hn : n ≤ t.rest.length) : Within size (t.skip n) := by
  rw [Within] at h ⊢
  simp only [ConsoleTokenizer.skip, List.length_drop]
  omega

theorem Within.skipWhitespace (h : Within size t) : Within size t.skipWhitespace :=
  h.skip (List.takeWhile_sublist _).length_le

theorem rest_skipWhitespace (t : ConsoleTokenizer) : t.skipWhitespace.rest = t.rest.dropWhile isspace := by
  calc t.skipWhitespace.rest
    _ = t.rest.drop (t.rest.takeWhile isspace).length := rfl
    _ = (t.rest.takeWhile isspace ++ t.rest.dropWhile isspace).drop (t.rest.takeWhile isspace).length := by
      rw [List.takeWhile_append_dropWhile]
    _ = t.rest.dropWhile isspace := List.drop_left

theorem skipWhitespace_skipWhitespace (t : ConsoleTokenizer) : t.skipWhitespace.skipWhitespace = t.skipWhitespace := by
  have hnone : t.skipWhitespace.rest.takeWhile isspace = [] := by
    rw [rest_skipWhitespace]
    cases hrest : t.rest.dropWhile isspace with
    | nil => rfl
    | cons c rest =>
        have hhead := List.head_dropWhile_not isspace (l := t.rest) (by rw [hrest]; exact List.cons_ne_nil _ _)
        simp only [hrest, List.head_cons] at hhead
        exact List.takeWhile_cons_of_neg (by rw [hhead]; exact Bool.false_ne_true)
  rw [skipWhitespace, hnone]
  rfl

/-- There is no more token: the tokenizer stays where it is. -/
def Stuck (t : ConsoleTokenizer) : Prop := t.token.1.kind.Last ∧ t.token.1.index = t.parseIndex ∧ t.token.2 = t

theorem stuck_nil (parseIndex : Nat) : Stuck ⟨[], parseIndex⟩ := ⟨Or.inl rfl, rfl, rfl⟩

/-- The outcome of a call that stays inside of the line. -/
structure Outcome (size : Nat) (t : ConsoleTokenizer) (result : Token × ConsoleTokenizer) : Prop where
  inside : result.1.kind ≠ .undefined
  index_le : result.1.index ≤ size
  within : Within size result.2
  behind : t.parseIndex ≤ result.2.parseIndex
  advances : ¬ result.1.kind.Last → t.parseIndex < result.2.parseIndex
  stuck : result.1.kind.Last → Stuck result.2

/-- The loop of `TryCreateStringToken` stays inside of the line, but for its first turn. -/
theorem stringFrom_outcome {tokenStart parseIndex : Nat} {escape : Bool} {text rest : List UInt8}
    (hstart : tokenStart ≤ size) (hbefore : t.parseIndex < parseIndex) (hwithin : parseIndex + rest.length = size)
    (hne : rest ≠ []) : Outcome size t (stringFrom tokenStart escape text parseIndex rest) := by
  induction rest generalizing escape text parseIndex with
  | nil => exact absurd rfl hne
  | cons c rest ih =>
      rw [List.length_cons] at hwithin
      rw [stringFrom]
      split
      · refine ⟨nofun, hstart, ?_, Nat.le_succ_of_le hbefore.le, fun _ => Nat.lt_succ_of_lt hbefore, ?_⟩
        · show parseIndex + 1 + rest.length = size
          omega
        · rintro (h | h)
          · cases h
          · cases h
      · split
        next hlast =>
            have hnil := List.isEmpty_iff.mp hlast
            subst hnil
            refine ⟨nofun, ?_, hwithin, Nat.le_succ_of_le hbefore.le, fun h => absurd (Or.inr rfl) h,
              fun _ => stuck_nil _⟩
            show parseIndex + 1 ≤ size
            omega
        next hmore => exact ih (by omega) (by omega) (fun hnil => hmore (List.isEmpty_iff.mpr hnil))

theorem punctuation_kind {c : UInt8} {kind : TokenKind} (h : punctuation c = some kind) :
    kind ≠ .undefined ∧ ¬ kind.Last := by
  unfold punctuation at h
  split at h
  all_goals cases h
  all_goals exact ⟨nofun, by decide⟩

/-- A token of so many characters. -/
theorem skip_outcome {kind : TokenKind} (hwithin : Within size t) (hdefined : kind ≠ .undefined)
    (hmore : ¬ kind.Last) {n : Nat} (hpos : 0 < n) (hn : n ≤ t.rest.length) :
    Outcome size t (⟨kind, t.parseIndex⟩, t.skip n) := by
  refine ⟨hdefined, ?_, hwithin.skip hn, Nat.le_add_right _ _, fun _ => Nat.lt_add_of_pos_right hpos,
    fun h => absurd h hmore⟩
  exact hwithin ▸ Nat.le_add_right _ _

theorem not_last_integer (value : Int) : ¬ (TokenKind.integer value).Last := by
  rintro (h | h)
  · cases h
  · cases h

theorem integer_outcome {c : UInt8} {rest : List UInt8} (hwithin : Within size t) (hrest : t.rest = c :: rest)
    (hc : (isdigit c || c == minus) = true) : Outcome size t t.tryCreateIntegerToken := by
  have hlength : t.rest.length = rest.length + 1 := by rw [hrest, List.length_cons]
  apply skip_outcome hwithin ?_ (not_last_integer _) ?_ ?_
  · exact nofun
  all_goals rw [hrest]; simp only [List.head?_cons, List.tail_cons]
  · by_cases hminus : c = minus
    · simp [hminus]
    · have hdigit : isdigit c = true := by simpa [hminus] using hc
      simp [hminus, List.takeWhile_cons_of_pos hdigit]
  · by_cases hminus : c = minus
    · simpa [hminus] using (rest.takeWhile_sublist isdigit).length_le
    · simpa [hminus] using ((c :: rest).takeWhile_sublist isdigit).length_le

theorem identifier_outcome {c : UInt8} {rest : List UInt8} (hwithin : Within size t) (hrest : t.rest = c :: rest)
    (hc : isalpha c = true) : Outcome size t t.createIdentifierOrStringToken := by
  have halnum : isalnum c = true := by rw [isalnum, hc, Bool.true_or]
  have hpos : 0 < (t.rest.takeWhile isalnum).length := by
    rw [hrest, List.takeWhile_cons_of_pos halnum]
    exact Nat.zero_lt_succ _
  dsimp only [createIdentifierOrStringToken]
  apply skip_outcome hwithin ?_ ?_ hpos (List.takeWhile_sublist _).length_le
  · split_ifs
    all_goals exact nofun
  · split_ifs
    all_goals
      rintro (h | h)
      · cases h
      · cases h

/-- **A call stays inside of the line** unless all that is left is an opening quote. -/
theorem tokenHere_outcome (hwithin : Within size t) (hquote : t.rest ≠ [quote])
    (hspace : t.skipWhitespace = t) : Outcome size t t.tokenHere := by
  have hagain : t.token = t.tokenHere := by rw [token, hspace]
  have hindex : t.parseIndex ≤ size := hwithin ▸ Nat.le_add_right _ _
  cases hrest : t.rest with
  | nil =>
      have hend : t.tokenHere = (⟨.endOfLine, t.parseIndex⟩, t) := by rw [tokenHere, hrest]
      rw [hend] at hagain ⊢
      refine ⟨nofun, hindex, hwithin, Nat.le_refl _, fun h => absurd (Or.inl rfl) h, fun _ => ?_⟩
      rw [Stuck, hagain]
      exact ⟨Or.inl rfl, rfl, rfl⟩
  | cons c rest =>
      have hwhole : t.parseIndex + (rest.length + 1) = size := by
        rw [← List.length_cons (a := c), ← hrest]
        exact hwithin
      cases hpunctuation : punctuation c with
      | some kind =>
          have hne : c ≠ quote := by
            rintro rfl
            exact nomatch hpunctuation
          have htoken : t.tokenHere = (⟨kind, t.parseIndex⟩, t.skip 1) := by
            rw [tokenHere, hrest]
            simp only [if_neg hne, hpunctuation]
          obtain ⟨hdefined, hmore⟩ := punctuation_kind hpunctuation
          rw [htoken]
          exact skip_outcome hwithin hdefined hmore Nat.one_pos (by rw [hrest]; exact Nat.succ_le_succ (Nat.zero_le _))
      | none =>
          have htoken : t.tokenHere = if c = quote then t.tryCreateStringToken
              else if isdigit c || c == minus then t.tryCreateIntegerToken
              else if isalpha c then t.createIdentifierOrStringToken else (⟨.error, t.parseIndex⟩, t) := by
            rw [tokenHere, hrest]
            simp only [hpunctuation]
          rw [htoken]
          split_ifs with hc hdigit halpha
          · have hne : rest ≠ [] := by
              rintro rfl
              exact hquote (by rw [hrest, hc])
            rw [tryCreateStringToken, hrest, List.tail_cons]
            exact stringFrom_outcome (by omega) (Nat.lt_succ_self _) (by omega) hne
          · exact integer_outcome hwithin hrest hdigit
          · exact identifier_outcome hwithin hrest halpha
          · rw [if_neg hc, if_neg hdigit, if_neg halpha] at htoken
            refine ⟨nofun, hindex, hwithin, Nat.le_refl _, fun h => absurd (Or.inr rfl) h, fun _ => ?_⟩
            rw [Stuck, hagain, htoken]
            exact ⟨Or.inr rfl, rfl, rfl⟩

theorem token_outcome (hwithin : Within size t) (hquote : t.skipWhitespace.rest ≠ [quote]) :
    Outcome size t t.token := by
  have h := tokenHere_outcome hwithin.skipWhitespace hquote (skipWhitespace_skipWhitespace t)
  have hspace : t.parseIndex ≤ t.skipWhitespace.parseIndex := Nat.le_add_right _ _
  exact { h with behind := hspace.trans h.behind, advances := fun hmore => lt_of_le_of_lt hspace (h.advances hmore) }

/-- With an opening quote at the end of the line, a character behind the line is read. -/
theorem token_quote (hquote : t.skipWhitespace.rest = [quote]) : t.token.1.kind = .undefined := by
  rw [token, tokenHere, hquote]
  simp only [if_pos, tryCreateStringToken, hquote, List.tail_cons, stringFrom]

end Calls

/-! ## Numbers -/

section Numbers

/-- The addition in the `int32_t` gives the number, modulo `2 ^ 32`. -/
theorem digitsValue_eq {digits : List UInt8} (h : ∀ c ∈ digits, isdigit c = true) :
    digitsValue digits = Int32.ofNat (decimal digits) := by
  have hfold (value : Nat) : digits.foldl (fun value c => value * 10 + Int32.ofNat c.toNat - 48) (Int32.ofNat value)
      = Int32.ofNat (digits.foldl (fun value c => value * 10 + (c.toNat - 48)) value) := by
    induction digits generalizing value with
    | nil => rfl
    | cons c digits ih =>
        have hc : 48 ≤ c.toNat := by
          have hdigit := h c List.mem_cons_self
          simp only [isdigit, Bool.and_eq_true, decide_eq_true_eq] at hdigit
          exact hdigit.1
        have hstep : Int32.ofNat value * 10 + Int32.ofNat c.toNat - 48 = Int32.ofNat (value * 10 + (c.toNat - 48)) := by
          obtain ⟨k, hk⟩ := Nat.exists_eq_add_of_le hc
          rw [hk, Nat.add_sub_cancel_left, Int32.ofNat_add, Int32.ofNat_add, Int32.ofNat_mul]
          show Int32.ofNat value * 10 + (48 + Int32.ofNat k) - 48 = Int32.ofNat value * 10 + Int32.ofNat k
          grind
        rw [List.foldl_cons, List.foldl_cons, hstep]
        exact ih (fun c hc => h c (List.mem_cons_of_mem _ hc)) _
  exact hfold 0

theorem toInt_ofNat_eq_iff {n : Nat} (h : n < 2 ^ 32) : (Int32.ofNat n).toInt = n ↔ n < 2 ^ 31 := by
  rw [Int32.toInt_ofNat', Int.bmod, show Int32.size = 2 ^ 32 from rfl]
  split
  all_goals omega

theorem toInt_neg {n : Nat} (h : n ≤ 2 ^ 31) : (Int32.ofNat n * -1).toInt = -n := by
  have hneg : Int32.ofNat n * -1 = -Int32.ofNat n := by grind
  rw [hneg, Int32.toInt_neg, Int32.toInt_ofNat', Int.bmod, Int.bmod, show Int32.size = 2 ^ 32 from rfl]
  split
  all_goals
    split
    all_goals omega

variable {t : ConsoleTokenizer} {c : UInt8} {rest : List UInt8} {value : Int}

/-- The value of the number at the start of a text. -/
theorem kind_integer (hrest : t.rest = c :: rest) : t.tryCreateIntegerToken.1.kind
    = .integer (if c = minus then Int32.ofNat (decimal (rest.takeWhile isdigit)) * -1
        else Int32.ofNat (decimal ((c :: rest).takeWhile isdigit))).toInt := by
  have hdigits (l : List UInt8) := digitsValue_eq (fun c hc => List.mem_takeWhile_imp hc : ∀ c ∈ l.takeWhile isdigit, _)
  rw [tryCreateIntegerToken, hrest]
  by_cases hminus : c = minus
  · simp [hminus, hdigits]
  · simp [hminus, hdigits]

theorem stringFrom_not_integer {tokenStart parseIndex : Nat} {escape : Bool} {text rest : List UInt8} :
    (stringFrom tokenStart escape text parseIndex rest).1.kind ≠ .integer value := by
  induction rest generalizing escape text parseIndex with
  | nil => exact nofun
  | cons c rest ih =>
      rw [stringFrom]
      split
      · exact nofun
      · split
        · exact nofun
        · exact ih

/-- A token of a number begins with a digit or a sign. -/
theorem starts_of_integer (h : t.tokenHere.1.kind = .integer value) : ∃ c rest, t.rest = c :: rest ∧
    (isdigit c || c == minus) = true ∧ t.tokenHere = t.tryCreateIntegerToken := by
  cases hrest : t.rest with
  | nil =>
      rw [tokenHere, hrest] at h
      cases h
  | cons c rest =>
      rw [tokenHere, hrest] at h
      dsimp only at h
      split at h
      next => exact absurd h stringFrom_not_integer
      next hquote =>
          split at h
          next kind hkind =>
              unfold punctuation at hkind
              split at hkind
              all_goals cases hkind
              all_goals cases h
          next hnone =>
              split at h
              next hstart =>
                  refine ⟨c, rest, rfl, hstart, ?_⟩
                  rw [tokenHere, hrest]
                  simp only [if_neg hquote, hnone, if_pos hstart]
              next =>
                  split at h
                  next =>
                      dsimp only [createIdentifierOrStringToken] at h
                      split_ifs at h
                  next => cases h

/-- A digit begins a number. -/
theorem tokenHere_digit (hrest : t.rest = c :: rest) (hdigit : isdigit c = true) :
    t.tokenHere = t.tryCreateIntegerToken := by
  have hnotPunctuation : ∀ n : Fin 256, isdigit (UInt8.ofNat n) = true → UInt8.ofNat n ≠ quote ∧
      punctuation (UInt8.ofNat n) = none := by decide +kernel
  have hc := hnotPunctuation ⟨c.toNat, c.toNat_lt⟩
  rw [UInt8.ofNat_toNat] at hc
  obtain ⟨hquote, hpunctuation⟩ := hc hdigit
  rw [tokenHere, hrest]
  simp only [if_neg hquote, hpunctuation, hdigit, Bool.true_or, if_pos]

/-- **The value of a number is the one written** unless it is from `2 ^ 31` up to `2 ^ 32 - 1`. -/
theorem number_iff (t : ConsoleTokenizer) :
    (∀ value, t.tokenHere.1.kind = .integer value → -(2 ^ 31) ≤ numberWritten t.rest →
        numberWritten t.rest < 2 ^ 32 → value = numberWritten t.rest)
      ↔ ¬ (2 ^ 31 ≤ decimal (t.rest.takeWhile isdigit) ∧ decimal (t.rest.takeWhile isdigit) < 2 ^ 32) := by
  constructor
  · rintro hvalue ⟨hle, hlt⟩
    cases hrest : t.rest with
    | nil =>
        rw [hrest] at hle
        exact absurd hle (by decide)
    | cons c rest =>
        have hdigit : isdigit c = true := by
          by_contra hnot
          rw [hrest, List.takeWhile_cons_of_neg hnot] at hle
          exact absurd hle (by decide)
        have hminus : c ≠ minus := by
          rintro rfl
          exact Bool.false_ne_true hdigit
        have hwritten : numberWritten t.rest = decimal (t.rest.takeWhile isdigit) := by
          rw [numberWritten, if_neg (by rw [hrest]; simpa using hminus)]
        have hkind := kind_integer hrest
        rw [if_neg hminus, ← hrest, ← tokenHere_digit hrest hdigit] at hkind
        have hequal := hvalue _ hkind (by rw [hwritten]; omega) (by rw [hwritten]; omega)
        rw [hwritten, toInt_ofNat_eq_iff hlt] at hequal
        omega
  · intro hregular value hkind hlow hhigh
    obtain ⟨c, rest, hrest, -, htoken⟩ := starts_of_integer hkind
    rw [htoken, kind_integer hrest] at hkind
    obtain rfl := TokenKind.integer.inj hkind
    rw [hrest] at hlow hhigh hregular ⊢
    by_cases hminus : c = minus
    · have hwritten : numberWritten (c :: rest) = -(decimal (rest.takeWhile isdigit) : Int) := by
        rw [numberWritten, if_pos (by rw [hminus]; rfl), List.tail_cons]
      rw [hwritten] at hlow ⊢
      rw [if_pos hminus]
      exact toInt_neg (by omega)
    · have hwritten : numberWritten (c :: rest) = decimal ((c :: rest).takeWhile isdigit) := by
        rw [numberWritten, if_neg (by simpa using hminus)]
      rw [hwritten] at hhigh ⊢
      rw [if_neg hminus, toInt_ofNat_eq_iff (by omega)]
      omega

end Numbers

/-! ## Strings -/

section Strings

variable {tokenStart parseIndex : Nat} {escape : Bool} {text rest : List UInt8} {c : UInt8}

theorem stringFrom_backslash (hrest : rest ≠ []) :
    stringFrom tokenStart false text parseIndex (backslash :: rest)
      = stringFrom tokenStart true text (parseIndex + 1) rest := by
  rw [stringFrom, if_neg (by decide), if_neg (by rwa [List.isEmpty_iff])]
  rfl

theorem stringFrom_char (hc : escape = true ∨ c ≠ quote ∧ c ≠ backslash) (hrest : rest ≠ []) :
    stringFrom tokenStart escape text parseIndex (c :: rest)
      = stringFrom tokenStart false (text ++ [c]) (parseIndex + 1) rest := by
  rw [stringFrom, if_neg ?_, if_neg (by rwa [List.isEmpty_iff])]
  · rcases hc with rfl | ⟨-, hc⟩
    · rfl
    · have hbackslash : (!escape && c == backslash) = false := by simp [hc]
      simp only [hbackslash, Bool.false_eq_true, if_false]
  · rcases hc with rfl | ⟨hc, -⟩
    · exact Bool.false_ne_true
    · simp [hc]

/-- The characters of a string in quotes are read one by one. -/
theorem stringFrom_quoted (tokenStart parseIndex : Nat) (s text rest : List UInt8) :
    stringFrom tokenStart false text parseIndex ((quoted s).tail ++ rest)
      = (⟨.string (text ++ s), tokenStart⟩, ⟨rest, parseIndex + (quoted s).tail.length⟩) := by
  induction s generalizing text parseIndex with
  | nil => simp [quoted, stringFrom]
  | cons c s ih =>
      have hmore : (quoted s).tail ++ rest ≠ [] := by simp [quoted]
      by_cases hescaped : c = quote ∨ c = backslash
      · have htail : (quoted (c :: s)).tail = backslash :: c :: (quoted s).tail := by simp [quoted, hescaped]
        rw [htail, List.cons_append, List.cons_append, stringFrom_backslash (List.cons_ne_nil _ _),
          stringFrom_char (Or.inl rfl) hmore, ih, List.append_assoc, List.length_cons, List.length_cons]
        congr 2
        omega
      · have htail : (quoted (c :: s)).tail = c :: (quoted s).tail := by simp [quoted, hescaped]
        rw [htail, List.cons_append, stringFrom_char (Or.inr (not_or.mp hescaped)) hmore, ih, List.append_assoc,
          List.length_cons]
        congr 2
        omega

/-- **A string in quotes is read back.** -/
theorem token_quoted (s rest : List UInt8) (parseIndex : Nat) :
    token ⟨quoted s ++ rest, parseIndex⟩
      = (⟨.string s, parseIndex + 1⟩, ⟨rest, parseIndex + (quoted s).length⟩) := by
  have hcons : quoted s = quote :: (quoted s).tail := rfl
  have hspace : skipWhitespace ⟨quoted s ++ rest, parseIndex⟩ = ⟨quoted s ++ rest, parseIndex⟩ := by
    rw [hcons]
    rfl
  rw [token, hspace, tokenHere]
  calc tryCreateStringToken ⟨quoted s ++ rest, parseIndex⟩
    _ = stringFrom (parseIndex + 1) false [] (parseIndex + 1) ((quoted s).tail ++ rest) := rfl
    _ = (⟨.string ([] ++ s), parseIndex + 1⟩, ⟨rest, parseIndex + 1 + (quoted s).tail.length⟩) :=
      stringFrom_quoted _ _ _ _ _
    _ = (⟨.string s, parseIndex + 1⟩, ⟨rest, parseIndex + (quoted s).length⟩) := by
      rw [hcons, List.nil_append, List.length_cons, List.tail_cons, Nat.add_assoc, Nat.add_comm 1]

end Strings

/-! ## Runs of calls -/

section Runs

variable {size : Nat} {t : ConsoleTokenizer} {line : List UInt8}

/-- A call is fine exactly where the state before it is regular. -/
theorem callFine_iff (hwithin : Within size t) : CallFine size t ↔ Regular t := by
  constructor
  · intro hfine
    exact ⟨fun hquote => hfine.inside (token_quote hquote), (number_iff t.skipWhitespace).mp hfine.number⟩
  · rintro ⟨hquote, hnumber⟩
    have houtcome := token_outcome hwithin hquote
    have hbounded : t.token.2.parseIndex ≤ size := houtcome.within ▸ Nat.le_add_right _ _
    exact ⟨houtcome.inside, hbounded, houtcome.advances, (number_iff t.skipWhitespace).mpr hnumber⟩

theorem within_of_reaches (h : Reaches line t) : Within line.length t := by
  induction h with
  | start => exact Nat.zero_add _
  | call ht hmore hinside ih => exact (token_outcome ih fun hquote => hinside (token_quote hquote)).within

end Runs

/-! ## Reading an invocation comes to an end -/

section Invocations

variable {line : List UInt8} {s : MethodInvocation} {fuel n : Nat} {α β : Type}

/-- The state of an invocation: a token of the run, and the tokenizer behind it. -/
structure Good (line : List UInt8) (s : MethodInvocation) : Prop where
  inside : s.currentToken.kind ≠ .undefined
  index_le : s.currentToken.index ≤ line.length
  within : Within line.length s.tokenizer
  next : Reaches line s.tokenizer ∨ Stuck s.tokenizer

/-- The characters that are left, with the token at hand. -/
def MethodInvocation.left (s : MethodInvocation) : Nat :=
  s.tokenizer.rest.length + if s.currentToken.kind.Last then 0 else 1

theorem length_le_left (s : MethodInvocation) : s.tokenizer.rest.length ≤ s.left := Nat.le_add_right _ _

theorem left_of_more (h : ¬ s.currentToken.kind.Last) : s.left = s.tokenizer.rest.length + 1 := by
  rw [left, if_neg h]

/-- The token behind a tokenizer of the run, or where there is no more token. -/
theorem good_token {t : ConsoleTokenizer} (hregular : ∀ t, Reaches line t → Regular t) (hwithin : Within line.length t)
    (ht : Reaches line t ∨ Stuck t) :
    Good line ⟨t.token.1, t.token.2⟩ ∧ left ⟨t.token.1, t.token.2⟩ ≤ t.rest.length := by
  rcases ht with ht | ht
  · have houtcome := token_outcome hwithin (hregular t ht).1
    have hafter := houtcome.within
    rw [Within] at hwithin hafter
    by_cases hlast : t.token.1.kind.Last
    · refine ⟨{ houtcome with next := Or.inr (houtcome.stuck hlast) }, ?_⟩
      have hbehind := houtcome.behind
      rw [left, if_pos hlast]
      dsimp only
      omega
    · refine ⟨{ houtcome with next := Or.inl (.call ht hlast houtcome.inside) }, ?_⟩
      have hadvances := houtcome.advances hlast
      rw [left, if_neg hlast]
      dsimp only
      omega
  · obtain ⟨hlast, hindex, hstay⟩ := ht
    have hinside : t.token.1.kind ≠ .undefined := by
      rcases hlast with hlast | hlast
      · rw [hlast]
        exact nofun
      · rw [hlast]
        exact nofun
    have hle : t.token.1.index ≤ line.length := by
      rw [Within] at hwithin
      omega
    refine ⟨⟨hinside, hle, by rw [hstay]; exact hwithin, Or.inr (by rw [hstay]; exact ⟨hlast, hindex, hstay⟩)⟩, ?_⟩
    rw [left, if_pos hlast, hstay]
    exact Nat.le_refl _

theorem good_advance (hregular : ∀ t, Reaches line t → Regular t) (h : Good line s) :
    Good line s.advance ∧ s.advance.left ≤ s.tokenizer.rest.length := good_token hregular h.within h.next

/-- A state with this property, or an exception with an index in the line. -/
def EndsIn (line : List UInt8) (post : MethodInvocation → Prop) : Except Failure (α × MethodInvocation) → Prop
  | .ok (_, s) => Good line s ∧ post s
  | .error (.syntaxError index) => index ≤ line.length
  | .error _ => False

/-- One part of the reading behind the other. -/
theorem EndsIn.bind {post post' : MethodInvocation → Prop} {x : Except Failure (α × MethodInvocation)}
    {f : α × MethodInvocation → Except Failure (β × MethodInvocation)} (h : EndsIn line post x)
    (hf : ∀ a s, Good line s → post s → EndsIn line post' (f (a, s))) : EndsIn line post' (x >>= f) := by
  match x, h with
  | .ok (a, s), h => exact hf a s h.1 h.2
  | .error (.syntaxError index), h => exact h

theorem EndsIn.mono {post post' : MethodInvocation → Prop} {x : Except Failure (α × MethodInvocation)}
    (h : EndsIn line post x) (hpost : ∀ s, Good line s → post s → post' s) : EndsIn line post' x := by
  match x, h with
  | .ok (a, s), h => exact ⟨h.1, hpost s h.1 h.2⟩
  | .error (.syntaxError index), h => exact h

/-- **Every part of the reading ends** with enough fuel: a token takes at most four calls. -/
theorem process_ends (hregular : ∀ t, Reaches line t → Regular t) (fuel : Nat) :
    (∀ s, Good line s → s.currentToken.kind ≠ .endOfLine → 4 * s.left + 1 ≤ fuel →
      EndsIn line (fun s' => s'.tokenizer.rest.length < s.left) (createMessageTokenValue fuel s)) ∧
    (∀ stops s, Good line s → 4 * s.left + 2 ≤ fuel →
      EndsIn line (fun s' => s'.left ≤ s.left) (processTokens fuel stops s)) ∧
    (∀ s, Good line s → 4 * s.left + 3 ≤ fuel → EndsIn line (fun s' => s'.left ≤ s.left) (processMessage fuel s)) ∧
    (∀ s, Good line s → 4 * s.left + 3 ≤ fuel → EndsIn line (fun s' => s'.left ≤ s.left) (processElements fuel s)) ∧
    (∀ s, Good line s → 4 * s.left + 4 ≤ fuel → EndsIn line (fun s' => s'.left ≤ s.left) (processArray fuel s)) := by
  induction fuel with
  | zero =>
      refine ⟨?_, ?_, ?_, ?_, ?_⟩
      all_goals
        intros
        omega
  | succ fuel ih =>
      obtain ⟨ihCreate, ihTokens, ihMessage, ihElements, ihArray⟩ := ih
      have hadvance {s : MethodInvocation} (hs : Good line s) := good_advance hregular hs
      have hmore {s : MethodInvocation} (hnot : ¬ s.currentToken.kind.Last) : s.tokenizer.rest.length < s.left := by
        rw [left_of_more hnot]
        exact Nat.lt_succ_self _
      refine ⟨?_, ?_, ?_, ?_, ?_⟩
      · intro s hs hend hfuel
        rw [createMessageTokenValue]
        split
        next hkind => exact absurd hkind hend
        all_goals try exact hs.index_le
        next hkind =>
            have hleft := left_of_more (show ¬ s.currentToken.kind.Last by rw [hkind]; decide)
            have hnext := hadvance hs
            refine (ihMessage s.advance hnext.1 (by omega)).mono fun s' _ hle => ?_
            have hrest := length_le_left s'
            omega
        next hkind =>
            have hleft := left_of_more (show ¬ s.currentToken.kind.Last by rw [hkind]; decide)
            have hnext := hadvance hs
            refine (ihArray s.advance hnext.1 (by omega)).mono fun s' _ hle => ?_
            have hrest := length_le_left s'
            omega
        next value hkind => exact ⟨hs, hmore (by rw [hkind]; rintro (h | h) <;> cases h)⟩
        next value hkind => exact ⟨hs, hmore (by rw [hkind]; exact not_last_integer value)⟩
        next value hkind => exact ⟨hs, hmore (by rw [hkind]; rintro (h | h) <;> cases h)⟩
        next hkind => exact absurd hkind hs.inside
      · intro stops s hs hfuel
        rw [processTokens]
        split
        next => exact ⟨hs, Nat.le_refl _⟩
        next hgoes =>
            refine (ihCreate s hs (fun h => hgoes (Or.inl h)) (by omega)).bind fun value s' hs' hlt => ?_
            have hnext := hadvance hs'
            refine (ihTokens stops s'.advance hnext.1 (by omega)).bind fun tokens s'' hs'' hle => ⟨hs'', ?_⟩
            omega
      · intro s hs hfuel
        rw [processMessage]
        refine (ihTokens [.rightBrace] s hs (by omega)).bind fun tokens s' hs' hle => ?_
        dsimp only
        split
        next => exact ⟨(hadvance hs').1, (hadvance hs').2.trans ((length_le_left s').trans hle)⟩
        next => exact hs'.index_le
      · intro s hs hfuel
        rw [processElements]
        refine (ihTokens [.rightBracket, .comma] s hs (by omega)).bind fun message s' hs' hle => ?_
        dsimp only
        split
        next hcomma =>
            have hleft := left_of_more (show ¬ s'.currentToken.kind.Last by rw [hcomma]; decide)
            have hnext := hadvance hs'
            refine (ihElements s'.advance hnext.1 (by omega)).bind fun rest s'' hs'' hle'' => ⟨hs'', ?_⟩
            dsimp only
            omega
        next => exact ⟨hs', hle⟩
      · intro s hs hfuel
        rw [processArray]
        refine (ihElements s hs (by omega)).bind fun messages s' hs' hle => ?_
        dsimp only
        split
        next => exact ⟨(hadvance hs').1, (hadvance hs').2.trans ((length_le_left s').trans hle)⟩
        next => exact hs'.index_le

/-- The name of the method takes a call for every part and one for every dot. -/
theorem methodTokens_ends (hregular : ∀ t, Reaches line t → Regular t) (hs : Good line s) (hfuel : s.left + 1 ≤ fuel) :
    EndsIn line (fun s' => s'.left ≤ s.left) (methodTokensFrom fuel s) := by
  induction fuel generalizing s with
  | zero => omega
  | succ fuel ih =>
      rw [methodTokensFrom]
      split
      next value hkind =>
          have hleft := left_of_more (show ¬ s.currentToken.kind.Last by rw [hkind]; rintro (h | h) <;> cases h)
          have hnext := good_advance hregular hs
          split
          next =>
              have hnext' := good_advance hregular hnext.1
              have hrest := length_le_left s.advance
              refine (ih hnext'.1 (by omega)).bind fun method s' hs' hle => ⟨hs', ?_⟩
              omega
          next =>
              refine ⟨hnext.1, ?_⟩
              omega
      next => exact ⟨hs, Nat.le_refl _⟩

/-- Reading a line comes to an end. -/
theorem parse_reads (hregular : ∀ t, Reaches line t → Regular t) (hfuel : 4 * line.length + 2 ≤ fuel) :
    Reads line.length (parse fuel line) := by
  obtain ⟨hfirst, hleft⟩ := good_token hregular (within_of_reaches .start) (Or.inl .start)
  have hline : (ConsoleTokenizer.ofLine line).rest.length = line.length := rfl
  have hmethod : EndsIn line (fun s => s.left ≤ line.length)
      (processMethodTokens fuel (ofLine line)) := by
    refine (methodTokens_ends hregular hfirst (by omega)).bind fun method s hs hle => ?_
    dsimp only
    split
    next => exact Nat.zero_le _
    next => exact ⟨hs, hle.trans (hleft.trans hline.le)⟩
  have hparameters (s : MethodInvocation) (hs : Good line s) (hle : s.left ≤ line.length) :
      EndsIn line (fun s' => s'.left ≤ s.left) (processParameterTokens fuel s) :=
    (process_ends hregular fuel).2.1 [] s hs (by omega)
  rw [parse]
  match processMethodTokens fuel (ofLine line), hmethod with
  | .error (.syntaxError index), h => exact h
  | .ok (method, s), h =>
      show Reads line.length (processParameterTokens fuel s >>= fun x => pure (method, x.1))
      match processParameterTokens fuel s, hparameters s h.1 h.2 with
      | .error (.syntaxError index), h => exact h
      | .ok (tokens, s), h => trivial

end Invocations

/-- **The tokenizer and the reading keep what is promised of a line exactly where every state of the run is regular.** -/
theorem promised_iff (line s : List UInt8) : Promised line s ↔ ∀ t, Reaches line t → Regular t := by
  constructor
  · intro hpromised t ht
    exact (callFine_iff (within_of_reaches ht)).mp (hpromised.calls t ht)
  · intro hregular
    refine ⟨fun t ht => (callFine_iff (within_of_reaches ht)).mpr (hregular t ht),
      fun parseIndex rest => token_quoted s rest parseIndex, 4 * line.length + 2, fun fuel hfuel => ?_⟩
    exact parse_reads hregular hfuel

/-- `a "` -/
theorem not_promised : ¬ ∀ line s : List UInt8, Promised line s := by
  intro hpromised
  have hcall := (hpromised [97, 32, 34] []).calls _ (.call .start (by decide) (by decide))
  exact hcall.inside (by decide)

end EmbeddedInfra.EchoConsole
