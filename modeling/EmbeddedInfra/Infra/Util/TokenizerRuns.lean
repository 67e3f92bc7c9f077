import Mathlib.Data.List.TakeWhile
import EmbeddedInfra.Infra.Util.Tokenizer

set_option autoImplicit false

/-! # Tokens and the runs of a string

`infra::Tokenizer` on the positions that it passes around, an index, the size of the string or `npos`.
The tokens are the maximal runs of characters between separators. `Size()` counts positions until it
comes to `npos`; the size of the string, where it comes behind a separator at the end, is one of them.
-/

namespace EmbeddedInfra.Tokenizer.Positions

/-- A position, `none` for `npos`. -/
abbrev Position := Option Nat

variable (separator : UInt8) (string : BoundedString)

/-! ## The tokenizer -/

/-- The loop of `BoundedString::find`, on the characters from the index on. -/
def findLoop : BoundedString → Nat → Position
  | [], _ => none
  | c :: rest, index => if c = separator then some index else findLoop rest (index + 1)

/-- `string.find(separator, start)` -/
def find (start : Nat) : Position := findLoop separator (string.drop start) start

/-- The loop of `SkipConsecutiveSeparators`, on the characters from the index on. -/
def skipLoop : BoundedString → Nat → Nat
  | [], index => index
  | c :: rest, index => if c = separator then skipLoop rest (index + 1) else index

/-- `npos` is not less than the size of the string. -/
def skipConsecutiveSeparators : Position → Position
  | none => none
  | some index => some (skipLoop separator (string.drop index) index)

def startOfNextToken (start : Nat) : Position :=
  skipConsecutiveSeparators separator string (find separator string start)

/-- The loop of `SkipTokens`. -/
def skipLoopTokens : Nat → Position → Position
  | 0, start => start
  | _ + 1, none => none
  | tokenIndex + 1, some start => skipLoopTokens tokenIndex (startOfNextToken separator string start)

def skipTokens (tokenIndex : Nat) : Position :=
  skipLoopTokens separator string tokenIndex (skipConsecutiveSeparators separator string (some 0))

/-- The token ends at the next separator. `npos - start` is not less than the size of the rest. -/
def makeToken : Position → BoundedString
  | none => []
  | some start =>
      if start < string.length then
        match find separator string start with
        | some tokenEnd => string.substr start (tokenEnd - start)
        | none => string.substr start (string.length - start)
      else []

def token (tokenIndex : Nat) : BoundedString :=
  makeToken separator string (skipTokens separator string tokenIndex)

def tokenAndRest (tokenIndex : Nat) : BoundedString :=
  match skipTokens separator string tokenIndex with
  | some start => string.drop start
  | none => []

/-! ## What the loops find -/

variable {separator string} {index start : Nat}

theorem findLoop_spec (rest : BoundedString) (index : Nat) :
    (findLoop separator rest index = none ∧ ∀ j : Nat, rest[j]? ≠ some separator) ∨
      ∃ n : Nat, findLoop separator rest index = some (index + n) ∧ rest[n]? = some separator ∧
        ∀ j < n, rest[j]? ≠ some separator := by
  induction rest generalizing index with
  | nil => exact Or.inl ⟨rfl, by simp⟩
  | cons c rest ih =>
      by_cases hc : c = separator
      · exact Or.inr ⟨0, by simp [findLoop, hc], by simp [hc], by simp⟩
      · rw [findLoop, if_neg hc]
        rcases ih (index + 1) with ⟨hnone, hall⟩ | ⟨n, hsome, hn, hall⟩
        · refine Or.inl ⟨hnone, fun j => ?_⟩
          rcases j with _ | j
          · simpa using hc
          · exact hall j
        · refine Or.inr ⟨n + 1, ?_, hn, fun j hj => ?_⟩
          · rw [hsome]
            congr 1
            omega
          · rcases j with _ | j
            · simpa using hc
            · exact hall j (by omega)

theorem skipLoop_spec (rest : BoundedString) (index : Nat) :
    ∃ n ≤ rest.length, skipLoop separator rest index = index + n ∧ rest[n]? ≠ some separator ∧
      ∀ j < n, rest[j]? = some separator := by
  induction rest generalizing index with
  | nil => exact ⟨0, le_rfl, rfl, by simp, by simp⟩
  | cons c rest ih =>
      by_cases hc : c = separator
      · obtain ⟨n, hle, heq, hn, hall⟩ := ih (index + 1)
        refine ⟨n + 1, by simpa using hle, ?_, hn, fun j hj => ?_⟩
        · rw [skipLoop, if_pos hc, heq]
          omega
        · rcases j with _ | j
          · simp [hc]
          · exact hall j (by omega)
      · exact ⟨0, by simp, by simp [skipLoop, hc], by simpa using hc, by simp⟩

/-- There is no separator from the start on, or the first one is found. -/
theorem find_cases (start : Nat) :
    (find separator string start = none ∧ ∀ j, start ≤ j → string[j]? ≠ some separator) ∨
      ∃ tokenEnd, find separator string start = some tokenEnd ∧ start ≤ tokenEnd ∧
        string[tokenEnd]? = some separator ∧ ∀ j, start ≤ j → j < tokenEnd → string[j]? ≠ some separator := by
  rcases findLoop_spec (string.drop start) start with ⟨hnone, hall⟩ | ⟨n, hsome, hn, hall⟩
  · refine Or.inl ⟨hnone, fun j hj => ?_⟩
    have h := hall (j - start)
    rwa [List.getElem?_drop, Nat.add_sub_cancel' hj] at h
  · refine Or.inr ⟨start + n, hsome, by omega, by rwa [List.getElem?_drop] at hn, fun j hj hlt => ?_⟩
    have h := hall (j - start) (by omega)
    rwa [List.getElem?_drop, Nat.add_sub_cancel' hj] at h

theorem skip_cases (hindex : index ≤ string.length) :
    ∃ next, skipConsecutiveSeparators separator string (some index) = some next ∧ index ≤ next ∧
      next ≤ string.length ∧ string[next]? ≠ some separator ∧
      ∀ j, index ≤ j → j < next → string[j]? = some separator := by
  obtain ⟨n, hle, heq, hn, hall⟩ := skipLoop_spec (string.drop index) index
  refine ⟨index + n, congrArg some heq, by omega, ?_, by rwa [List.getElem?_drop] at hn, fun j hj hlt => ?_⟩
  · rw [List.length_drop] at hle
    omega
  · have h := hall (j - index) (by omega)
    rwa [List.getElem?_drop, Nat.add_sub_cancel' hj] at h

theorem lt_length_of_getElem? {j : Nat} (h : string[j]? = some separator) : j < string.length := by
  by_contra hn
  rw [List.getElem?_eq_none_iff.mpr (by omega)] at h
  cases h

/-- The next position lies behind the separator at which the token ends. -/
theorem startOfNextToken_cases (start : Nat) :
    (startOfNextToken separator string start = none ∧ ∀ j, start ≤ j → string[j]? ≠ some separator) ∨
      ∃ tokenEnd next, startOfNextToken separator string start = some next ∧ start ≤ tokenEnd ∧ tokenEnd < next ∧
        next ≤ string.length ∧ string[next]? ≠ some separator ∧
        (∀ j, start ≤ j → j < tokenEnd → string[j]? ≠ some separator) ∧
        ∀ j, tokenEnd ≤ j → j < next → string[j]? = some separator := by
  rcases find_cases start with ⟨hnone, hall⟩ |
    ⟨tokenEnd, hsome, hle, hend, hbefore⟩
  · exact Or.inl ⟨by rw [startOfNextToken, hnone]; rfl, hall⟩
  · have hlt := lt_length_of_getElem? hend
    obtain ⟨next, hnext, hle', hlen, hne, hskipped⟩ := skip_cases hlt.le
    refine Or.inr ⟨tokenEnd, next, ?_, hle, ?_, hlen, hne, hbefore, hskipped⟩
    · rw [startOfNextToken, hsome, hnext]
    · rcases Nat.lt_or_ge tokenEnd next with h | h
      · exact h
      · -- the separator itself is skipped
        have heq : next = tokenEnd := by omega
        exact absurd (heq ▸ hend) hne

theorem lt_of_startOfNextToken {next : Nat} (h : startOfNextToken separator string start = some next) :
    start < next ∧ next ≤ string.length := by
  rcases startOfNextToken_cases start with ⟨hnone, -⟩ |
    ⟨tokenEnd, next', hsome, hle, hlt, hlen, -⟩
  · rw [hnone] at h
    cases h
  · rw [hsome] at h
    cases h
    exact ⟨by omega, hlen⟩

variable (separator string)

/-- The loop of `Size`, from a position that is not `npos`. -/
def sizeFrom (start : Nat) : Nat :=
  match h : startOfNextToken separator string start with
  | none => 1
  | some next => sizeFrom next + 1
  termination_by string.length - start
  decreasing_by
    have := lt_of_startOfNextToken h
    omega

def size : Nat :=
  match skipConsecutiveSeparators separator string (some 0) with
  | none => 0
  | some start => sizeFrom separator string start

/-! ## Runs -/

/-- A maximal run of other characters than the separator starts here. -/
def startsRun (index : Nat) : Bool :=
  string[index]? != some separator && (index == 0 || string[index - 1]? == some separator)

/-- The indices at which the maximal runs start, in their order. -/
def runStarts : List Nat := (List.range string.length).filter (startsRun separator string)

/-- The string is empty, or ends with a separator. -/
def EndsOpen : Prop := string = [] ∨ string.getLast? = some separator

instance : Decidable (EndsOpen separator string) := inferInstanceAs (Decidable (_ ∨ _))

/-- What is promised of the tokenizer. -/
structure SplitsIntoRuns : Prop where
  size : size separator string = (runStarts separator string).length
  token : ∀ i, token separator string i =
    ((runStarts separator string)[i]?.map fun start => (string.drop start).takeWhile (· != separator)).getD []
  tokenAndRest : ∀ i, tokenAndRest separator string i =
    ((runStarts separator string)[i]?.map string.drop).getD []

/-- The runs that start at the index or behind it. -/
def runsFrom (index : Nat) : List Nat :=
  (List.range' index (string.length - index)).filter (startsRun separator string)

variable {separator string}

theorem runStarts_eq : runStarts separator string = runsFrom separator string 0 := by
  rw [runStarts, runsFrom, List.range_eq_range', Nat.sub_zero]

theorem runsFrom_of_le (h : string.length ≤ index) : runsFrom separator string index = [] := by
  rw [runsFrom, Nat.sub_eq_zero_of_le h]
  rfl

/-- No run starts in between. -/
theorem runsFrom_skip {next : Nat} (hle : index ≤ next) (hlen : next ≤ string.length)
    (hnone : ∀ j, index ≤ j → j < next → startsRun separator string j = false) :
    runsFrom separator string index = runsFrom separator string next := by
  have hsplit : List.range' index (string.length - index) =
      List.range' index (next - index) ++ List.range' next (string.length - next) := by
    have h := List.range'_append_1 (s := index) (m := next - index) (n := string.length - next)
    rw [Nat.add_sub_cancel' hle] at h
    rw [h]
    congr 1
    omega
  have hfilter : (List.range' index (next - index)).filter (startsRun separator string) = [] := by
    rw [List.filter_eq_nil_iff]
    intro j hj
    rw [List.mem_range'_1] at hj
    rw [hnone j (by omega) (by omega)]
    simp
  rw [runsFrom, hsplit, List.filter_append, hfilter, List.nil_append, runsFrom]

theorem runsFrom_start (hlt : start < string.length) (h : startsRun separator string start = true) :
    runsFrom separator string start = start :: runsFrom separator string (start + 1) := by
  have hlen : string.length - start = (string.length - (start + 1)) + 1 := by omega
  rw [runsFrom, hlen, List.range'_succ, List.filter_cons_of_pos h, runsFrom]

/-- The position is the start of the first of the runs that are left. When there are none it
is `npos`, or the size of a string that ends open. -/
inductive At : Position → List Nat → Prop where
  | run {start : Nat} (hlt : start < string.length) (hne : string[start]? ≠ some separator) :
      At (some start) (start :: runsFrom separator string (start + 1))
  | openEnd (h : EndsOpen separator string) : At (some string.length) []
  | done (h : ¬ EndsOpen separator string) : At none []

/-- Separators have been skipped from a border on. -/
theorem at_skipped {next : Nat} (hle : index ≤ next) (hlen : next ≤ string.length)
    (hne : string[next]? ≠ some separator) (hskipped : ∀ j, index ≤ j → j < next → string[j]? = some separator)
    (hborder : next = 0 ∨ string[next - 1]? = some separator) :
    @At separator string (some next) (runsFrom separator string index) := by
  have hskip : runsFrom separator string index = runsFrom separator string next := by
    apply runsFrom_skip hle hlen
    intro j hj hlt
    simp [startsRun, hskipped j hj hlt]
  rw [hskip]
  rcases Nat.lt_or_ge next string.length with hlt | hge
  · rw [runsFrom_start hlt (by simpa [startsRun, hne] using hborder)]
    exact At.run hlt hne
  · rw [runsFrom_of_le hge]
    have heq : next = string.length := by omega
    subst heq
    apply At.openEnd
    rcases hborder with hzero | hlast
    · exact Or.inl (List.length_eq_zero_iff.mp hzero)
    · exact Or.inr (by rwa [List.getLast?_eq_getElem?])

/-- At the end of the string there is no separator. -/
theorem not_endsOpen (hlt : start < string.length)
    (hall : ∀ j, start ≤ j → string[j]? ≠ some separator) : ¬ EndsOpen separator string := by
  rintro (rfl | hlast)
  · simp at hlt
  · rw [List.getLast?_eq_getElem?] at hlast
    exact hall _ (by omega) hlast

theorem At.next {start : Nat} (hlt : start < string.length) (hne : string[start]? ≠ some separator) :
    @At separator string (startOfNextToken separator string start)
      (runsFrom separator string (start + 1)) := by
  have hinside (j : Nat) (hj : start < j) (hbefore : string[j - 1]? ≠ some separator) :
      startsRun separator string j = false := by
    have hj0 : j ≠ 0 := by omega
    simp [startsRun, hj0, hbefore]
  rcases startOfNextToken_cases start with ⟨hnone, hall⟩ |
    ⟨tokenEnd, next, hsome, hle, hlt', hlen, hnext, hbefore, hskipped⟩
  · have hrest : runsFrom separator string (start + 1) = runsFrom separator string string.length := by
      apply runsFrom_skip (by omega) le_rfl
      exact fun j hj _ => hinside j (by omega) (hall _ (by omega))
    rw [hnone, hrest, runsFrom_of_le le_rfl]
    exact At.done (not_endsOpen hlt hall)
  · -- the rest of the token starts no run, and neither do the separators behind it
    have hend : start < tokenEnd := by
      rcases Nat.lt_or_ge start tokenEnd with h | h
      · exact h
      · have heq : tokenEnd = start := by omega
        exact absurd (heq ▸ hskipped tokenEnd le_rfl hlt') hne
    have hrest : runsFrom separator string (start + 1) = runsFrom separator string tokenEnd := by
      apply runsFrom_skip (by omega) (by omega)
      exact fun j hj hlt => hinside j (by omega) (hbefore _ (by omega) (by omega))
    rw [hsome, hrest]
    exact at_skipped (by omega) hlen hnext hskipped (Or.inr (hskipped _ (by omega) (by omega)))

theorem at_start : @At separator string
    (skipConsecutiveSeparators separator string (some 0)) (runStarts separator string) := by
  obtain ⟨next, hnext, hle, hlen, hne, hskipped⟩ :=
    skip_cases (Nat.zero_le _)
  rw [hnext, runStarts_eq]
  apply at_skipped hle hlen hne hskipped
  rcases Nat.eq_zero_or_pos next with hzero | hpos
  · exact Or.inl hzero
  · exact Or.inr (hskipped _ (by omega) (by omega))

theorem startOfNextToken_length : startOfNextToken separator string string.length = none := by
  rcases startOfNextToken_cases string.length with ⟨hnone, -⟩ |
    ⟨tokenEnd, next, -, hle, hlt, hlen, -⟩
  · exact hnone
  · omega

/-- Each turn of the loop passes a run. Behind the last one there is the end of the string or `npos`. -/
theorem At.skipTokens {position : Position} {runs : List Nat}
    (h : @At separator string position runs) (tokenIndex : Nat) :
    @At separator string (skipLoopTokens separator string tokenIndex position)
        (runs.drop tokenIndex) ∨
      skipLoopTokens separator string tokenIndex position = none ∧ runs.drop tokenIndex = [] := by
  induction tokenIndex generalizing position runs with
  | zero => exact Or.inl h
  | succ tokenIndex ih =>
      cases h with
      | run hlt hne => exact ih (At.next hlt hne)
      | openEnd hopen =>
          have hnone (n : Nat) : skipLoopTokens separator string n none = none := by
            cases n <;> rfl
          rw [skipLoopTokens, startOfNextToken_length, hnone]
          exact Or.inr ⟨rfl, by simp⟩
      | done hdone => exact Or.inl (by simpa [skipLoopTokens] using At.done hdone)

theorem sizeFrom_of_some {next : Nat} (h : startOfNextToken separator string start = some next) :
    sizeFrom separator string start = sizeFrom separator string next + 1 := by
  rw [sizeFrom]
  split
  · rename_i hnone
    rw [h] at hnone
    cases hnone
  · rename_i hsome
    rw [h] at hsome
    cases hsome
    rfl

theorem sizeFrom_of_none (h : startOfNextToken separator string start = none) :
    sizeFrom separator string start = 1 := by
  rw [sizeFrom]
  split
  · rfl
  · rename_i hsome
    rw [h] at hsome
    cases hsome

/-- The loop counts the runs, and the open end. -/
theorem At.sizeFrom {runs : List Nat} (h : @At separator string (some start) runs) :
    sizeFrom separator string start = runs.length + if EndsOpen separator string then 1 else 0 := by
  induction runs generalizing start with
  | nil =>
      cases h with
      | openEnd hopen => rw [sizeFrom_of_none startOfNextToken_length, if_pos hopen, List.length_nil]
  | cons first runs ih =>
      cases h with
      | run hlt hne =>
          have hnext := At.next hlt hne
          rcases hposition : startOfNextToken separator string first with _ | next
          · rw [hposition] at hnext
            generalize hruns : runsFrom separator string (first + 1) = rest at hnext
            cases hnext with
            | done hdone => rw [sizeFrom_of_none hposition, if_neg hdone, List.length_singleton]
          · rw [hposition] at hnext
            rw [sizeFrom_of_some hposition, ih hnext, List.length_cons]
            omega

theorem size_eq :
    size separator string = (runStarts separator string).length + if EndsOpen separator string then 1 else 0 := by
  have h := @at_start separator string
  obtain ⟨next, hnext, -⟩ := skip_cases (Nat.zero_le _)
  rw [hnext] at h
  rw [size, hnext]
  exact h.sizeFrom

/-! ## The tokens -/

theorem takeWhile_drop {tokenEnd : Nat} (hle : start ≤ tokenEnd)
    (hend : tokenEnd = string.length ∨ string[tokenEnd]? = some separator)
    (hbefore : ∀ j, start ≤ j → j < tokenEnd → string[j]? ≠ some separator) :
    (string.drop start).takeWhile (· != separator) = string.substr start (tokenEnd - start) := by
  have hinside : ∀ c ∈ (string.drop start).take (tokenEnd - start), (c != separator) = true := by
    intro c hc
    obtain ⟨j, hj, rfl⟩ := List.mem_iff_getElem.mp hc
    rw [List.length_take, List.length_drop] at hj
    have h := hbefore (start + j) (by omega) (by omega)
    rw [List.getElem_take, List.getElem_drop]
    rw [List.getElem?_eq_getElem (by omega)] at h
    simpa using h
  rw [BoundedString.substr, ← List.take_append_drop (tokenEnd - start) (string.drop start),
    List.takeWhile_append_of_pos hinside, List.take_append_drop, List.drop_drop, Nat.add_sub_cancel' hle]
  rcases hend with rfl | hend
  · simp
  · have hlt := lt_length_of_getElem? hend
    rw [List.drop_eq_getElem_cons hlt]
    rw [List.getElem?_eq_getElem hlt, Option.some_inj] at hend
    simp [hend]

theorem makeToken_some (hlt : start < string.length) :
    makeToken separator string (some start) = (string.drop start).takeWhile (· != separator) := by
  rw [makeToken, if_pos hlt]
  rcases find_cases start with ⟨hnone, hall⟩ |
    ⟨tokenEnd, hsome, hle, hend, hbefore⟩
  · rw [hnone]
    exact (takeWhile_drop hlt.le (Or.inl rfl) fun j hj _ => hall j hj).symm
  · rw [hsome]
    exact (takeWhile_drop hle (Or.inr hend) hbefore).symm

/-- What the position is for the token and for the rest. -/
theorem skipTokens_cases (i : Nat) :
    (∃ start, skipTokens separator string i = some start ∧ start < string.length ∧
        (runStarts separator string)[i]? = some start) ∨
      (skipTokens separator string i = none ∨ skipTokens separator string i = some string.length) ∧
        (runStarts separator string)[i]? = none := by
  have hhead (runs : List Nat) (h : (runStarts separator string).drop i = runs) :
      (runStarts separator string)[i]? = runs.head? := by
    rw [← h, List.head?_drop]
  rcases at_start.skipTokens i with h | ⟨hnone, hnil⟩
  · generalize hruns : (runStarts separator string).drop i = runs at h
    generalize hposition : skipLoopTokens separator string i
      (skipConsecutiveSeparators separator string (some 0)) = position at h
    cases h with
    | run hlt hne => exact Or.inl ⟨_, hposition, hlt, hhead _ hruns⟩
    | openEnd hopen => exact Or.inr ⟨Or.inr hposition, hhead _ hruns⟩
    | done hdone => exact Or.inr ⟨Or.inl hposition, hhead _ hruns⟩
  · exact Or.inr ⟨Or.inl hnone, hhead _ hnil⟩

theorem token_eq (i : Nat) : token separator string i =
    ((runStarts separator string)[i]?.map fun start => (string.drop start).takeWhile (· != separator)).getD [] := by
  rw [token]
  rcases skipTokens_cases i with ⟨start, hskip, hlt, hrun⟩ |
    ⟨hskip | hskip, hrun⟩
  · rw [hskip, hrun, makeToken_some hlt]
    rfl
  · rw [hskip, hrun]
    rfl
  · rw [hskip, hrun, makeToken, if_neg (lt_irrefl _)]
    rfl

theorem tokenAndRest_eq (i : Nat) : tokenAndRest separator string i =
    ((runStarts separator string)[i]?.map string.drop).getD [] := by
  rw [tokenAndRest]
  rcases skipTokens_cases i with ⟨start, hskip, -, hrun⟩ |
    ⟨hskip | hskip, hrun⟩
  · rw [hskip, hrun]
    rfl
  · rw [hskip, hrun]
    rfl
  · rw [hskip, hrun]
    exact List.drop_length

/-! ## Positions and suffixes

`Infra/Util/Tokenizer.lean` has the suffix of the string in place of a position. -/

/-- The part of the string from the position on. -/
def suffixAt (string : BoundedString) : Position → BoundedString
  | none => []
  | some index => string.drop index

theorem drop_findLoop (rest : BoundedString) (index : Nat) :
    findLoop separator rest index = none ∧ rest.dropWhile (· != separator) = [] ∨
      ∃ n, findLoop separator rest index = some (index + n) ∧ rest.dropWhile (· != separator) = rest.drop n := by
  induction rest generalizing index with
  | nil => exact Or.inl ⟨rfl, rfl⟩
  | cons c rest ih =>
      by_cases hc : c = separator
      · exact Or.inr ⟨0, by simp [findLoop, hc], by simp [hc]⟩
      · rw [findLoop, if_neg hc, List.dropWhile_cons_of_pos (by simpa using hc)]
        rcases ih (index + 1) with hnone | ⟨n, hsome, hdrop⟩
        · exact Or.inl hnone
        · refine Or.inr ⟨n + 1, ?_, hdrop⟩
          rw [hsome, Nat.add_assoc, Nat.add_comm 1]

theorem suffixAt_find (start : Nat) :
    suffixAt string (find separator string start) = (string.drop start).dropWhile (· != separator) := by
  rw [find]
  rcases drop_findLoop (string.drop start) start with ⟨hnone, hdrop⟩ | ⟨n, hsome, hdrop⟩
  · rw [hnone, hdrop]
    rfl
  · rw [hsome, hdrop, List.drop_drop]
    rfl

theorem drop_skipLoop (rest : BoundedString) (index : Nat) :
    ∃ n, skipLoop separator rest index = index + n ∧ rest.dropWhile (· == separator) = rest.drop n := by
  induction rest generalizing index with
  | nil => exact ⟨0, rfl, rfl⟩
  | cons c rest ih =>
      by_cases hc : c = separator
      · obtain ⟨n, heq, hdrop⟩ := ih (index + 1)
        refine ⟨n + 1, ?_, ?_⟩
        · rw [skipLoop, if_pos hc, heq, Nat.add_assoc, Nat.add_comm 1]
        · rw [List.dropWhile_cons_of_pos (by simpa using hc), hdrop, List.drop_succ_cons]
      · exact ⟨0, by simp [skipLoop, hc], by simp [hc]⟩

theorem suffixAt_skip (position : Position) :
    suffixAt string (skipConsecutiveSeparators separator string position) =
      Tokenizer.skipConsecutiveSeparators separator (suffixAt string position) := by
  rcases position with _ | index
  · rfl
  · obtain ⟨n, heq, hdrop⟩ := drop_skipLoop (string.drop index) index
    rw [skipConsecutiveSeparators, heq, suffixAt, suffixAt, Tokenizer.skipConsecutiveSeparators, hdrop,
      List.drop_drop]

theorem suffixAt_startOfNextToken (start : Nat) :
    suffixAt string (startOfNextToken separator string start) =
      Tokenizer.startOfNextToken separator (string.drop start) := by
  rw [startOfNextToken, suffixAt_skip, suffixAt_find, Tokenizer.startOfNextToken]

theorem suffixAt_skipTokens (i : Nat) :
    suffixAt string (skipTokens separator string i) = Tokenizer.skipTokens separator i string := by
  have hloop (position : Position) : suffixAt string (skipLoopTokens separator string i position) =
      (Tokenizer.startOfNextToken separator)^[i] (suffixAt string position) := by
    induction i generalizing position with
    | zero => rfl
    | succ i ih =>
        rw [Function.iterate_succ_apply]
        rcases position with _ | start
        · -- behind the last token nothing is left
          have hnone : skipLoopTokens separator string (i + 1) none = skipLoopTokens separator string i none := by
            cases i <;> rfl
          rw [hnone, ih]
          rfl
        · rw [skipLoopTokens, ih, suffixAt_startOfNextToken, suffixAt]
  rw [skipTokens, hloop, suffixAt_skip]
  rfl

/-- The tokens are those of the suffixes. -/
theorem token_eq_suffix (i : Nat) : token separator string i = Tokenizer.token separator i string := by
  rw [token, Tokenizer.token, ← suffixAt_skipTokens, Tokenizer.makeToken]
  rcases hposition : skipTokens separator string i with _ | start
  · rfl
  · rcases Nat.lt_or_ge start string.length with hlt | hge
    · exact makeToken_some hlt
    · rw [makeToken, if_neg (by omega), suffixAt, List.drop_eq_nil_of_le hge]
      rfl

/-! ## Labels

A string that consists of labels, with one separator between two of them. -/

/-- Labels that can be told apart. -/
def AreLabels (separator : UInt8) (labels : List BoundedString) : Prop :=
  ∀ label ∈ labels, label ≠ [] ∧ separator ∉ label

section Labels

variable {labels : List BoundedString} {label : BoundedString}

theorem AreLabels.head (h : AreLabels separator (label :: labels)) : label ≠ [] ∧ separator ∉ label :=
  h label List.mem_cons_self

theorem AreLabels.tail (h : AreLabels separator (label :: labels)) : AreLabels separator labels :=
  fun label' hmem => h label' (List.mem_cons_of_mem label hmem)

theorem AreLabels.skip (h : AreLabels separator labels) :
    Tokenizer.skipConsecutiveSeparators separator ([separator].intercalate labels) = [separator].intercalate labels := by
  refine skipConsecutiveSeparators_of_head ?_
  rcases labels with _ | ⟨label, _ | ⟨label', labels⟩⟩
  · simp
  · rw [List.intercalate_singleton]
    have hhead := @head?_append_of_ne_nil _ _ [] h.head.1 h.head.2
    rwa [List.append_nil] at hhead
  · rw [List.intercalate_cons_cons, List.append_assoc]
    exact head?_append_of_ne_nil h.head.1 h.head.2

theorem AreLabels.startOfNextToken (h : AreLabels separator (label :: labels)) :
    Tokenizer.startOfNextToken separator ([separator].intercalate (label :: labels)) =
      [separator].intercalate labels := by
  have hlabel : ∀ c ∈ label, (c != separator) = true := by
    intro c hc
    rw [bne_iff_ne]
    rintro rfl
    exact h.head.2 hc
  rw [Tokenizer.startOfNextToken]
  rcases labels with _ | ⟨label', labels⟩
  · rw [List.intercalate_singleton, List.dropWhile_eq_nil_iff.mpr hlabel]
    rfl
  · rw [List.intercalate_cons_cons, List.append_assoc, List.dropWhile_append_of_pos hlabel]
    have hskip := h.tail.skip
    simpa [Tokenizer.skipConsecutiveSeparators] using hskip

theorem AreLabels.skipTokens (h : AreLabels separator labels) (i : Nat) :
    Tokenizer.skipTokens separator i ([separator].intercalate labels) = [separator].intercalate (labels.drop i) := by
  rw [Tokenizer.skipTokens, h.skip]
  induction i generalizing labels with
  | zero => rfl
  | succ i ih =>
      rw [Function.iterate_succ_apply]
      rcases labels with _ | ⟨label, labels⟩
      · rw [List.drop_nil]
        have hnil := ih h
        rwa [List.drop_nil] at hnil
      · rw [h.startOfNextToken, ih h.tail, List.drop_succ_cons]

/-- **The tokens are the labels.** -/
theorem AreLabels.token_eq (h : AreLabels separator labels) (i : Nat) :
    token separator ([separator].intercalate labels) i = labels[i]?.getD [] := by
  rw [token_eq_suffix, Tokenizer.token, h.skipTokens, Tokenizer.makeToken, ← List.head?_drop]
  rcases hdrop : labels.drop i with _ | ⟨label, _ | ⟨label', rest⟩⟩
  · rfl
  · have hmem : label ∈ labels := List.mem_of_mem_drop (hdrop ▸ List.mem_cons_self)
    rw [List.intercalate_singleton, List.takeWhile_eq_self_iff.mpr]
    · rfl
    · intro c hc
      rw [bne_iff_ne]
      rintro rfl
      exact (h label hmem).2 hc
  · have hmem : label ∈ labels := List.mem_of_mem_drop (hdrop ▸ List.mem_cons_self)
    rw [List.intercalate_cons_cons, List.append_assoc]
    exact makeToken_append (h label hmem).2

theorem AreLabels.not_endsOpen (h : AreLabels separator labels) (hne : labels ≠ []) :
    ¬ EndsOpen separator ([separator].intercalate labels) := by
  induction labels with
  | nil => exact absurd rfl hne
  | cons label labels ih =>
      rcases labels with _ | ⟨label', labels⟩
      · rw [List.intercalate_singleton]
        rintro (hnil | hlast)
        · exact h.head.1 hnil
        · exact h.head.2 (List.mem_of_getLast? hlast)
      · have hrest := ih h.tail (List.cons_ne_nil label' labels)
        rw [EndsOpen, not_or] at hrest ⊢
        rw [List.intercalate_cons_cons, List.append_assoc]
        constructor
        · simp [h.head.1]
        · rw [List.getLast?_append, List.getLast?_append]
          rcases hlast : ([separator].intercalate (label' :: labels)).getLast? with _ | last
          · exact absurd (List.getLast?_eq_none_iff.mp hlast) hrest.1
          · rw [hlast] at hrest
            simpa using hrest.2

theorem token_ne_nil_iff (i : Nat) : token separator string i ≠ [] ↔ i < (runStarts separator string).length := by
  rw [Positions.token_eq]
  constructor
  · intro hne
    by_contra hge
    rw [List.getElem?_eq_none (not_lt.mp hge)] at hne
    exact hne rfl
  · intro hlt
    have hmem : (runStarts separator string)[i] ∈ runStarts separator string := List.getElem_mem hlt
    have hrun := List.mem_filter.mp hmem
    have hstart := hrun.2
    have hbound := List.mem_range.mp hrun.1
    rw [startsRun, Bool.and_eq_true, List.getElem?_eq_getElem hbound] at hstart
    rw [List.getElem?_eq_getElem hlt, Option.map_some, Option.getD_some, List.drop_eq_getElem_cons hbound,
      List.takeWhile_cons_of_pos (by simpa using hstart.1)]
    exact List.cons_ne_nil _ _

/-- **As many tokens are counted as there are labels.** -/
theorem AreLabels.size_eq (h : AreLabels separator labels) (hne : labels ≠ []) :
    size separator ([separator].intercalate labels) = labels.length := by
  rw [Positions.size_eq, if_neg (h.not_endsOpen hne), Nat.add_zero]
  have hlabel (i : Nat) : i < (runStarts separator ([separator].intercalate labels)).length ↔ i < labels.length := by
    rw [← token_ne_nil_iff, h.token_eq]
    constructor
    · intro hlabel
      by_contra hge
      rw [List.getElem?_eq_none (not_lt.mp hge)] at hlabel
      exact hlabel rfl
    · intro hlt
      rw [List.getElem?_eq_getElem hlt, Option.getD_some]
      exact (h _ (List.getElem_mem hlt)).1
  refine Nat.le_antisymm ?_ ?_
  · by_contra hmore
    exact lt_irrefl _ ((hlabel labels.length).mp (not_le.mp hmore))
  · by_contra hmore
    exact lt_irrefl _ ((hlabel _).mpr (not_le.mp hmore))

end Labels

/-- **The tokenizer splits a string into its maximal runs** if and only if the string is not empty and
does not end with a separator. The tokens themselves are always right. -/
theorem tokenizer_splits_iff (separator : UInt8) (string : BoundedString) :
    SplitsIntoRuns separator string ↔ string ≠ [] ∧ string.getLast? ≠ some separator := by
  rw [← not_or]
  change _ ↔ ¬ EndsOpen separator string
  constructor
  · intro h hopen
    have hsize := h.size
    rw [size_eq, if_pos hopen] at hsize
    omega
  · intro hclosed
    constructor
    · rw [size_eq, if_neg hclosed, Nat.add_zero]
    · exact token_eq
    · exact tokenAndRest_eq

/-- The empty string has no runs, but one token is counted. -/
theorem empty_string_has_token : ¬ ∀ separator string, SplitsIntoRuns separator string := by
  intro hall
  have h := (hall (char '.') []).size
  have hopen : EndsOpen (char '.') [] := Or.inl rfl
  rw [size_eq, if_pos hopen] at h
  cases h

end EmbeddedInfra.Tokenizer.Positions
