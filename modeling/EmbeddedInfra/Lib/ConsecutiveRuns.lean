import Mathlib.Data.List.Basic
import Mathlib.Data.List.Pairwise
import Mathlib.Tactic

set_option autoImplicit false

/-! # Runs of consecutive positions

A finite map on the natural numbers as a list of runs: a first position with the elements at consecutive positions
from there on. Runs that are in order and leave a gap between two of them are determined by the map.
-/

namespace ConsecutiveRuns

variable {α : Type}

/-- A first position, and the elements from there on. -/
abbrev Run (α : Type) := Nat × List α

/-- The elements with their positions. -/
def pairs : Nat → List α → List (Nat × α)
  | _, [] => []
  | position, element :: elements => (position, element) :: pairs (position + 1) elements

def contents (runs : List (Run α)) : List (Nat × α) := runs.flatMap fun run => pairs run.1 run.2

/-- There are no empty runs, and between two of them there is a gap. -/
structure Separated (runs : List (Run α)) : Prop where
  nonempty : ∀ run ∈ runs, run.2 ≠ []
  gaps : runs.Pairwise fun run run' => run.1 + run.2.length < run'.1

/-- There are no empty runs, and between two of them there is a gap of at least that size. -/
structure Spaced (gap : Nat) (runs : List (Run α)) : Prop where
  nonempty : ∀ run ∈ runs, run.2 ≠ []
  apart : runs.Pairwise fun run run' => run.1 + run.2.length + gap ≤ run'.1

/-- The runs of pairs in order. -/
def group : List (Nat × α) → List (Run α)
  | [] => []
  | (position, element) :: rest =>
      match group rest with
      | (first, elements) :: runs =>
          if first = position + 1 then (position, element :: elements) :: runs
          else (position, [element]) :: (first, elements) :: runs
      | [] => [(position, [element])]

variable {runs runs' : List (Run α)} {run : Run α} {position gap : Nat} {elements : List α}

/-! ## Pairs -/

theorem mem_pairs {first position : Nat} {element : α} :
    (position, element) ∈ pairs first elements ↔
      first ≤ position ∧ elements[position - first]? = some element := by
  induction elements generalizing first with
  | nil => simp [pairs]
  | cons head elements ih =>
      rw [pairs, List.mem_cons, ih, Prod.mk.injEq]
      constructor
      · rintro (⟨rfl, rfl⟩ | ⟨hle, helement⟩)
        · simp
        · refine ⟨by omega, ?_⟩
          rw [show position - first = position - (first + 1) + 1 by omega]
          exact helement
      · rintro ⟨hle, helement⟩
        rcases Nat.eq_or_lt_of_le hle with rfl | hlt
        · rw [Nat.sub_self] at helement
          exact Or.inl ⟨rfl, (Option.some.inj helement).symm⟩
        · rw [show position - first = position - (first + 1) + 1 by omega] at helement
          exact Or.inr ⟨hlt, helement⟩

theorem pairs_append (first : Nat) (elements elements' : List α) :
    pairs first (elements ++ elements') = pairs first elements ++ pairs (first + elements.length) elements' := by
  induction elements generalizing first with
  | nil => rfl
  | cons element elements ih =>
      rw [List.cons_append, pairs, ih, pairs, List.cons_append, List.length_cons]
      congr 3
      omega

theorem length_pairs (first : Nat) (elements : List α) : (pairs first elements).length = elements.length := by
  induction elements generalizing first with
  | nil => rfl
  | cons element elements ih => rw [pairs, List.length_cons, ih, List.length_cons]

theorem getElem?_pairs (first i : Nat) (elements : List α) :
    (pairs first elements)[i]? = elements[i]?.map fun element => (first + i, element) := by
  induction elements generalizing first i with
  | nil => simp [pairs]
  | cons element elements ih =>
      rcases i with _ | i
      · rfl
      · rw [pairs, List.getElem?_cons_succ, List.getElem?_cons_succ, ih]
        congr 2
        funext element
        congr 1
        omega

theorem mem_contents {element : α} : (position, element) ∈ contents runs ↔
    ∃ run ∈ runs, run.1 ≤ position ∧ run.2[position - run.1]? = some element := by
  rw [contents, List.mem_flatMap]
  simp only [mem_pairs]

/-- A position that has an element is in a run. -/
theorem lt_of_mem_contents {element : α} (h : (position, element) ∈ contents runs) :
    ∃ run ∈ runs, run.1 ≤ position ∧ position < run.1 + run.2.length := by
  obtain ⟨run, hrun, hle, helement⟩ := mem_contents.mp h
  obtain ⟨hlt, -⟩ := List.getElem?_eq_some_iff.mp helement
  exact ⟨run, hrun, hle, by omega⟩

theorem mem_contents_of_lt (hrun : run ∈ runs) (hle : run.1 ≤ position) (hlt : position < run.1 + run.2.length) :
    ∃ element, (position, element) ∈ contents runs := by
  have hbound : position - run.1 < run.2.length := by omega
  exact ⟨run.2[position - run.1], mem_contents.mpr ⟨run, hrun, hle, List.getElem?_eq_getElem hbound⟩⟩

/-! ## Separated runs -/

theorem Separated.tail (h : Separated (run :: runs)) : Separated runs where
  nonempty := fun run' hmem => h.nonempty run' (List.mem_cons_of_mem run hmem)
  gaps := h.gaps.of_cons

theorem Separated.lt_first (h : Separated (run :: runs)) {run' : Run α} (hmem : run' ∈ runs) :
    run.1 + run.2.length < run'.1 := List.rel_of_pairwise_cons h.gaps hmem

theorem pairwise_pairs (first : Nat) (elements : List α) :
    (pairs first elements).Pairwise fun pair pair' => pair.1 < pair'.1 := by
  induction elements generalizing first with
  | nil => exact .nil
  | cons element elements ih =>
      refine List.pairwise_cons.mpr ⟨?_, ih (first + 1)⟩
      rintro ⟨position, element'⟩ hmem
      exact (mem_pairs.mp hmem).1

theorem Separated.spaced (h : Separated runs) : Spaced 1 runs where
  nonempty := h.nonempty
  apart := h.gaps

theorem Spaced.separated (h : Spaced 1 runs) : Separated runs where
  nonempty := h.nonempty
  gaps := h.apart

theorem Spaced.tail (h : Spaced gap (run :: runs)) : Spaced gap runs where
  nonempty := fun run' hmem => h.nonempty run' (List.mem_cons_of_mem run hmem)
  apart := h.apart.of_cons

theorem Spaced.le_first (h : Spaced gap (run :: runs)) {run' : Run α} (hmem : run' ∈ runs) :
    run.1 + run.2.length + gap ≤ run'.1 := List.rel_of_pairwise_cons h.apart hmem

/-- **The positions ascend.** -/
theorem Spaced.pairwise_contents (h : Spaced gap runs) :
    (contents runs).Pairwise fun pair pair' => pair.1 < pair'.1 := by
  induction runs with
  | nil => exact .nil
  | cons run runs ih =>
      rw [contents, List.flatMap_cons, List.pairwise_append]
      refine ⟨pairwise_pairs run.1 run.2, ih h.tail, ?_⟩
      rintro ⟨position, element⟩ hmem ⟨position', element'⟩ hmem'
      obtain ⟨run', hrun', hle', -⟩ := mem_contents.mp hmem'
      obtain ⟨hle, helement⟩ := mem_pairs.mp hmem
      obtain ⟨hbound, -⟩ := List.getElem?_eq_some_iff.mp helement
      have hgap := h.le_first hrun'
      dsimp only
      omega

theorem group_pairs (first : Nat) {elements : List α} (hne : elements ≠ []) {rest : List (Nat × α)}
    (hgap : ∀ run ∈ group rest, first + elements.length < run.1) :
    group (pairs first elements ++ rest) = (first, elements) :: group rest := by
  induction elements generalizing first with
  | nil => exact absurd rfl hne
  | cons element elements ih =>
      rw [pairs, List.cons_append, group]
      rcases elements with _ | ⟨element', elements⟩
      · rw [pairs, List.nil_append]
        rcases hgroup : group rest with _ | ⟨run, runs⟩
        · rfl
        · have hlt := hgap run (hgroup ▸ List.mem_cons_self)
          rw [List.length_singleton] at hlt
          exact if_neg (by omega)
      · rw [ih (first + 1) (List.cons_ne_nil _ _)]
        · exact if_pos rfl
        · intro run hrun
          have hlt := hgap run hrun
          rw [List.length_cons] at hlt
          omega

theorem Separated.group_contents (h : Separated runs) : group (contents runs) = runs := by
  induction runs with
  | nil => rfl
  | cons run runs ih =>
      have hrest := ih h.tail
      rw [contents, List.flatMap_cons]
      change group (pairs run.1 run.2 ++ contents runs) = run :: runs
      rw [group_pairs run.1 (h.nonempty run List.mem_cons_self), hrest]
      rw [hrest]
      exact fun run' hmem => h.lt_first hmem

/-- **Separated runs are determined by what they contain.** -/
theorem Separated.eq_of_mem (h : Separated runs) (h' : Separated runs')
    (hsame : ∀ pair, pair ∈ contents runs ↔ pair ∈ contents runs') : runs = runs' := by
  have hnodup {runs : List (Run α)} (h : Separated runs) : (contents runs).Nodup :=
    h.spaced.pairwise_contents.imp fun hlt heq => absurd (heq ▸ hlt) (lt_irrefl _)
  have hperm : (contents runs).Perm (contents runs') := (List.perm_ext_iff_of_nodup (hnodup h) (hnodup h')).mpr hsame
  have hcontents : contents runs = contents runs' :=
    hperm.eq_of_pairwise (fun pair pair' _ _ hlt hlt' => absurd hlt' (Nat.lt_asymm hlt))
      h.spaced.pairwise_contents h'.spaced.pairwise_contents
  rw [← h.group_contents, hcontents, h'.group_contents]

end ConsecutiveRuns
