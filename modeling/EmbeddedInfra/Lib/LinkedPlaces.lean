import Mathlib.Tactic
import Mathlib.Data.List.Chain

set_option autoImplicit false

/-! # Places linked in two directions

A doubly linked list is a list of places, `next` of each of which is the one after it, and `previous` the one
before it. Whatever else `next` and `previous` say, of other places or beyond the two ends, does not matter.
The lemmas say how to link a place between two others, how to take one out, and that following the links
visits the places in order.
-/

namespace LinkedPlaces

variable {P : Type}

def Linked (next previous : P → P) (places : List P) : Prop :=
  places.IsChain fun p q => next p = q ∧ previous q = p

variable {next previous next' previous' : P → P} {places before after : List P} {p q x : P}

theorem Linked.congr (h : Linked next previous places) (hnext : ∀ p ∈ places.dropLast, next' p = next p)
    (hprevious : ∀ q ∈ places.tail, previous' q = previous q) : Linked next' previous' places := by
  induction places with
  | nil => exact List.IsChain.nil
  | cons p places ih =>
      cases places with
      | nil => exact List.IsChain.singleton p
      | cons q places =>
          obtain ⟨⟨hpq, hqp⟩, hrest⟩ := List.isChain_cons_cons.mp h
          refine List.isChain_cons_cons.mpr ⟨⟨?_, ?_⟩, ih hrest ?_ ?_⟩
          · rw [hnext p (by simp), hpq]
          · rw [hprevious q (by simp), hqp]
          · intro y hy
            exact hnext y (by simp [hy])
          · intro y hy
            exact hprevious y (List.mem_cons_of_mem q hy)

section

variable (h : Linked next previous (before ++ p :: q :: after))
include h

theorem Linked.split : next p = q ∧ previous q = p :=
  (List.isChain_append_cons_cons.mp h).2.1

/-- The two parts of a list stay linked when what changes is `next` of the last place of the first one, and
`previous` of the first place of the second one. -/
theorem Linked.parts
    (hnodup : (before ++ p :: q :: after).Nodup)
    (hnext : ∀ y ∈ before ++ p :: q :: after, y ≠ p → next' y = next y)
    (hprevious : ∀ y ∈ before ++ p :: q :: after, y ≠ q → previous' y = previous y) :
    Linked next' previous' (before ++ [p]) ∧ Linked next' previous' (q :: after) := by
  obtain ⟨hfirst, -, hsecond⟩ := List.isChain_append_cons_cons.mp h
  have hne := List.nodup_append.mp hnodup
  constructor
  · refine Linked.congr hfirst ?_ ?_
    · intro y hy
      rw [List.dropLast_concat] at hy
      exact hnext y (by simp [hy]) (hne.2.2 y hy p (by simp))
    · intro y hy
      have hy' : y ∈ before ++ [p] := List.mem_of_mem_tail hy
      have hyq : y ≠ q := by
        rintro rfl
        grind
      exact hprevious y (by grind) hyq
  · refine Linked.congr hsecond ?_ ?_
    · intro y hy
      have hy' : y ∈ q :: after := List.mem_of_mem_dropLast hy
      have hyp : y ≠ p := by
        rintro rfl
        grind
      exact hnext y (by grind) hyp
    · intro y hy
      rw [List.tail_cons] at hy
      have hyq : y ≠ q := by
        rintro rfl
        grind
      exact hprevious y (by simp [hy]) hyq

/-- A place is linked between two others. -/
theorem Linked.insert
    (hnodup : (before ++ p :: q :: after).Nodup) (hpx : next' p = x) (hxp : previous' x = p) (hxq : next' x = q)
    (hqx : previous' q = x)
    (hnext : ∀ y ∈ before ++ p :: q :: after, y ≠ p → next' y = next y)
    (hprevious : ∀ y ∈ before ++ p :: q :: after, y ≠ q → previous' y = previous y) :
    Linked next' previous' (before ++ p :: x :: q :: after) := by
  obtain ⟨hfirst, hsecond⟩ := h.parts hnodup hnext hprevious
  refine List.isChain_append_cons_cons.mpr ⟨hfirst, ⟨hpx, hxp⟩, ?_⟩
  exact List.isChain_cons_cons.mpr ⟨⟨hxq, hqx⟩, hsecond⟩

end

/-- A place between two others is taken out. -/
theorem Linked.remove (h : Linked next previous (before ++ p :: x :: q :: after))
    (hnodup : (before ++ p :: x :: q :: after).Nodup) (hpq : next' p = q) (hqp : previous' q = p)
    (hnext : ∀ y ∈ before ++ p :: x :: q :: after, y ≠ p → y ≠ x → next' y = next y)
    (hprevious : ∀ y ∈ before ++ p :: x :: q :: after, y ≠ q → y ≠ x → previous' y = previous y) :
    Linked next' previous' (before ++ p :: q :: after) := by
  obtain ⟨hfirst, -, hxrest⟩ := List.isChain_append_cons_cons.mp h
  obtain ⟨-, hsecond⟩ := List.isChain_cons_cons.mp hxrest
  refine List.isChain_append_cons_cons.mpr ⟨Linked.congr hfirst ?_ ?_, ⟨hpq, hqp⟩, Linked.congr hsecond ?_ ?_⟩
  · intro y hy
    rw [List.dropLast_concat] at hy
    exact hnext y (by grind) (by grind) (by grind)
  · intro y hy
    have hy' := List.mem_of_mem_tail hy
    exact hprevious y (by grind) (by grind) (by grind)
  · intro y hy
    have hy' := List.mem_of_mem_dropLast hy
    exact hnext y (by grind) (by grind) (by grind)
  · intro y hy
    rw [List.tail_cons] at hy
    exact hprevious y (by grind) (by grind) (by grind)

/-- The last place is replaced by another one. -/
theorem Linked.replaceLast (h : Linked next previous (before ++ [p, q]))
    (hpx : next' p = x) (hxp : previous' x = p)
    (hnext : ∀ y ∈ before, next' y = next y) (hprevious : ∀ y ∈ before ++ [p], y ≠ x → previous' y = previous y)
    (hx : x ∉ before ++ [p]) : Linked next' previous' (before ++ [p, x]) := by
  obtain ⟨hfirst, -⟩ := List.isChain_append_cons_cons.mp h
  refine List.isChain_append_cons_cons.mpr ⟨Linked.congr hfirst ?_ ?_, ⟨hpx, hxp⟩, List.IsChain.singleton x⟩
  · intro y hy
    rw [List.dropLast_concat] at hy
    exact hnext y hy
  · intro y hy
    have hy' := List.mem_of_mem_tail hy
    exact hprevious y hy' (by rintro rfl; exact hx hy')

end LinkedPlaces
