import Mathlib.Tactic

set_option autoImplicit false

/-! # Requests that wait

Requests wait in a list until they are started, in their order, and may be taken back before. How often a
request occurs in the lists of a service together does not change when it goes from one to another.
-/

namespace WaitingList

variable {α : Type} [DecidableEq α] {waiting : List α} {a : α}

/-- A request is taken back: it goes from the list of those that wait to the list of those taken back. -/
theorem count_cancel (h : a ∈ waiting) (cancelled : List α) (b : α) :
    (a :: cancelled).count b + (waiting.erase a).count b = cancelled.count b + waiting.count b := by
  rw [(List.perm_cons_erase h).count_eq b, List.count_cons, List.count_cons]
  omega

/-- The other requests stay in order. -/
theorem sublist_cancel {started requested : List α} (h : (started ++ waiting).Sublist requested) :
    (started ++ waiting.erase a).Sublist requested :=
  ((List.Sublist.refl started).append List.erase_sublist).trans h

end WaitingList
