import Mathlib.Tactic
import Mathlib.Data.List.Range

set_option autoImplicit false

/-! # Slots of a circular storage

A queue in a storage of fixed size occupies consecutive slots, and continues at slot zero after the last
one. What matters to a user who keeps the address of an element is which slots are occupied: a slot is
taken at one end, and given back at either end.
-/

/-- The occupied slots: `count` of them, from `start` on. -/
structure CircularSlots (capacity : Nat) where
  start : Nat
  count : Nat
  fits : count ≤ capacity
  aligned : 0 < capacity → start < capacity

namespace CircularSlots

variable {capacity : Nat} {q : CircularSlots capacity}

def empty (capacity : Nat) : CircularSlots capacity := ⟨0, 0, Nat.zero_le capacity, id⟩

/-- The slot of the element with this position. -/
def slot (q : CircularSlots capacity) (position : Nat) : Nat :=
  if q.start + position < capacity then q.start + position else q.start + position - capacity

/-- The occupied slots in order. -/
def occupied (q : CircularSlots capacity) : List Nat := (List.range q.count).map q.slot

def full (q : CircularSlots capacity) : Bool := q.count = capacity

/-- The slot that is occupied next. -/
def next (q : CircularSlots capacity) : Nat := q.slot q.count

def pushBack (q : CircularSlots capacity) : Option (CircularSlots capacity) :=
  if h : q.count < capacity then some ⟨q.start, q.count + 1, h, q.aligned⟩ else none

theorem slot_one_lt (q : CircularSlots capacity) (h : 0 < capacity) : q.slot 1 < capacity := by
  have := q.aligned h
  unfold slot
  split <;> omega

def popFront (q : CircularSlots capacity) : Option (CircularSlots capacity) :=
  if q.count = 0 then none else some ⟨q.slot 1, q.count - 1, (Nat.sub_le _ _).trans q.fits, q.slot_one_lt⟩

def popBack (q : CircularSlots capacity) : Option (CircularSlots capacity) :=
  if q.count = 0 then none else some ⟨q.start, q.count - 1, (Nat.sub_le _ _).trans q.fits, q.aligned⟩

/-! ## The occupied slots -/

@[simp] theorem length_occupied (q : CircularSlots capacity) : q.occupied.length = q.count := by
  simp [occupied]

theorem full_eq_false : q.full = false ↔ q.count < capacity := by
  have := q.fits
  simp only [full, decide_eq_false_iff_not]
  omega

theorem slot_ne (q : CircularSlots capacity) {i j : Nat} (hij : i < j) (hj : j < capacity) : q.slot i ≠ q.slot j := by
  unfold slot
  split <;> split <;> omega

/-- **No slot is occupied twice.** -/
theorem nodup_occupied (q : CircularSlots capacity) : q.occupied.Nodup := by
  apply List.Nodup.map_on _ List.nodup_range
  intro i hi j hj heq
  have := q.fits
  rw [List.mem_range] at hi hj
  by_contra hne
  rcases Nat.lt_or_gt_of_ne hne with h | h
  · exact q.slot_ne h (by omega) heq
  · exact q.slot_ne h (by omega) heq.symm

theorem next_notMem (q : CircularSlots capacity) (h : q.count < capacity) : q.next ∉ q.occupied := by
  intro hmem
  obtain ⟨i, hi, heq⟩ := List.mem_map.mp hmem
  exact q.slot_ne (List.mem_range.mp hi) h heq

theorem occupied_of_pushBack {q' : CircularSlots capacity} (h : q.pushBack = some q') :
    q'.occupied = q.occupied ++ [q.next] := by
  unfold pushBack at h
  split at h
  · cases h
    exact (congrArg (List.map _) List.range_succ).trans List.map_append
  · cases h

theorem pushBack_isSome (h : q.count < capacity) : ∃ q', q.pushBack = some q' :=
  ⟨_, dif_pos h⟩

theorem slot_succ (q : CircularSlots capacity) {i : Nat} (hi : i + 1 ≤ capacity) :
    q.slot (i + 1) = if q.slot 1 + i < capacity then q.slot 1 + i else q.slot 1 + i - capacity := by
  have := q.aligned (by omega)
  unfold slot
  split <;> split <;> split <;> omega

/-- The front slot is given back, and the others stay where they are. -/
theorem popFront_of_cons {front : Nat} {rest : List Nat} (h : q.occupied = front :: rest) :
    ∃ q', q.popFront = some q' ∧ q'.occupied = rest := by
  have hcount : q.count = rest.length + 1 := by
    rw [← q.length_occupied, h, List.length_cons]
  refine ⟨_, if_neg (by omega), ?_⟩
  have htail := congrArg List.tail h
  simp only [occupied, hcount, List.range_succ_eq_map, List.map_cons, List.map_map, List.tail_cons] at htail
  simp only [occupied, hcount, Nat.add_sub_cancel]
  refine (List.map_congr_left ?_).trans htail
  intro i hi
  have := q.fits
  rw [List.mem_range] at hi
  exact (q.slot_succ (by omega)).symm

/-- The back slot is given back. -/
theorem popBack_of_concat {back : Nat} {rest : List Nat}
    (h : q.occupied = rest ++ [back]) : ∃ q', q.popBack = some q' ∧ q'.occupied = rest := by
  have hcount : q.count = rest.length + 1 := by
    rw [← q.length_occupied, h, List.length_append, List.length_singleton]
  refine ⟨_, if_neg (by omega), ?_⟩
  have hinit := congrArg List.dropLast h
  simp only [occupied, hcount, List.range_succ, List.map_append, List.map_singleton, List.dropLast_concat] at hinit
  simp only [occupied, hcount, Nat.add_sub_cancel]
  exact hinit

end CircularSlots
