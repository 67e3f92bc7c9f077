import EmbeddedInfra.Lib.BinaryHeap
import EmbeddedInfra.Lib.EventSystem
import Mathlib.Data.List.Perm.Basic

set_option autoImplicit false

/-! # The bounded priority queue

`infra::BoundedPriorityQueue` keeps its elements in a `BoundedVector`, as a heap of the standard library: the
parent of the element at position `k` is at `(k - 1) / 2`. `push` and `pop` are `std::push_heap` and
`std::pop_heap`. `erase` has a loop of its own, in which the hole at the erased position moves up or down
until the last element fits in it.
-/

namespace EmbeddedInfra.BoundedPriorityQueue

variable {α : Type}

section Code

variable (compare : α → α → Bool)
-- what a move leaves behind in the object that is moved from
variable (moved : α → α)

/-- `compare(*x, *y)` -/
def less (values : List α) (x y : Nat) : Bool :=
  match values[x]?, values[y]? with
  | some v, some w => compare v w
  | _, _ => false

/-- `*destination = std::move(*source)` -/
def moveAssign (values : List α) (destination source : Nat) : List α :=
  match values[source]? with
  | some v => (values.set destination v).set source (moved v)
  | none => values

/-- The element that moves to the hole at this index, `none` when the last element does. -/
def replacement (values : List α) (index : Nat) : Option Nat :=
  let size := values.length
  let last := size - 1
  let parent := if 0 < index then (index - 1) / 2 else size
  let child1 := if index * 2 + 1 < size - 1 then index * 2 + 1 else size
  let child2 := if index * 2 + 2 < size - 1 then index * 2 + 2 else size
  if parent ≠ size ∧ less compare values parent last then some parent
  else if child1 ≠ size ∧ less compare values last child1 then
    if child2 ≠ size ∧ less compare values child1 child2 then some child2 else some child1
  else if child2 ≠ size ∧ less compare values last child2 then some child2
  else none

/-- The loop of `erase_heap`, `none` when it has not ended after so many turns. -/
def eraseHeapLoop : Nat → List α → Nat → Option (List α)
  | 0, _, _ => none
  | turns + 1, values, index =>
      match replacement compare values index with
      | some source => eraseHeapLoop turns (moveAssign moved values index source) source
      | none => some (moveAssign moved values index (values.length - 1))

def eraseHeap (values : List α) (position : Nat) : Option (List α) :=
  if 1 < values.length then eraseHeapLoop compare moved values.length values position else some values

variable (pushHeap popHeap : List α → List α) (max : Nat)

/-- `push` and `emplace`; the vector asserts that it is not full. -/
def push (values : List α) (value : α) : Option (List α) :=
  if values.length < max then some (pushHeap (values ++ [value])) else none

def pop (values : List α) : Option (List α) :=
  if values = [] then none else some (popHeap values).dropLast

def erase (values : List α) (position : Nat) : Option (List α) :=
  if position < values.length then (eraseHeap compare moved values position).map List.dropLast else none

/-- The front of the vector. -/
def top (values : List α) : Option α := values[0]?

inductive Event (α : Type)
  | push (value : α)
  | emplace (value : α)
  | pop
  | erase (position : Nat)
deriving DecidableEq, Repr

def step (values : List α) : Event α → Option (List α)
  | .push value => push pushHeap max values value
  | .emplace value => push pushHeap max values value
  | .pop => pop popHeap values
  | .erase position => erase compare moved values position

/-- What the queue asserts: room for an element, an element to pop, a position of an element. -/
def Possible (values : List α) : Event α → Prop
  | .push _ => values.length < max
  | .emplace _ => values.length < max
  | .pop => values ≠ []
  | .erase position => position < values.length

/-! ## The heap -/

/-- No element is less than one of its children. -/
def IsHeap (values : List α) : Prop :=
  ∀ k < values.length, 0 < k → less compare values ((k - 1) / 2) k = false

instance (values : List α) : Decidable (IsHeap compare values) :=
  inferInstanceAs (Decidable (∀ k < values.length, 0 < k → less compare values ((k - 1) / 2) k = false))

/-- No element of the queue is greater than the one at the top. -/
def TopIsMaximal (values : List α) : Prop :=
  ∀ x ∈ values, ∃ greatest, top values = some greatest ∧ compare greatest x = false

/-- What `std::push_heap` does for a heap with one more element behind it. -/
def PushHeapSpec : Prop :=
  ∀ values value, IsHeap compare values →
    IsHeap compare (pushHeap (values ++ [value])) ∧ (pushHeap (values ++ [value])).Perm (values ++ [value])

/-- What `std::pop_heap` does for a heap: its first element goes to the end, the others become a heap. -/
def PopHeapSpec : Prop :=
  ∀ first rest, IsHeap compare (first :: rest) →
    ∃ values, popHeap (first :: rest) = values ++ [first] ∧ IsHeap compare values ∧ values.Perm rest

end Code

/-! ## The hole -/

variable {compare : α → α → Bool} {moved : α → α} {values : List α} {index : Nat} {last : α}
  {x source : Nat}

/-- The heap without its last element, as if this one were in the hole already. -/
def filled (values : List α) (index : Nat) (last : α) : Nat → α
  | 0 => last
  | x + 1 => if x = index then last else values.getD x last

theorem filled_hole : filled values index last (index + 1) = last := if_pos rfl

theorem filled_of_ne (h : x ≠ index) : filled values index last (x + 1) = values.getD x last :=
  if_neg h

theorem less_getD (d : α) {y : Nat} (hx : x < values.length) (hy : y < values.length) :
    less compare values x y = compare (values.getD x d) (values.getD y d) := by
  simp [less, List.getD_eq_getElem?_getD, hx, hy]

theorem isHeap_iff (d : α) :
    IsHeap compare values ↔
      BinaryHeap.Ordered (fun x y => compare x y = true) values.length (fun k => values.getD (k - 1) d) := by
  constructor
  · intro h k hk hkn
    have hless := h (k - 1) (by omega) (by omega)
    rw [less_getD d (by omega) (by omega), show (k - 1 - 1) / 2 = k / 2 - 1 by omega] at hless
    exact Bool.eq_false_iff.mp hless
  · intro h k hkn hk
    have hordered := h (k + 1) (by omega) (by omega)
    rw [less_getD d (by omega) (by omega), show (k - 1) / 2 = (k + 1) / 2 - 1 by omega]
    exact Bool.eq_false_iff.mpr hordered

theorem length_moveAssign (values : List α) (destination source : Nat) :
    (moveAssign moved values destination source).length = values.length := by
  unfold moveAssign
  split <;> simp

theorem moveAssign_eq {destination : Nat} (hs : source < values.length) :
    moveAssign moved values destination source
      = (values.set destination values[source]).set source (moved values[source]) := by
  rw [moveAssign, List.getElem?_eq_getElem hs]

/-- The elements without the hole stay the same ones while it moves. -/
theorem perm_moveAssign {destination : Nat} (hd : destination < values.length)
    (hs : source < values.length) :
    ((moveAssign moved values destination source).eraseIdx source).Perm (values.eraseIdx destination) := by
  have hm : moveAssign moved values destination source =
      (values.set destination values[source]).set source (moved values[source]) := moveAssign_eq hs
  -- with the object that was moved from in the hole, two elements are exchanged
  have hexchange : ((values.set destination values[source]).set source (moved values[source])).Perm
      (values.set destination (moved values[source])) := by
    have hd' : destination < (values.set destination (moved values[source])).length := by simpa using hd
    have hs' : source < (values.set destination (moved values[source])).length := by simpa using hs
    have h := List.set_set_perm hd' hs'
    rw [List.getElem_set_self, List.set_set] at h
    by_cases hne : destination = source
    · subst hne
      rw [List.set_set]
    · rwa [List.getElem_set_ne hne] at h
  have hsource : source < (moveAssign moved values destination source).length := by
    rw [length_moveAssign]
    exact hs
  have hleft := List.getElem_cons_eraseIdx_perm hsource
  have hright := List.getElem_cons_eraseIdx_perm (l := values.set destination (moved values[source]))
    (n := destination) (by simpa using hd)
  have hl : (moveAssign moved values destination source)[source] = moved values[source] := by
    simp [hm]
  rw [hl] at hleft
  rw [List.getElem_set_self, List.eraseIdx_set_eq] at hright
  rw [← List.perm_cons (moved values[source])]
  calc
    List.Perm (moved values[source] :: (moveAssign moved values destination source).eraseIdx source)
        (moveAssign moved values destination source) := hleft
    List.Perm _ (values.set destination (moved values[source])) := by
      rw [hm]
      exact hexchange
    List.Perm _ (moved values[source] :: values.eraseIdx destination) := hright.symm

/-- The hole has moved: two elements are exchanged, one of them the last one. -/
theorem filled_moveAssign (hs : source + 1 < values.length) (hi : index + 1 < values.length)
    (hne : source ≠ index) :
    filled (moveAssign moved values index source) source last
      = BinaryHeap.exchange (filled values index last) (index + 1) (source + 1) := by
  have hset : moveAssign moved values index source =
      (values.set index values[source]).set source (moved values[source]) := moveAssign_eq (by omega)
  funext k
  cases k with
  | zero => rw [BinaryHeap.exchange_of_ne _ (by omega) (by omega), filled, filled]
  | succ x =>
      by_cases hxs : x = source
      · rw [hxs, filled_hole, BinaryHeap.exchange_right, filled_hole]
      · rw [filled_of_ne hxs, hset]
        by_cases hxi : x = index
        · rw [hxi, BinaryHeap.exchange_left, filled_of_ne hne]
          simp [List.getD_eq_getElem?_getD, hne, show index < values.length by omega,
            show source < values.length by omega]
        · rw [BinaryHeap.exchange_of_ne _ (by omega) (by omega), filled_of_ne hxi]
          simp [List.getD_eq_getElem?_getD, List.getElem?_set_ne, Ne.symm hxs, Ne.symm hxi]

theorem getElem?_last_moveAssign (hlast : values[values.length - 1]? = some last)
    (hs : source + 1 < values.length) (hi : index + 1 < values.length) :
    (moveAssign moved values index source)[values.length - 1]? = some last := by
  rw [moveAssign_eq (by omega), List.getElem?_set_ne (by omega), List.getElem?_set_ne (by omega), hlast]

/-- The last element is in the hole, and its own place is given up. -/
theorem getD_dropLast (hlast : values[values.length - 1]? = some last) (hx : x + 1 < values.length) :
    (moveAssign moved values index (values.length - 1)).dropLast.getD x last = filled values index last (x + 1) := by
  obtain ⟨hn, hlast⟩ := List.getElem?_eq_some_iff.mp hlast
  have hx' : x < values.length - 1 := by omega
  rw [moveAssign_eq hn, hlast, filled]
  by_cases hxi : x = index
  · subst hxi
    simp [List.getD_eq_getElem?_getD, hx', hx'.ne']
  · simp [List.getD_eq_getElem?_getD, hx', hx'.ne', hxi, Ne.symm hxi, show x < values.length by omega]

/-- The hole is filled for good. -/
theorem isHeap_dropLast (hlast : values[values.length - 1]? = some last)
    (h : BinaryHeap.Ordered (fun x y => compare x y = true) (values.length - 1) (filled values index last)) :
    IsHeap compare (moveAssign moved values index (values.length - 1)).dropLast := by
  rw [isHeap_iff last]
  intro k hk hkn
  rw [List.length_dropLast, length_moveAssign] at hkn
  have hat : ∀ x, x + 1 < values.length →
      (moveAssign moved values index (values.length - 1)).dropLast.getD x last = filled values index last (x + 1) :=
    fun x hx => getD_dropLast hlast hx
  have hchild := hat (k - 1) (by omega)
  have hparent := hat (k / 2 - 1) (by omega)
  rw [show k - 1 + 1 = k by omega] at hchild
  rw [show k / 2 - 1 + 1 = k / 2 by omega] at hparent
  dsimp only
  rw [hchild, hparent]
  exact h k hk hkn

theorem perm_dropLast (hi : index < values.length) :
    (moveAssign moved values index (values.length - 1)).dropLast.Perm (values.eraseIdx index) := by
  have hperm : ((moveAssign moved values index (values.length - 1)).eraseIdx (values.length - 1)).Perm
      (values.eraseIdx index) := perm_moveAssign hi (by omega)
  rwa [List.eraseIdx_eq_dropLast (by rw [length_moveAssign]; omega)] at hperm

/-! ## One turn -/

/-- The last element is compared with the parent of the hole and with its children. -/
theorem less_filled_last (hlast : values[values.length - 1]? = some last)
    (hx : x + 1 < values.length) (hne : x ≠ index) :
    less compare values x (values.length - 1)
      = compare (filled values index last (x + 1)) (filled values index last (index + 1)) := by
  rw [filled_hole, filled_of_ne hne, less_getD last (by omega) (by omega)]
  simp [List.getD_eq_getElem?_getD, hlast]

theorem less_last_filled (hlast : values[values.length - 1]? = some last)
    (hx : x + 1 < values.length) (hne : x ≠ index) :
    less compare values (values.length - 1) x
      = compare (filled values index last (index + 1)) (filled values index last (x + 1)) := by
  rw [filled_hole, filled_of_ne hne, less_getD last (by omega) (by omega)]
  simp [List.getD_eq_getElem?_getD, hlast]

variable (index last) in
theorem less_filled {y : Nat} (hx : x + 1 < values.length) (hy : y + 1 < values.length) (hxi : x ≠ index)
    (hyi : y ≠ index) :
    less compare values x y = compare (filled values index last (x + 1)) (filled values index last (y + 1)) := by
  rw [filled_of_ne hxi, filled_of_ne hyi, less_getD last (by omega) (by omega)]

/-- The comparisons of one turn: the parent of the hole is less than the last element, or a child is greater
and the greatest child moves, or the last element belongs in the hole. -/
inductive Turn (compare : α → α → Bool) (values : List α) (index : Nat) (a : Nat → α) : Option Nat → Prop
  | parent (source : Nat) (hsource : source + 1 = (index + 1) / 2) (hindex : 0 < index)
      (less : compare (a ((index + 1) / 2)) (a (index + 1)) = true) : Turn compare values index a (some source)
  | child (source : Nat) (hsource : (source + 1) / 2 = index + 1) (hsize : source + 1 < values.length)
      (parent : 0 < index → ¬ compare (a ((index + 1) / 2)) (a (index + 1)) = true)
      (less : compare (a (index + 1)) (a (source + 1)) = true)
      (greatest : ∀ j < values.length, j / 2 = index + 1 → ¬ compare (a (source + 1)) (a j) = true) :
      Turn compare values index a (some source)
  | last (parent : 0 < index → ¬ compare (a ((index + 1) / 2)) (a (index + 1)) = true)
      (children : ∀ j < values.length, j / 2 = index + 1 → ¬ compare (a (index + 1)) (a j) = true) :
      Turn compare values index a none

/-! The tests of the source, with its ends of the range for missing nodes. -/

theorem parent_test (hlast : values[values.length - 1]? = some last) (hi : index + 1 < values.length) :
    ((if 0 < index then (index - 1) / 2 else values.length) ≠ values.length ∧
        less compare values (if 0 < index then (index - 1) / 2 else values.length) (values.length - 1) = true) ↔
      0 < index ∧
        compare (filled values index last ((index + 1) / 2)) (filled values index last (index + 1)) = true := by
  by_cases h0 : 0 < index
  · rw [if_pos h0, less_filled_last hlast (by omega) (show (index - 1) / 2 ≠ index by omega),
      show (index - 1) / 2 + 1 = (index + 1) / 2 by omega]
    simp only [h0, true_and, and_iff_right_iff_imp]
    omega
  · simp [h0]

theorem child_test (hlast : values[values.length - 1]? = some last) {child : Nat} (hc : index < child) :
    ((if child < values.length - 1 then child else values.length) ≠ values.length ∧
        less compare values (values.length - 1) (if child < values.length - 1 then child else values.length) = true) ↔
      child < values.length - 1 ∧
        compare (filled values index last (index + 1)) (filled values index last (child + 1)) = true := by
  by_cases hsize : child < values.length - 1
  · rw [if_pos hsize, less_last_filled hlast (by omega) (show child ≠ index by omega)]
    simp only [hsize, true_and, and_iff_right_iff_imp]
    omega
  · simp [hsize]

variable (last) in
theorem sibling_test {child1 child2 : Nat} (h1 : index < child1) (h2 : index < child2)
    (hsize : child1 < values.length - 1) :
    ((if child2 < values.length - 1 then child2 else values.length) ≠ values.length ∧
        less compare values child1 (if child2 < values.length - 1 then child2 else values.length) = true) ↔
      child2 < values.length - 1 ∧
        compare (filled values index last (child1 + 1)) (filled values index last (child2 + 1)) = true := by
  by_cases hsize2 : child2 < values.length - 1
  · rw [if_pos hsize2, less_filled index last (by omega) (by omega) (by omega) (by omega)]
    simp only [hsize2, true_and, and_iff_right_iff_imp]
    omega
  · simp [hsize2]

variable (compare) in
theorem turn_replacement [IsStrictWeakOrder α (fun x y => compare x y = true)]
    (hlast : values[values.length - 1]? = some last) (hi : index + 1 < values.length) :
    Turn compare values index (filled values index last) (replacement compare values index) := by
  have hirrefl : ∀ x, ¬ compare x x = true := fun x => irrefl_of (fun x y => compare x y = true) x
  have hasymm : ∀ {x y}, compare x y = true → ¬ compare y x = true :=
    fun h h' => hirrefl _ (trans_of (fun x y => compare x y = true) h h')
  have hchildren : ∀ j, j / 2 = index + 1 → j = index * 2 + 1 + 1 ∨ j = index * 2 + 2 + 1 :=
    fun j hj => by omega
  unfold replacement
  dsimp only
  have hleft : index < index * 2 + 1 := by omega
  have hright : index < index * 2 + 2 := by omega
  simp only [parent_test hlast hi, child_test hlast hleft, child_test hlast hright]
  split
  case isTrue hparent =>
    rw [if_pos hparent.1]
    exact Turn.parent _ (by omega) hparent.1 hparent.2
  case isFalse hparent =>
    have hup : 0 < index →
        ¬ compare (filled values index last ((index + 1) / 2)) (filled values index last (index + 1)) = true :=
      fun h0 hless => hparent ⟨h0, hless⟩
    split
    case isTrue hchild =>
      rw [if_pos hchild.1]
      simp only [sibling_test last hleft hright hchild.1]
      split
      case isTrue hsibling =>
        rw [if_pos hsibling.1]
        refine Turn.child _ (by omega) (by omega) hup ?_ ?_
        · exact trans_of (fun x y => compare x y = true) hchild.2 hsibling.2
        · intro j _ hj
          rcases hchildren j hj with rfl | rfl
          · exact hasymm hsibling.2
          · exact hirrefl _
      case isFalse hsibling =>
        refine Turn.child _ (by omega) (by omega) hup hchild.2 ?_
        intro j hjn hj
        rcases hchildren j hj with rfl | rfl
        · exact hirrefl _
        · exact fun hless => hsibling ⟨by omega, hless⟩
    case isFalse hchild =>
      split
      case isTrue hchild2 =>
        rw [if_pos hchild2.1]
        refine Turn.child _ (by omega) (by omega) hup hchild2.2 ?_
        intro j hjn hj
        rcases hchildren j hj with rfl | rfl
        · -- the other child is not greater than the last element, and this one is
          intro hless
          exact hchild ⟨by omega, trans_of (fun x y => compare x y = true) hchild2.2 hless⟩
        · exact hirrefl _
      case isFalse hchild2 =>
        refine Turn.last hup ?_
        intro j hjn hj
        rcases hchildren j hj with rfl | rfl
        · exact fun hless => hchild ⟨by omega, hless⟩
        · exact fun hless => hchild2 ⟨by omega, hless⟩

/-! ## The loop -/

/-- The loop ends, and without the last place its result is a heap of the elements outside the hole. -/
def Ends (compare : α → α → Bool) (moved : α → α) (turns : Nat) (values : List α) (index : Nat) : Prop :=
  ∃ rest, eraseHeapLoop compare moved turns values index = some rest ∧
    IsHeap compare rest.dropLast ∧ rest.dropLast.Perm (values.eraseIdx index)

theorem Ends.filled {turns : Nat} (hlast : values[values.length - 1]? = some last) (hi : index < values.length)
    (hnone : replacement compare values index = none)
    (h : BinaryHeap.Ordered (fun x y => compare x y = true) (values.length - 1) (filled values index last)) :
    Ends compare moved (turns + 1) values index := by
  refine ⟨moveAssign moved values index (values.length - 1), ?_, isHeap_dropLast hlast h, perm_dropLast hi⟩
  rw [eraseHeapLoop, hnone]

theorem Ends.turn {turns source : Nat} (hi : index < values.length) (hs : source < values.length)
    (hsome : replacement compare values index = some source)
    (h : Ends compare moved turns (moveAssign moved values index source) source) :
    Ends compare moved (turns + 1) values index := by
  obtain ⟨rest, hrest, hheap, hperm⟩ := h
  refine ⟨rest, ?_, hheap, hperm.trans (perm_moveAssign hi hs)⟩
  rw [eraseHeapLoop, hsome]
  exact hrest

/-- The last element itself is erased. -/
theorem ends_at_last {turns : Nat} (hheap : IsHeap compare values) (hi : 1 < values.length) :
    Ends compare moved (turns + 1) values (values.length - 1) := by
  obtain ⟨last, hlast⟩ : ∃ last, values[values.length - 1]? = some last :=
    ⟨_, List.getElem?_eq_getElem (show values.length - 1 < values.length by omega)⟩
  have hparent := hheap (values.length - 1) (by omega) (by omega)
  refine Ends.filled hlast (by omega) ?_ ?_
  · simp [replacement, show 0 < values.length - 1 by omega, hparent,
      show ¬ (values.length - 1) * 2 + 1 < values.length - 1 by omega,
      show ¬ (values.length - 1) * 2 + 2 < values.length - 1 by omega]
  · intro k hk hkn
    have hordered := (isHeap_iff last).mp hheap k hk (by omega)
    rw [show k = k - 1 + 1 by omega, filled_of_ne (by omega),
      show (k - 1 + 1) / 2 = k / 2 - 1 + 1 by omega, filled_of_ne (by omega)]
    exact hordered

variable [IsStrictWeakOrder α (fun x y => compare x y = true)]

/-- **The hole moves up.** The last element is not less than the children of the hole, and remains so: what
comes below the hole is its old parent, which was less. So the hole never turns back. -/
theorem ends_of_rising {turns : Nat} (hlast : values[values.length - 1]? = some last)
    (hi : index + 1 < values.length) (hturns : index < turns)
    (h : BinaryHeap.Rising (fun x y => compare x y = true) (values.length - 1) (filled values index last)
      (index + 1)) :
    Ends compare moved turns values index := by
  induction turns generalizing values index with
  | zero => omega
  | succ turns ih =>
      have hturn := turn_replacement compare hlast hi
      generalize hr : replacement compare values index = source at hturn
      cases hturn with
      | parent source hsource hindex hless =>
          have hne : source ≠ index := by omega
          have hn : source + 1 < values.length := by omega
          refine Ends.turn (by omega) (by omega) hr (ih ?_ ?_ (by omega) ?_)
          · rw [length_moveAssign]
            exact getElem?_last_moveAssign hlast hn hi
          · rwa [length_moveAssign]
          · rw [length_moveAssign, filled_moveAssign hn hi hne, hsource]
            refine h.exchange (by omega) (by omega) ?_
            intro hback
            exact irrefl_of (fun x y => compare x y = true) _ (trans_of (fun x y => compare x y = true) hback hless)
      | child source hsource hsize hparent hless hgreatest =>
          -- no child is greater than the last element
          refine absurd hless ?_
          have hchild := h.others (source + 1) (by omega) (by omega) (by omega)
          rwa [hsource] at hchild
      | last hparent hchildren =>
          refine Ends.filled hlast (by omega) hr (h.ordered ?_)
          intro hk
          exact hparent (by omega)

/-- **The hole moves down.** The parent of the hole is not less than the last element, and remains so: what
comes above the hole is a child that was greater. -/
theorem ends_of_sinking {turns : Nat} (hlast : values[values.length - 1]? = some last)
    (hi : index + 1 < values.length) (hturns : values.length ≤ index + turns)
    (hparent : 0 < index → ¬ compare (filled values index last ((index + 1) / 2))
      (filled values index last (index + 1)) = true)
    (h : BinaryHeap.Sinking (fun x y => compare x y = true) (values.length - 1) (filled values index last)
      (index + 1)) :
    Ends compare moved turns values index := by
  induction turns generalizing values index with
  | zero => omega
  | succ turns ih =>
      have hturn := turn_replacement compare hlast hi
      generalize hr : replacement compare values index = source at hturn
      cases hturn with
      | parent source hsource hindex hless => exact absurd hless (hparent hindex)
      | child source hsource hsize _ hless hgreatest =>
          have hne : source ≠ index := by omega
          refine Ends.turn (by omega) (by omega) hr (ih ?_ ?_ ?_ ?_ ?_)
          · rw [length_moveAssign]
            exact getElem?_last_moveAssign hlast hsize hi
          · rwa [length_moveAssign]
          · rw [length_moveAssign]
            omega
          · intro _
            rw [filled_moveAssign hsize hi hne, hsource, BinaryHeap.exchange_left, BinaryHeap.exchange_right]
            intro hback
            exact irrefl_of (fun x y => compare x y = true) _ (trans_of (fun x y => compare x y = true) hback hless)
          · rw [length_moveAssign, filled_moveAssign hsize hi hne]
            rw [BinaryHeap.exchange_comm]
            exact h.exchange (by omega) hsource (by omega) (fun j hj hjk => hgreatest j (by omega) hjk)
      | last _ hchildren =>
          refine Ends.filled hlast (by omega) hr ?_
          intro j hj hjn
          by_cases hjk : j = index + 1
          · rw [hjk]
            exact hparent (by omega)
          · by_cases hpk : j / 2 = index + 1
            · rw [hpk]
              exact hchildren j (by omega) hpk
            · exact h.others j hj hjn hjk hpk

variable (moved) in
theorem ends {position : Nat} (hheap : IsHeap compare values) (hsize : 1 < values.length)
    (hposition : position < values.length) : Ends compare moved values.length values position := by
  by_cases hp : position = values.length - 1
  · rw [hp]
    obtain ⟨turns, hturns⟩ : ∃ turns, values.length = turns + 1 := ⟨values.length - 1, by omega⟩
    have h : Ends compare moved (turns + 1) values (values.length - 1) := ends_at_last hheap hsize
    rwa [← hturns] at h
  · obtain ⟨last, hlast⟩ : ∃ last, values[values.length - 1]? = some last :=
      ⟨_, List.getElem?_eq_getElem (show values.length - 1 < values.length by omega)⟩
    have hsinking : BinaryHeap.Sinking (fun x y => compare x y = true) (values.length - 1)
        (filled values position last) (position + 1) := by
      have hordered : BinaryHeap.Ordered (fun x y => compare x y = true) (values.length - 1)
          (fun k => values.getD (k - 1) last) := by
        intro k hk hkn
        exact (isHeap_iff last).mp hheap k hk (by omega)
      refine (hordered.sinking (k := position + 1) (by omega)).congr ?_
      intro j hj _ hjp
      rw [show j = j - 1 + 1 by omega, filled_of_ne (by omega)]
      rfl
    by_cases hup : 0 < position ∧
        compare (filled values position last ((position + 1) / 2)) (filled values position last (position + 1)) = true
    · exact ends_of_rising hlast (by omega) hposition (hsinking.rising (by omega) hup.2)
    · exact ends_of_sinking hlast (by omega) (by omega) (fun h0 hless => hup ⟨h0, hless⟩) hsinking

variable (moved) in
/-- **`erase` ends, and leaves a heap of all elements but the erased one.** -/
theorem erase_spec {position : Nat} (hheap : IsHeap compare values) (hposition : position < values.length) :
    ∃ rest, erase compare moved values position = some rest ∧ IsHeap compare rest ∧
      rest.Perm (values.eraseIdx position) := by
  rw [erase, if_pos hposition, eraseHeap]
  by_cases hsize : 1 < values.length
  · obtain ⟨rest, hrest, hheap', hperm⟩ := ends moved hheap hsize hposition
    exact ⟨rest.dropLast, by rw [if_pos hsize, hrest]; rfl, hheap', hperm⟩
  · -- the only element
    rw [if_neg hsize]
    obtain ⟨x, rfl⟩ := List.length_eq_one_iff.mp (show values.length = 1 by omega)
    rw [show position = 0 by simpa using hposition]
    exact ⟨[], rfl, by simp [IsHeap], List.Perm.refl _⟩

/-- The element at the top of a heap is a maximal one. -/
theorem topIsMaximal_of_isHeap (h : IsHeap compare values) : TopIsMaximal compare values := by
  intro x hx
  obtain ⟨i, hi, rfl⟩ := List.getElem_of_mem hx
  have htop := ((isHeap_iff values[i]).mp h).top (i + 1) (by omega) (by omega)
  refine ⟨values[0], List.getElem?_eq_getElem (by omega), ?_⟩
  simpa [List.getD_eq_getElem?_getD, hi, show 0 < values.length by omega] using htop

/-! ## Runs -/

variable {pushHeap popHeap : List α → List α} {max : Nat}

/-- The elements after an operation, in some order. -/
def elementsAfter (values : List α) : Event α → List α
  | .push value => value :: values
  | .emplace value => value :: values
  | .pop => values.tail
  | .erase position => values.eraseIdx position

omit [IsStrictWeakOrder α (fun x y => compare x y = true)] in
theorem push_spec (hpush : PushHeapSpec compare pushHeap) (hheap : IsHeap compare values) {value : α}
    (hroom : values.length < max) :
    ∃ values', push pushHeap max values value = some values' ∧ IsHeap compare values' ∧
      values'.Perm (value :: values) := by
  obtain ⟨hheap', hperm⟩ := hpush values value hheap
  refine ⟨_, if_pos hroom, hheap', hperm.trans ?_⟩
  exact List.perm_append_singleton value values

omit [IsStrictWeakOrder α (fun x y => compare x y = true)] in
theorem pop_spec (hpop : PopHeapSpec compare popHeap) (hheap : IsHeap compare values) (hne : values ≠ []) :
    ∃ values', pop popHeap values = some values' ∧ IsHeap compare values' ∧ values'.Perm values.tail := by
  cases values with
  | nil => exact absurd rfl hne
  | cons first rest =>
      obtain ⟨values', hvalues, hheap', hperm⟩ := hpop first rest hheap
      refine ⟨values', ?_, hheap', hperm⟩
      rw [pop, if_neg hne, hvalues, List.dropLast_concat]

variable (moved) in
theorem step_spec (hpush : PushHeapSpec compare pushHeap) (hpop : PopHeapSpec compare popHeap)
    (hheap : IsHeap compare values) {e : Event α} (hpossible : Possible max values e) :
    ∃ values', step compare moved pushHeap popHeap max values e = some values' ∧ IsHeap compare values' ∧
      values'.Perm (elementsAfter values e) := by
  cases e with
  | push value => exact push_spec hpush hheap hpossible
  | emplace value => exact push_spec hpush hheap hpossible
  | pop => exact pop_spec hpop hheap hpossible
  | erase position => exact erase_spec moved hheap hpossible

/-- **`erase` keeps the heap**, and after any run of operations the element at the top is a maximal one. -/
theorem boundedPriorityQueue_erase_keeps_heap (hpush : PushHeapSpec compare pushHeap)
    (hpop : PopHeapSpec compare popHeap) :
    (∀ (values : List α) (position : Nat), IsHeap compare values → position < values.length →
      (∃ rest, eraseHeap compare moved values position = some rest) ∧
      ∃ rest, erase compare moved values position = some rest ∧ IsHeap compare rest ∧
        rest.Perm (values.eraseIdx position)) ∧
    ∀ (values : List α) (events : List (Event α)), IsHeap compare values →
      EventSystem.Along (step compare moved pushHeap popHeap max) (Possible max) values events →
      ∃ values', EventSystem.run (step compare moved pushHeap popHeap max) values events = some values' ∧
        IsHeap compare values' ∧ TopIsMaximal compare values' := by
  constructor
  · intro values position hheap hposition
    obtain ⟨rest, hrest, hheap', hperm⟩ := erase_spec moved hheap hposition
    refine ⟨?_, rest, hrest, hheap', hperm⟩
    rw [erase, if_pos hposition, Option.map_eq_some_iff] at hrest
    obtain ⟨values', hvalues', -⟩ := hrest
    exact ⟨values', hvalues'⟩
  · intro values events hheap halong
    have hstep : ∀ s e, IsHeap compare s → Possible max s e →
        ∃ s', step compare moved pushHeap popHeap max s e = some s' ∧ IsHeap compare s' := by
      intro s e hs he
      obtain ⟨s', hs', hheap', -⟩ := step_spec moved hpush hpop hs he
      exact ⟨s', hs', hheap'⟩
    obtain ⟨values', hrun, hheap'⟩ := EventSystem.run_along (IsHeap compare) hstep halong hheap
    exact ⟨values', hrun, hheap', topIsMaximal_of_isHeap hheap'⟩

/-- A heap in descending order. -/
theorem isHeap_of_sorted {values : List Nat} (h : values.Pairwise (· ≥ ·)) :
    IsHeap (fun x y => decide (x < y)) values := by
  intro k hk h0
  rw [List.pairwise_iff_getElem] at h
  have hparent := h ((k - 1) / 2) k (by omega) hk (by omega)
  rw [less_getD 0 (by omega) hk]
  simp only [List.getD_eq_getElem?_getD, List.getElem?_eq_getElem hk,
    List.getElem?_eq_getElem (show (k - 1) / 2 < values.length by omega), Option.getD_some]
  simpa using hparent

theorem boundedPriorityQueue_erase_keeps_heap_ties :
    ∃ values', EventSystem.run
        (step (fun x y : Nat => decide (x < y)) (fun _ => 0) (List.insertionSort (· ≥ ·))
          (fun values => values.tail.insertionSort (· ≥ ·) ++ values.take 1) 10) []
        [.push 5, .push 4, .emplace 3, .push 3, .erase 1, .pop] = some values' ∧
      IsHeap (fun x y => decide (x < y)) values' ∧ TopIsMaximal (fun x y => decide (x < y)) values' := by
  have : IsStrictWeakOrder Nat (fun x y => decide (x < y) = true) :=
    { irrefl := by simp
      trans := by simpa using fun x y z hxy hyz => Nat.lt_trans hxy hyz
      incomp_trans := by simpa using fun x y z h1 h2 h3 h4 => ⟨Nat.le_trans h3 h1, Nat.le_trans h2 h4⟩ }
  refine (boundedPriorityQueue_erase_keeps_heap ?_ ?_).2 [] _ (by decide) ?_
  · intro values value _
    exact ⟨isHeap_of_sorted (List.pairwise_insertionSort _ _), List.perm_insertionSort _ _⟩
  · intro first rest _
    exact ⟨_, rfl, isHeap_of_sorted (List.pairwise_insertionSort _ _), List.perm_insertionSort _ _⟩
  · refine EventSystem.along_cons (m := [5]) rfl (by simp [Possible]) ?_
    refine EventSystem.along_cons (m := [5, 4]) rfl (by simp [Possible]) ?_
    refine EventSystem.along_cons (m := [5, 4, 3]) rfl (by simp [Possible]) ?_
    refine EventSystem.along_cons (m := [5, 4, 3, 3]) rfl (by simp [Possible]) ?_
    refine EventSystem.along_cons (m := [5, 3, 3]) rfl (by simp [Possible]) ?_
    exact EventSystem.along_cons (m := [3, 3]) rfl (by simp [Possible]) trivial

end EmbeddedInfra.BoundedPriorityQueue
