import Mathlib.Tactic
import Mathlib.Order.Defs.Unbundled
import Mathlib.Logic.Equiv.Basic

set_option autoImplicit false

/-! # Binary heaps

A complete binary tree with `n` nodes, as a function from the positions `1`, ..., `n` to its
elements: the parent of the node at position `k` is at `k / 2`, its children are at `2 * k` and
`2 * k + 1`. Elements are compared by a strict weak order `r`, and the tree is a heap when no
element is less than one of its children. The lemmas say what remains of this while one element
rises to its place (`Rising`) or sinks to a leaf (`Sinking`), by exchanges with its parent or with
one of its children.
-/

namespace BinaryHeap

variable {α : Type} (r : α → α → Prop)

/-- In a strict weak order, being not less is transitive. -/
theorem not_rel_trans [IsStrictWeakOrder α r] {x y z : α} (hxy : ¬ r x y) (hyz : ¬ r y z) :
    ¬ r x z := by
  intro hxz
  have hyx : ¬ r y x := fun h => hyz (trans_of r h hxz)
  have hzy : ¬ r z y := fun h => hxy (trans_of r hxz h)
  exact (IsStrictWeakOrder.incomp_trans x y z ⟨hxy, hyx⟩ ⟨hyz, hzy⟩).1 hxz

/-- No element is less than one of its children. -/
def Ordered (n : Nat) (a : Nat → α) : Prop :=
  ∀ k, 2 ≤ k → k ≤ n → ¬ r (a (k / 2)) (a k)

/-- The element at position `k` may be greater than its parent. -/
structure Rising (n : Nat) (a : Nat → α) (k : Nat) : Prop where
  others : ∀ j, 2 ≤ j → j ≤ n → j ≠ k → ¬ r (a (j / 2)) (a j)
  children : 2 ≤ k → ∀ j, j ≤ n → j / 2 = k → ¬ r (a (k / 2)) (a j)

/-- The element at position `k` may be anything. -/
structure Sinking (n : Nat) (a : Nat → α) (k : Nat) : Prop where
  others : ∀ j, 2 ≤ j → j ≤ n → j ≠ k → j / 2 ≠ k → ¬ r (a (j / 2)) (a j)
  children : 2 ≤ k → ∀ j, j ≤ n → j / 2 = k → ¬ r (a (k / 2)) (a j)

/-- The elements at two positions are exchanged. -/
def exchange (a : Nat → α) (i j : Nat) : Nat → α := fun k => a (Equiv.swap i j k)

@[simp] theorem exchange_left (a : Nat → α) (i j : Nat) : exchange a i j i = a j := by
  simp [exchange]

@[simp] theorem exchange_right (a : Nat → α) (i j : Nat) : exchange a i j j = a i := by
  simp [exchange]

theorem exchange_of_ne (a : Nat → α) {i j k : Nat} (hi : k ≠ i) (hj : k ≠ j) :
    exchange a i j k = a k := by
  rw [exchange, Equiv.swap_apply_of_ne_of_ne hi hj]

theorem exchange_comm (a : Nat → α) (i j : Nat) : exchange a i j = exchange a j i := by
  unfold exchange
  rw [Equiv.swap_comm]

variable {r} {n k : Nat} {a : Nat → α}

/-! ## Rising -/

theorem Rising.exchange [IsStrictWeakOrder α r] (h : Rising r n a k) (hk : 2 ≤ k) (hn : k ≤ n)
    (hup : ¬ r (a k) (a (k / 2))) : Rising r n (exchange a k (k / 2)) (k / 2) := by
  constructor
  · intro j hj hjn hjk
    by_cases hjk' : j = k
    · -- the element that was the parent, below the one that has risen
      subst hjk'
      rwa [exchange_right, exchange_left]
    · rw [exchange_of_ne a hjk' hjk]
      by_cases hpk : j / 2 = k
      · rw [hpk, exchange_left]
        exact h.children hk j hjn hpk
      · by_cases hpp : j / 2 = k / 2
        · -- the sibling
          rw [hpp, exchange_right]
          have hsibling := h.others j hj hjn hjk'
          rw [hpp] at hsibling
          exact not_rel_trans r hup hsibling
        · rw [exchange_of_ne a hpk hpp]
          exact h.others j hj hjn hjk'
  · intro hkk j hjn hjp
    have hpp : k / 2 / 2 ≠ k := by omega
    have hpp' : k / 2 / 2 ≠ k / 2 := by omega
    have habove := h.others (k / 2) hkk (by omega) (by omega)
    rw [exchange_of_ne a hpp hpp']
    by_cases hjk : j = k
    · rw [hjk, exchange_left]
      exact habove
    · rw [exchange_of_ne a hjk (by omega)]
      have hsibling := h.others j (by omega) hjn hjk
      rw [hjp] at hsibling
      exact not_rel_trans r habove hsibling

theorem Rising.ordered (h : Rising r n a k) (hk : 2 ≤ k → ¬ r (a (k / 2)) (a k)) :
    Ordered r n a := by
  intro j hj hjn
  by_cases hjk : j = k
  · rw [hjk] at hj ⊢
    exact hk hj
  · exact h.others j hj hjn hjk

/-! ## Sinking -/

theorem Ordered.sinking [IsStrictWeakOrder α r] (h : Ordered r n a) (hn : k ≤ n) :
    Sinking r n a k := by
  constructor
  · intro j hj hjn _ _
    exact h j hj hjn
  · intro hk2 j hjn hjk
    have hchild := h j (by omega) hjn
    rw [hjk] at hchild
    exact not_rel_trans r (h k hk2 hn) hchild

/-- The element at position `k` may be replaced. -/
theorem Sinking.congr {b : Nat → α} (h : Sinking r n a k) (hb : ∀ j, 1 ≤ j → j ≤ n → j ≠ k → b j = a j) :
    Sinking r n b k := by
  constructor
  · intro j hj hjn hjk hpk
    rw [hb j (by omega) hjn hjk, hb (j / 2) (by omega) (by omega) hpk]
    exact h.others j hj hjn hjk hpk
  · intro hk j hjn hjk
    rw [hb j (by omega) hjn (by omega), hb (k / 2) (by omega) (by omega) (by omega)]
    exact h.children hk j hjn hjk

/-- An element greater than its parent is not less than its children. -/
theorem Sinking.rising [IsStrictWeakOrder α r] (h : Sinking r n a k) (hk : 2 ≤ k) (hup : r (a (k / 2)) (a k)) :
    Rising r n a k := by
  constructor
  · intro j hj hjn hjk
    by_cases hpk : j / 2 = k
    · rw [hpk]
      intro hchild
      exact h.children hk j hjn hpk (trans_of r hup hchild)
    · exact h.others j hj hjn hjk hpk
  · exact h.children

theorem Sinking.exchange {c : Nat} (h : Sinking r n a k) (hkc : k < c) (hc : c / 2 = k) (hcn : c ≤ n)
    (hlargest : ∀ j, j ≤ n → j / 2 = k → ¬ r (a c) (a j)) :
    Sinking r n (exchange a c k) c := by
  constructor
  · intro j hj hjn hjc hpc
    by_cases hjk : j = k
    · -- the child that has gone up, below the parent
      rw [hjk] at hj ⊢
      rw [exchange_right, exchange_of_ne a (by omega) (by omega)]
      exact h.children hj c hcn hc
    · rw [exchange_of_ne a hjc hjk]
      by_cases hpk : j / 2 = k
      · rw [hpk, exchange_right]
        exact hlargest j hjn hpk
      · rw [exchange_of_ne a hpc hpk]
        exact h.others j hj hjn hjk hpk
  · intro hc2 j hjn hjc
    rw [hc, exchange_right, exchange_of_ne a (by omega) (by omega)]
    have hchild := h.others j (by omega) hjn (by omega) (by omega)
    rwa [hjc] at hchild

/-- The element that has sunk to a leaf is replaced by the last one. -/
theorem Sinking.replace (h : Sinking r n a k) (hk : 1 ≤ k) (hleaf : n < 2 * k) (hn : k < n) :
    Rising r (n - 1) (Function.update a k (a n)) k := by
  constructor
  · intro j hj hjn hjk
    rw [Function.update_of_ne hjk, Function.update_of_ne (by omega)]
    exact h.others j hj (by omega) hjk (by omega)
  · intro _ j hjn hjk
    exact absurd hjk (by omega)

/-- The element that has sunk to a leaf is the last one itself. -/
theorem Sinking.removeLast (h : Sinking r n a n) (hn : 1 ≤ n) : Ordered r (n - 1) a := by
  intro j hj hjn
  exact h.others j hj (by omega) (by omega) (by omega)

/-! ## The greatest element -/

/-- **The element at the top is not less than any other.** -/
theorem Ordered.top [IsStrictWeakOrder α r] (h : Ordered r n a) :
    ∀ k, 1 ≤ k → k ≤ n → ¬ r (a 1) (a k) := by
  intro k
  induction k using Nat.strong_induction_on with
  | _ k ih =>
      intro hk hn
      by_cases hk1 : k = 1
      · rw [hk1]
        exact irrefl_of r (a 1)
      · exact not_rel_trans r (ih (k / 2) (by omega) (by omega) (by omega)) (h k (by omega) hn)

end BinaryHeap
