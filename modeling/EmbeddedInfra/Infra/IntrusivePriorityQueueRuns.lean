import EmbeddedInfra.Infra.IntrusivePriorityQueue
import Mathlib.Order.Interval.Finset.Nat

set_option autoImplicit false

/-! # Runs of the intrusive priority queue

Whatever is pushed, popped and erased, the nodes form a heap that holds the nodes that were pushed
and not erased.
-/

namespace EmbeddedInfra.IntrusivePriorityQueue

open Function

variable {ι : Type} [DecidableEq ι]

namespace Queue

/-! ## The nodes of the tree -/

omit [DecidableEq ι] in
theorem nodes_addLast (n : Nat) (a : Nat → ι) (v : ι) :
    nodes (n + 1) (update a (n + 1) v) = insert v (nodes n a) := by
  ext x
  constructor
  · rintro ⟨i, hi1, hin, rfl⟩
    by_cases hi : i = n + 1
    · left
      rw [hi, update_self]
    · right
      rw [update_of_ne hi]
      exact ⟨i, hi1, by omega, rfl⟩
  · rintro (rfl | ⟨i, hi1, hin, rfl⟩)
    · exact ⟨n + 1, by omega, by omega, update_self _ _ _⟩
    · exact ⟨i, hi1, by omega, update_of_ne (by omega) _ _⟩

omit [DecidableEq ι] in
theorem Represents.nodes_removeLast {q : Queue ι} {n : Nat} {a : Nat → ι} (h : Represents q n a)
    (hn : 1 ≤ n) : nodes (n - 1) a = nodes n a \ {a n} := by
  ext x
  constructor
  · rintro ⟨i, hi1, hin, rfl⟩
    refine ⟨⟨i, hi1, by omega, rfl⟩, fun hc => ?_⟩
    have := h.injective i n hi1 (by omega) hn (by omega) hc
    omega
  · rintro ⟨⟨i, hi1, hin, rfl⟩, hne⟩
    have hi : i ≠ n := fun hc => hne (congrArg a hc)
    exact ⟨i, hi1, by omega, rfl⟩

omit [DecidableEq ι] in
theorem Represents.nodes_replace {q : Queue ι} {n k : Nat} {a : Nat → ι} (h : Represents q n a)
    (hk : 1 ≤ k) (hn : k < n) :
    nodes (n - 1) (update a k (a n)) = nodes n a \ {a k} := by
  ext x
  constructor
  · rintro ⟨i, hi1, hin, rfl⟩
    by_cases hik : i = k
    · rw [hik, update_self]
      refine ⟨⟨n, by omega, le_refl n, rfl⟩, fun hc => ?_⟩
      have := h.injective n k (by omega) (by omega) hk (by omega) hc
      omega
    · rw [update_of_ne hik]
      refine ⟨⟨i, hi1, by omega, rfl⟩, fun hc => ?_⟩
      exact hik (h.injective i k hi1 (by omega) hk (by omega) hc)
  · rintro ⟨⟨i, hi1, hin, rfl⟩, hne⟩
    have hik : i ≠ k := fun hc => hne (congrArg a hc)
    by_cases hi : i = n
    · exact ⟨k, hk, by omega, by rw [update_self, hi]⟩
    · exact ⟨i, hi1, by omega, update_of_ne hik _ _⟩

/-! ## The operations -/

/-- The nodes form a heap, and they are those of `present`. -/
structure IsHeap (compare : ι → ι → Bool) (q : Queue ι) (present : Set ι) (a : Nat → ι) : Prop where
  represents : Represents q q.numberOfElements a
  ordered : BinaryHeap.Ordered (fun x y => compare x y = true) q.numberOfElements a
  nodes : nodes q.numberOfElements a = present

variable {compare : ι → ι → Bool} {q : Queue ι} {present : Set ι} {a : Nat → ι}

omit [DecidableEq ι] in
/-- A tree that was rearranged into a heap. -/
theorem Rearranged.isHeap {q q' : Queue ι} {n : Nat} {a a' : Nat → ι} (h : Rearranged q q' n a a')
    (hn : q.numberOfElements = n)
    (hordered : BinaryHeap.Ordered (fun x y => compare x y = true) n a') :
    IsHeap compare q' (Queue.nodes n a) a' := by
  have hn' : q'.numberOfElements = n := h.numberOfElements.trans hn
  constructor
  · rw [hn']
    exact h.represents
  · rw [hn']
    exact hordered
  · rw [hn']
    exact h.nodes

omit [DecidableEq ι] in
theorem IsHeap.empty (htop : q.topNode = none) (hn : q.numberOfElements = 0) (a : Nat → ι) :
    IsHeap compare q ∅ a := by
  constructor
  · rw [hn]
    refine ⟨fun i j => by omega, ?_, fun k => by omega, fun k => by omega, fun k => by omega⟩
    rw [htop, slot_of_gt (by omega)]
  · intro k hk hkn
    omega
  · rw [hn]
    ext x
    constructor
    · rintro ⟨i, hi1, hin, _⟩
      omega
    · rintro ⟨⟩

omit [DecidableEq ι] in
theorem isHeap_of_represents {n : Nat} (hrep : Represents q n a)
    (hordered : BinaryHeap.Ordered (fun x y => compare x y = true) n a)
    (hn : q.numberOfElements - 1 = n) :
    IsHeap compare { q with numberOfElements := q.numberOfElements - 1 } (Queue.nodes n a) a := by
  subst hn
  exact ⟨hrep.congr rfl (fun x _ => ⟨rfl, rfl, rfl⟩), hordered, rfl⟩

section Order

variable [IsStrictWeakOrder ι (fun x y => compare x y = true)]

omit [DecidableEq ι] in
/-- The top is one of the nodes, and no node is greater. -/
theorem IsHeap.top (h : IsHeap compare q present a) {top : ι} (htop : q.topNode = some top) :
    top ∈ present ∧ ∀ x ∈ present, ¬ compare top x = true := by
  have hslot := h.represents.top
  rw [htop] at hslot
  by_cases hpos : 1 ≤ q.numberOfElements
  · rw [slot_of_le (le_refl 1) hpos, Option.some.injEq] at hslot
    subst hslot
    rw [← h.nodes]
    refine ⟨⟨1, le_refl 1, hpos, rfl⟩, ?_⟩
    rintro x ⟨i, hi1, hin, rfl⟩
    exact h.ordered.top i hi1 hin
  · rw [slot_of_gt (by omega)] at hslot
    cases hslot

/-- **A push adds the node.** -/
theorem IsHeap.push (h : IsHeap compare q present a) {v : ι} (hv : v ∉ present) :
    ∃ q' a', q.push compare v = some q' ∧ IsHeap compare q' (insert v present) a' := by
  rw [← h.nodes] at hv ⊢
  obtain ⟨q₁, hinsert, hcount, hrep⟩ := insertAsLast_spec h.represents rfl hv
  -- only the new node may be greater than its parent
  have hrising : BinaryHeap.Rising (fun x y => compare x y = true) (q.numberOfElements + 1)
      (update a (q.numberOfElements + 1) v) (q.numberOfElements + 1) := by
    constructor
    · intro j hj hjn hne
      rw [update_of_ne hne, update_of_ne (by omega)]
      exact h.ordered j hj (by omega)
    · intro _ j hjn hj
      omega
  obtain ⟨a', hrest, hordered⟩ := climb_spec (r := fun x y => compare x y = true)
    (fun node up => compare up node)
    (fun x y hc hc' => asymm_of (fun x y => compare x y = true) hc hc')
    (fun x y hc => Bool.not_eq_true _ ▸ hc)
    (q₁.numberOfElements + 1) q₁ _ _ hrep hrising (by omega) (le_refl _) (by omega)
  rw [update_self] at hrest
  refine ⟨bubbleUp compare (q₁.numberOfElements + 1) q₁ v, a', ?_, ?_⟩
  · unfold Queue.push
    rw [hinsert]
    rfl
  · have hheap := hrest.isHeap hcount hordered
    rw [nodes_addLast] at hheap
    exact hheap

/-- The first half of `erase` leaves the node at a leaf. -/
theorem IsHeap.bubbleDown (h : IsHeap compare q present a) {v : ι} (hv : v ∈ present) :
    ∃ a' k, Rearranged q (Queue.bubbleDown compare (q.numberOfElements + 1) q v) q.numberOfElements a a' ∧
      BinaryHeap.Sinking (fun x y => compare x y = true) q.numberOfElements a' k ∧
      1 ≤ k ∧ k ≤ q.numberOfElements ∧ q.numberOfElements < 2 * k ∧ a' k = v := by
  rw [← h.nodes] at hv
  obtain ⟨k, hk1, hkn, rfl⟩ := hv
  exact bubbleDown_spec _ q a k h.represents (h.ordered.sinking hkn) hk1 hkn (by omega)

omit [IsStrictWeakOrder ι (fun x y => compare x y = true)] in
/-- The leaf is the last node. -/
theorem removeLeaf_last {n : Nat} (hrep : Represents q n a) (hn : q.numberOfElements = n)
    (hpos : 1 ≤ n) (hsinking : BinaryHeap.Sinking (fun x y => compare x y = true) n a n) :
    ∃ q', q.removeLeaf compare (a n) (a n) = some q' ∧
      IsHeap compare { q' with numberOfElements := q'.numberOfElements - 1 }
        (Queue.nodes n a \ {a n}) a := by
  have hordered := hsinking.removeLast hpos
  rw [← hrep.nodes_removeLast hpos]
  unfold removeLeaf
  rw [if_neg (fun hc => hc rfl), hrep.up n hpos (le_refl n)]
  by_cases hone : n = 1
  · subst hone
    rw [slot_zero]
    have hcount : ({ q with topNode := none } : Queue ι).numberOfElements - 1 = 1 - 1 := by rw [hn]
    refine ⟨{ q with topNode := none }, rfl, isHeap_of_represents ?_ hordered hcount⟩
    refine ⟨fun i j => by omega, ?_, fun k => by omega, fun k => by omega, fun k => by omega⟩
    rw [slot_of_gt (by omega)]
  · rw [slot_of_le (by omega) (by omega)]
    exact ⟨_, rfl, isHeap_of_represents (hrep.removeLast (by omega)) hordered
      (by rw [replaceChild_numberOfElements, hn])⟩

/-- The leaf is another node. -/
theorem removeLeaf_other {n k : Nat} (hrep : Represents q n a) (hn : q.numberOfElements = n)
    (hk : 1 ≤ k) (hkn : k < n) (hleaf : n < 2 * k)
    (hsinking : BinaryHeap.Sinking (fun x y => compare x y = true) n a k) :
    ∃ q' a', q.removeLeaf compare (a k) (a n) = some q' ∧
      IsHeap compare { q' with numberOfElements := q'.numberOfElements - 1 }
        (Queue.nodes n a \ {a k}) a' := by
  have hnode : ∀ i j, 1 ≤ i → i ≤ n → 1 ≤ j → j ≤ n → i ≠ j → a i ≠ a j :=
    fun i j hi1 hin hj1 hjn hij hc => hij (hrep.injective i j hi1 hin hj1 hjn hc)
  have hreplace : q.replaceByLast (a k) (a n) =
      some (q.replaced (a k) (a n) (a (n / 2)) (a (k / 2))) := by
    have hne := hnode k (n / 2) hk (by omega) (by omega) (by omega) (by omega)
    apply replaceByLast_eq
    · rw [hrep.up n (by omega) (le_refl n), slot_of_le (by omega) (by omega)]
    · rw [hrep.up k hk (by omega), slot_of_le (by omega) (by omega)]
    · exact hnode _ _ (by omega) (by omega) (by omega) (le_refl n) (by omega)
    · rw [replaceChild_left, if_neg (fun hc => hne hc.1), hrep.left k hk (by omega),
        slot_of_gt (by omega)]
    · rw [replaceChild_right, if_neg (fun hc => hne hc.1), hrep.right k hk (by omega),
        slot_of_gt (by omega)]
  have hcount : (q.replaced (a k) (a n) (a (n / 2)) (a (k / 2))).numberOfElements = n := by
    simp [replaced, setUp, setLeft, setRight, hn]
  -- the last node rises from the place of the leaf
  obtain ⟨a', hrest, hordered⟩ := climb_spec (r := fun x y => compare x y = true)
    (fun last up => !compare last up)
    (fun x y hc => by simpa using hc)
    (fun x y hc hc' => asymm_of (fun x y => compare x y = true) hc' (by simpa using hc))
    (n + 1) _ _ _ (hrep.replaceByLast hk hleaf hkn) (hsinking.replace hk hleaf hkn) hk (by omega)
    (by omega)
  rw [update_self] at hrest
  have hheap := isHeap_of_represents hrest.represents hordered
    (by rw [hrest.numberOfElements, hcount])
  rw [hrest.nodes, hrep.nodes_replace hk hkn] at hheap
  refine ⟨_, a', ?_, hheap⟩
  have hlast : a n ≠ a k := hnode n k (by omega) (le_refl n) hk (by omega) (by omega)
  unfold removeLeaf
  rw [if_pos hlast, hreplace]
  simp only [Option.bind_eq_bind, Option.bind_some, hcount]
  rfl

/-- **The node is erased**: either it becomes the last one, or the last one replaces it and rises. -/
theorem IsHeap.erase (h : IsHeap compare q present a) {v : ι} (hv : v ∈ present) :
    ∃ q' a', q.erase compare v = some q' ∧ IsHeap compare q' (present \ {v}) a' := by
  obtain ⟨b, k, hdown, hsinking, hk1, hkn, hleaf, rfl⟩ := h.bubbleDown hv
  have hpresent := hdown.nodes.trans h.nodes
  rw [← hpresent]
  unfold Queue.erase
  dsimp only
  rw [lastNode_eq hdown.represents hdown.numberOfElements (by omega)]
  by_cases hk : k = q.numberOfElements
  · subst hk
    obtain ⟨q', herase, hheap⟩ :=
      removeLeaf_last hdown.represents hdown.numberOfElements hk1 hsinking
    refine ⟨_, b, ?_, hheap⟩
    simp only [Option.bind_eq_bind, Option.bind_some, herase]
    rfl
  · obtain ⟨q', a', herase, hheap⟩ :=
      removeLeaf_other hdown.represents hdown.numberOfElements hk1 (by omega) hleaf hsinking
    refine ⟨_, a', ?_, hheap⟩
    simp only [Option.bind_eq_bind, Option.bind_some, herase]
    rfl

/-- **The top is popped.** -/
theorem IsHeap.pop (h : IsHeap compare q present a) {top : ι} (htop : q.topNode = some top) :
    ∃ q' a', q.pop compare = some q' ∧ IsHeap compare q' (present \ {top}) a' := by
  unfold Queue.pop
  rw [htop]
  exact h.erase (h.top htop).1

end Order

/-! ## Runs -/

/-- The queues that are reached from an empty one by `push` of nodes that are not in the queue, `pop`
of queues that are not empty and `erase` of nodes that are in the queue, with the nodes that were
pushed and not removed since. -/
inductive Reaches (compare : ι → ι → Bool) : Queue ι → Finset ι → Prop where
  | empty {q : Queue ι} (htop : q.topNode = none) (hn : q.numberOfElements = 0) : Reaches compare q ∅
  | push {q q' : Queue ι} {present : Finset ι} {v : ι} (h : Reaches compare q present)
      (hv : v ∉ present) (hq : q.push compare v = some q') : Reaches compare q' (insert v present)
  | pop {q q' : Queue ι} {present : Finset ι} {top : ι} (h : Reaches compare q present)
      (htop : q.topNode = some top) (hq : q.pop compare = some q') :
      Reaches compare q' (present.erase top)
  | erase {q q' : Queue ι} {present : Finset ι} {v : ι} (h : Reaches compare q present)
      (hv : v ∈ present) (hq : q.erase compare v = some q') : Reaches compare q' (present.erase v)

/-- Every queue that is reached is a heap of the nodes that are present. -/
theorem Reaches.isHeap [Inhabited ι] [IsStrictWeakOrder ι (fun x y => compare x y = true)]
    {q : Queue ι} {present : Finset ι} (h : Reaches compare q present) :
    ∃ a, IsHeap compare q present a := by
  induction h with
  | empty htop hn =>
      refine ⟨fun _ => default, ?_⟩
      rw [Finset.coe_empty]
      exact IsHeap.empty htop hn _
  | push _ hv hq ih =>
      obtain ⟨a, ha⟩ := ih
      obtain ⟨q', a', hq', ha'⟩ := ha.push (Finset.mem_coe.not.mpr hv)
      obtain rfl : q' = _ := Option.some.inj (hq'.symm.trans hq)
      rw [Finset.coe_insert]
      exact ⟨a', ha'⟩
  | pop _ htop hq ih =>
      obtain ⟨a, ha⟩ := ih
      obtain ⟨q', a', hq', ha'⟩ := ha.pop htop
      obtain rfl : q' = _ := Option.some.inj (hq'.symm.trans hq)
      rw [Finset.coe_erase]
      exact ⟨a', ha'⟩
  | erase _ hv hq ih =>
      obtain ⟨a, ha⟩ := ih
      obtain ⟨q', a', hq', ha'⟩ := ha.erase (Finset.mem_coe.mpr hv)
      obtain rfl : q' = _ := Option.some.inj (hq'.symm.trans hq)
      rw [Finset.coe_erase]
      exact ⟨a', ha'⟩

omit [DecidableEq ι] in
/-- The positions of the tree hold each node that is present once. -/
theorem IsHeap.multiset {q : Queue ι} {present : Finset ι} {a : Nat → ι}
    (h : IsHeap compare q present a) :
    (Finset.Icc 1 q.numberOfElements).val.map a = present.val := by
  have hnodup : ((Finset.Icc 1 q.numberOfElements).val.map a).Nodup := by
    refine Multiset.Nodup.map_on (fun i hi j hj hij => ?_) (Finset.Icc 1 q.numberOfElements).nodup
    rw [Finset.mem_val, Finset.mem_Icc] at hi hj
    exact h.represents.injective i j hi.1 hi.2 hj.1 hj.2 hij
  refine (Multiset.Nodup.ext hnodup present.nodup).mpr (fun x => ?_)
  rw [Finset.mem_val, ← Finset.mem_coe, ← h.nodes, Multiset.mem_map]
  constructor
  · rintro ⟨i, hi, rfl⟩
    rw [Finset.mem_val, Finset.mem_Icc] at hi
    exact ⟨i, hi.1, hi.2, rfl⟩
  · rintro ⟨i, hi1, hin, rfl⟩
    exact ⟨i, by rw [Finset.mem_val, Finset.mem_Icc]; exact ⟨hi1, hin⟩, rfl⟩

/-- **Every queue that is reached is a heap of the nodes that were pushed and not removed.** The
pointers link the nodes to a complete tree, filled from the left, of `numberOfElements` nodes, no
node is less than a child, and the nodes are those present, each once. The top is a maximal one of
them, there is none only when the queue is empty, and no operation dereferences a null pointer or
fails an assertion. -/
theorem Reaches.isHeap_of_present [Inhabited ι] [IsStrictWeakOrder ι (fun x y => compare x y = true)]
    {q : Queue ι} {present : Finset ι} (h : Reaches compare q present) :
    (∃ a, Represents q q.numberOfElements a ∧
      (∀ k, 2 ≤ k → k ≤ q.numberOfElements → ¬ compare (a (k / 2)) (a k) = true) ∧
      (Finset.Icc 1 q.numberOfElements).val.map a = present.val) ∧
    (∀ top, q.topNode = some top → top ∈ present ∧ ∀ x ∈ present, ¬ compare top x = true) ∧
    (q.topNode = none ↔ present = ∅) ∧
    (∀ v, v ∉ present → (q.push compare v).isSome) ∧
    (present ≠ ∅ → (q.pop compare).isSome) ∧
    (∀ v, v ∈ present → (q.erase compare v).isSome) := by
  obtain ⟨a, ha⟩ := h.isHeap
  have hempty : q.topNode = none ↔ present = ∅ := by
    rw [← Finset.card_eq_zero, ← Finset.card_val, ← ha.multiset, Multiset.card_map, Finset.card_val,
      Nat.card_Icc, ha.represents.top]
    by_cases hpos : 1 ≤ q.numberOfElements
    · simp [slot_of_le (le_refl 1) hpos]
      omega
    · simp [slot_of_gt (show q.numberOfElements < 1 by omega)]
      omega
  refine ⟨⟨a, ha.represents, ha.ordered, ha.multiset⟩, ?_, hempty, ?_, ?_, ?_⟩
  · intro top htop
    exact ha.top htop
  · intro v hv
    obtain ⟨q', _, hq', _⟩ := ha.push (Finset.mem_coe.not.mpr hv)
    rw [hq']
    rfl
  · intro hne
    obtain ⟨top, htop⟩ := Option.ne_none_iff_exists'.mp (mt hempty.mp hne)
    obtain ⟨q', _, hq', _⟩ := ha.pop htop
    rw [hq']
    rfl
  · intro v hv
    obtain ⟨q', _, hq', _⟩ := ha.erase (Finset.mem_coe.mpr hv)
    rw [hq']
    rfl

/-- Numbers in the order of their last digits, with ties between those that have the same one. -/
def byLastDigit (x y : Nat) : Bool := decide (x % 10 < y % 10)

instance : IsStrictWeakOrder Nat (fun x y => byLastDigit x y = true) where
  irrefl x h := by
    simp [byLastDigit] at h
  trans x y z hxy hyz := by
    simp only [byLastDigit, decide_eq_true_eq] at *
    omega
  incomp_trans x y z hxy hyz := by
    simp only [byLastDigit, decide_eq_true_eq] at *
    omega

/-- Of 1, 2, 11 and 12 the first two remain after an erase of 11 and a pop, which takes 12. -/
theorem Reaches.isHeap_of_present_ties :
    ∃ q, Reaches byLastDigit q {1, 2} ∧ q.topNode = some 2 ∧
      (∃ a, Represents q q.numberOfElements a ∧
        (∀ k, 2 ≤ k → k ≤ q.numberOfElements → ¬ byLastDigit (a (k / 2)) (a k) = true) ∧
        (Finset.Icc 1 q.numberOfElements).val.map a = ({1, 2} : Finset Nat).val) := by
  let q : Queue Nat := { up := fun _ => none, left := fun _ => none, right := fun _ => none }
  have h : Reaches byLastDigit q ∅ := Reaches.empty rfl rfl
  have h := h.push (v := 1) (by decide) (Option.some_get (by decide +kernel)).symm
  have h := h.push (v := 12) (by decide) (Option.some_get (by decide +kernel)).symm
  have h := h.push (v := 11) (by decide) (Option.some_get (by decide +kernel)).symm
  have h := h.push (v := 2) (by decide) (Option.some_get (by decide +kernel)).symm
  have h := h.erase (v := 11) (by decide) (Option.some_get (by decide +kernel)).symm
  have h := h.pop (show _ = some 12 by decide +kernel) (Option.some_get (by decide +kernel)).symm
  have hset : Finset.erase (Finset.erase (insert 2 (insert 11 (insert 12 (insert 1 ∅)))) 11) 12 =
      ({1, 2} : Finset Nat) := by decide
  rw [hset] at h
  exact ⟨_, h, by decide +kernel, h.isHeap_of_present.1⟩

/-! ## Popping all nodes -/

/-- `top` and `pop`, so many times. -/
def popAll (compare : ι → ι → Bool) : Nat → Queue ι → Option (List ι)
  | 0, _ => some []
  | n + 1, q => do
      let top ← q.topNode
      let q ← q.pop compare
      let rest ← popAll compare n q
      return top :: rest

/-- **The queue sorts**: the nodes that are present come out, each once and none behind a lesser one. -/
theorem Reaches.popAll_sorted [Inhabited ι] [IsStrictWeakOrder ι (fun x y => compare x y = true)] {q : Queue ι}
    {present : Finset ι} (h : Reaches compare q present) :
    ∃ xs : List ι, q.popAll compare present.card = some xs ∧ (xs : Multiset ι) = present.val ∧
      xs.Pairwise fun x y => ¬ compare x y = true := by
  generalize hcard : present.card = n
  induction n generalizing q present with
  | zero => exact ⟨[], rfl, by simp [Finset.card_eq_zero.mp hcard], .nil⟩
  | succ n ih =>
      obtain ⟨a, ha⟩ := h.isHeap
      have hpos : 1 ≤ q.numberOfElements := by
        have hsize := congrArg Multiset.card ha.multiset
        simp [hcard] at hsize
        omega
      have htop : q.topNode = some (a 1) := ha.represents.top.trans (slot_of_le le_rfl hpos)
      obtain ⟨hmem, hgreatest⟩ := ha.top htop
      obtain ⟨q', -, hpop, -⟩ := ha.pop htop
      obtain ⟨xs, hxs, hrest, hsorted⟩ := ih (h.pop htop hpop) (by simp [Finset.card_erase_of_mem hmem, hcard])
      refine ⟨a 1 :: xs, by simp [popAll, htop, hpop, hxs], ?_, ?_⟩
      · rw [← Multiset.cons_coe, hrest, Finset.erase_val, Multiset.cons_erase hmem]
      · refine List.pairwise_cons.mpr ⟨fun x hx => hgreatest x ?_, hsorted⟩
        exact Finset.mem_of_mem_erase (Finset.mem_val.mp (hrest ▸ Multiset.mem_coe.mpr hx))

theorem Reaches.popAll_sorted_two : ∃ (q : Queue Nat) (xs : List Nat), q.popAll byLastDigit 2 = some xs ∧
    (xs : Multiset Nat) = Finset.val {12, 1} ∧ xs.Pairwise fun x y => ¬ byLastDigit x y = true := by
  let q : Queue Nat := { up := fun _ => none, left := fun _ => none, right := fun _ => none }
  have h : Reaches byLastDigit q ∅ := Reaches.empty rfl rfl
  have h := h.push (v := 1) (by decide) (Option.some_get (by decide +kernel)).symm
  exact ⟨_, (h.push (v := 12) (by decide) (Option.some_get (by decide +kernel)).symm).popAll_sorted⟩

end Queue

end EmbeddedInfra.IntrusivePriorityQueue
