import EmbeddedInfra.Lib.BinaryHeap
import Mathlib.Data.Nat.Bitwise

set_option autoImplicit false

/-! # The intrusive priority queue

`infra::IntrusivePriorityQueue` is a binary heap whose nodes are linked by pointers: each node has a
pointer to its parent and to its two children, which are members of the elements themselves. The
nodes are the type `ι`, and the pointers are functions on it. Dereferencing a null pointer, and an
assertion that fails, is `none`.
-/

namespace EmbeddedInfra.IntrusivePriorityQueue

open BinaryHeap Function

variable {ι : Type} [DecidableEq ι]

/-! ## The queue -/

/-- The members of the queue, and those of the nodes. -/
structure Queue (ι : Type) where
  up : ι → Option ι
  left : ι → Option ι
  right : ι → Option ι
  topNode : Option ι := none
  numberOfElements : Nat := 0

namespace Queue

def setUp (q : Queue ι) (x : ι) (v : Option ι) : Queue ι := { q with up := update q.up x v }

def setLeft (q : Queue ι) (x : ι) (v : Option ι) : Queue ι :=
  { q with left := update q.left x v }

def setRight (q : Queue ι) (x : ι) (v : Option ι) : Queue ι :=
  { q with right := update q.right x v }

/-- `if (x != nullptr) x->up = v` -/
def setUpOf (q : Queue ι) (x : Option ι) (v : Option ι) : Queue ι :=
  match x with
  | none => q
  | some x => q.setUp x v

/-- `if (up->left == old) up->left = v; else up->right = v;` -/
def replaceChild (q : Queue ι) (up old : ι) (v : Option ι) : Queue ι :=
  if q.left up = some old then q.setLeft up v else q.setRight up v

/-- The parent of `parent`, if there is one, gets `child` in its place. -/
def relink (q : Queue ι) (parentUp : Option ι) (parent child : ι) : Queue ι :=
  match parentUp with
  | none => q
  | some up => q.replaceChild up parent (some child)

def swapChildAndParentNodes (q : Queue ι) (child parent : ι) : Queue ι :=
  let parentUp := q.up parent
  let q := q.relink parentUp parent child
  let leftRotate := decide (q.left parent = some child)
  let otherChild := if leftRotate then q.right parent else q.left parent
  let q := q.setLeft parent (q.left child)
  let q := q.setRight parent (q.right child)
  let q := q.setUpOf (q.left parent) (some parent)
  let q := q.setUpOf (q.right parent) (some parent)
  let q := q.setUp parent (some child)
  let q := q.setUpOf otherChild (some child)
  let q := q.setLeft child (if leftRotate then some parent else otherChild)
  let q := q.setRight child (if leftRotate then otherChild else some parent)
  let q := q.setUp child parentUp
  if q.topNode = some parent then { q with topNode := some child } else q

/-- `while (direction <= numberOfElements) direction <<= 1;` The first argument bounds the number of
turns. -/
def raise (numberOfElements : Nat) : Nat → Nat → Nat
  | 0, direction => direction
  | turns + 1, direction =>
      if direction ≤ numberOfElements then raise numberOfElements turns (direction <<< 1)
      else direction

/-- The direction to begin the descent with. -/
def firstDirection (numberOfElements : Nat) : Nat :=
  raise numberOfElements (numberOfElements + 1) 1 >>> 2

/-- The child of `node` that the bit `direction` of `numberOfElements` stands for. -/
def childToward (q : Queue ι) (direction : Nat) (node : ι) : Option ι :=
  if q.numberOfElements &&& direction ≠ 0 then q.right node else q.left node

/-- The descent from `node` along the bits of `numberOfElements`, until `direction` is `last`. -/
def descend (q : Queue ι) (last : Nat) : Nat → Nat → ι → Option ι
  | 0, _, node => some node
  | turns + 1, direction, node =>
      if direction = last then
        some node
      else do
        let next ← q.childToward direction node
        q.descend last turns (direction >>> 1) next

def insertAsLast (q : Queue ι) (value : ι) : Option (Queue ι) :=
  let q := (q.setRight value none).setLeft value none
  match q.topNode with
  | none =>
      some { q.setUp value none with
        numberOfElements := q.numberOfElements + 1
        topNode := some value }
  | some top => do
      let q := { q with numberOfElements := q.numberOfElements + 1 }
      let node ← q.descend 1 (q.numberOfElements + 1) (firstDirection q.numberOfElements) top
      -- `direction` is 1 now
      let q := if q.numberOfElements &&& 1 ≠ 0 then q.setRight node (some value)
        else q.setLeft node (some value)
      return q.setUp value (some node)

def lastNode (q : Queue ι) : Option ι := do
  let top ← q.topNode
  q.descend 0 (q.numberOfElements + 1) (firstDirection q.numberOfElements) top

variable (compare : ι → ι → Bool) {n i k : Nat} {a : Nat → ι} {v : ι} {q : Queue ι}

/-- A loop that exchanges `node` with its parent as long as `passes node parent`. -/
def climb (passes : ι → ι → Bool) : Nat → Queue ι → ι → Queue ι
  | 0, q, _ => q
  | turns + 1, q, node =>
      match q.up node with
      | none => q
      | some up =>
          if passes node up then climb passes turns (q.swapChildAndParentNodes node up) node else q

/-- The loop of `push`. -/
def bubbleUp : Nat → Queue ι → ι → Queue ι := climb (fun node up => compare up node)

/-- The second loop of `erase`; unlike that of `push` it also passes nodes that are equivalent. -/
def bubbleLastUp : Nat → Queue ι → ι → Queue ι := climb (fun last up => !compare last up)

def push (q : Queue ι) (value : ι) : Option (Queue ι) := do
  let q ← q.insertAsLast value
  return bubbleUp compare (q.numberOfElements + 1) q value

/-- The child that takes the place of `node` on its way down. -/
def shiftUpNode (q : Queue ι) (node : ι) : Option ι :=
  match q.left node, q.right node with
  | some left, some right => if compare left right then some right else some left
  | some left, none => some left
  | none, right => right

/-- The first loop of `erase`. -/
def bubbleDown : Nat → Queue ι → ι → Queue ι
  | 0, q, _ => q
  | turns + 1, q, node =>
      match q.shiftUpNode compare node with
      | none => q
      | some child => bubbleDown turns (q.swapChildAndParentNodes child node) node

/-- `erasingNode`, which is a leaf, is replaced by `last`. -/
def replaceByLast (q : Queue ι) (erasingNode last : ι) : Option (Queue ι) := do
  let lastUp ← q.up last
  let _ ← q.up erasingNode
  let q := q.replaceChild lastUp last none
  let q := q.setUp last (q.up erasingNode)
  let q := q.setLeft last (q.left erasingNode)
  let q := q.setRight last (q.right erasingNode)
  let up ← q.up last
  let q := q.replaceChild up erasingNode (some last)
  let q := q.setUpOf (q.right last) (some last)
  return q.setUpOf (q.left last) (some last)

/-- The tree of `erase` without `erasingNode`, which is a leaf. -/
def removeLeaf (q : Queue ι) (erasingNode last : ι) : Option (Queue ι) :=
  if last ≠ erasingNode then do
    let q ← q.replaceByLast erasingNode last
    return bubbleLastUp compare (q.numberOfElements + 1) q last
  else
    match q.up last with
    | none => some { q with topNode := none }
    | some up => some (q.replaceChild up last none)

def erase (q : Queue ι) (erasingNode : ι) : Option (Queue ι) := do
  let q := bubbleDown compare (q.numberOfElements + 1) q erasingNode
  let last ← q.lastNode
  let q ← q.removeLeaf compare erasingNode last
  return { q with numberOfElements := q.numberOfElements - 1 }

def pop (q : Queue ι) : Option (Queue ι) := do
  let top ← q.topNode
  q.erase compare top

/-! ## The tree -/

/-- The node at position `i` of a tree of `n` nodes. -/
def slot (n : Nat) (a : Nat → ι) (i : Nat) : Option ι := if 1 ≤ i ∧ i ≤ n then some (a i) else none

/-- The pointers form a complete binary tree with the node `a k` at position `k`. -/
structure Represents (q : Queue ι) (n : Nat) (a : Nat → ι) : Prop where
  injective : ∀ i j, 1 ≤ i → i ≤ n → 1 ≤ j → j ≤ n → a i = a j → i = j
  top : q.topNode = slot n a 1
  up : ∀ k, 1 ≤ k → k ≤ n → q.up (a k) = slot n a (k / 2)
  left : ∀ k, 1 ≤ k → k ≤ n → q.left (a k) = slot n a (2 * k)
  right : ∀ k, 1 ≤ k → k ≤ n → q.right (a k) = slot n a (2 * k + 1)

omit [DecidableEq ι] in
theorem slot_of_le (h1 : 1 ≤ i) (hn : i ≤ n) :
    slot n a i = some (a i) := if_pos ⟨h1, hn⟩

omit [DecidableEq ι] in
theorem slot_of_gt (h : n < i) : slot n a i = none :=
  if_neg (by omega)

omit [DecidableEq ι] in
theorem slot_zero : slot n a 0 = none := if_neg (by omega)

omit [DecidableEq ι] in
theorem Represents.slot_eq_some (h : Represents q n a)
    {j : Nat} (hj1 : 1 ≤ j) (hjn : j ≤ n) : slot n a i = some (a j) ↔ i = j := by
  unfold slot
  split
  · rename_i hi
    rw [Option.some.injEq]
    exact ⟨h.injective i j hi.1 hi.2 hj1 hjn, congrArg a⟩
  · rename_i hi
    constructor
    · intro hc
      cases hc
    · rintro rfl
      exact absurd ⟨hj1, hjn⟩ hi

/-! ## The exchange of a node with its parent -/

theorem setUpOf_up (q : Queue ι) (x v : Option ι) (y : ι) :
    (q.setUpOf x v).up y = if x = some y then v else q.up y := by
  cases x with
  | none => rfl
  | some x =>
      simp only [setUpOf, setUp, update_apply, Option.some.injEq, eq_comm]

@[simp] theorem setUpOf_left (q : Queue ι) (x v : Option ι) : (q.setUpOf x v).left = q.left := by
  cases x <;> rfl

@[simp] theorem setUpOf_right (q : Queue ι) (x v : Option ι) :
    (q.setUpOf x v).right = q.right := by
  cases x <;> rfl

@[simp] theorem setUpOf_topNode (q : Queue ι) (x v : Option ι) :
    (q.setUpOf x v).topNode = q.topNode := by
  cases x <;> rfl

@[simp] theorem setUpOf_numberOfElements (q : Queue ι) (x v : Option ι) :
    (q.setUpOf x v).numberOfElements = q.numberOfElements := by
  cases x <;> rfl

theorem replaceChild_left (q : Queue ι) (up old : ι) (v : Option ι) (y : ι) :
    (q.replaceChild up old v).left y =
      if y = up ∧ q.left up = some old then v else q.left y := by
  unfold replaceChild
  split
  · rename_i hl
    simp [setLeft, update_apply, hl]
  · rename_i hl
    simp [setRight, hl]

theorem replaceChild_right (q : Queue ι) (up old : ι) (v : Option ι) (y : ι) :
    (q.replaceChild up old v).right y =
      if y = up ∧ q.left up ≠ some old then v else q.right y := by
  unfold replaceChild
  split
  · rename_i hl
    simp [setLeft, hl]
  · rename_i hl
    simp [setRight, update_apply, hl]

@[simp] theorem replaceChild_up (q : Queue ι) (up old : ι) (v : Option ι) :
    (q.replaceChild up old v).up = q.up := by
  unfold replaceChild
  split <;> rfl

@[simp] theorem replaceChild_topNode (q : Queue ι) (up old : ι) (v : Option ι) :
    (q.replaceChild up old v).topNode = q.topNode := by
  unfold replaceChild
  split <;> rfl

@[simp] theorem replaceChild_numberOfElements (q : Queue ι) (up old : ι) (v : Option ι) :
    (q.replaceChild up old v).numberOfElements = q.numberOfElements := by
  unfold replaceChild
  split <;> rfl

theorem relink_left (q : Queue ι) (parentUp : Option ι) (parent child y : ι) :
    (q.relink parentUp parent child).left y =
      if parentUp = some y ∧ q.left y = some parent then some child else q.left y := by
  cases parentUp with
  | none => simp [relink]
  | some up =>
      rw [relink, replaceChild_left]
      by_cases hy : y = up
      · simp [hy]
      · simp [hy, Ne.symm hy]

theorem relink_right (q : Queue ι) (parentUp : Option ι) (parent child y : ι) :
    (q.relink parentUp parent child).right y =
      if parentUp = some y ∧ q.left y ≠ some parent then some child else q.right y := by
  cases parentUp with
  | none => simp [relink]
  | some up =>
      rw [relink, replaceChild_right]
      by_cases hy : y = up
      · simp [hy]
      · simp [hy, Ne.symm hy]

@[simp] theorem relink_up (q : Queue ι) (parentUp : Option ι) (parent child : ι) :
    (q.relink parentUp parent child).up = q.up := by
  cases parentUp <;> simp [relink]

@[simp] theorem relink_topNode (q : Queue ι) (parentUp : Option ι) (parent child : ι) :
    (q.relink parentUp parent child).topNode = q.topNode := by
  cases parentUp <;> simp [relink]

@[simp] theorem relink_numberOfElements (q : Queue ι) (parentUp : Option ι) (parent child : ι) :
    (q.relink parentUp parent child).numberOfElements = q.numberOfElements := by
  cases parentUp <;> simp [relink]

/-- The other child of the parent. -/
def otherChild (q : Queue ι) (child parent : ι) : Option ι :=
  if q.left parent = some child then q.right parent else q.left parent

section Swap

variable {q : Queue ι} {child parent : ι} (hchild : q.up parent ≠ some child)
  (hparent : q.up parent ≠ some parent)

include hchild hparent

theorem relinked (x : ι) (hx : x = child ∨ x = parent) :
    (q.relink (q.up parent) parent child).left x = q.left x ∧
      (q.relink (q.up parent) parent child).right x = q.right x := by
  rcases hx with rfl | rfl
  · simp [relink_left, relink_right, hchild]
  · simp [relink_left, relink_right, hparent]

theorem swap_left (y : ι) :
    (q.swapChildAndParentNodes child parent).left y =
      if y = child then
        (if q.left parent = some child then some parent else q.otherChild child parent)
      else if y = parent then q.left child
      else if q.up parent = some y ∧ q.left y = some parent then some child
      else q.left y := by
  obtain ⟨hcl, hcr⟩ := relinked hchild hparent child (Or.inl rfl)
  obtain ⟨hpl, hpr⟩ := relinked hchild hparent parent (Or.inr rfl)
  unfold swapChildAndParentNodes otherChild
  simp only [apply_ite Queue.left, ite_self, setUp, setLeft, setRight, setUpOf_left, hcl, hcr,
    hpl, hpr, update_apply, relink_left, decide_eq_true_eq]

theorem swap_right (y : ι) :
    (q.swapChildAndParentNodes child parent).right y =
      if y = child then
        (if q.left parent = some child then q.otherChild child parent else some parent)
      else if y = parent then q.right child
      else if q.up parent = some y ∧ q.left y ≠ some parent then some child
      else q.right y := by
  obtain ⟨hcl, hcr⟩ := relinked hchild hparent child (Or.inl rfl)
  obtain ⟨hpl, hpr⟩ := relinked hchild hparent parent (Or.inr rfl)
  unfold swapChildAndParentNodes otherChild
  simp only [apply_ite Queue.right, ite_self, setUp, setLeft, setRight, setUpOf_right, hcl, hcr,
    hpl, hpr, update_apply, relink_right, decide_eq_true_eq]

theorem swap_up (y : ι) :
    (q.swapChildAndParentNodes child parent).up y =
      if y = child then q.up parent
      else if q.otherChild child parent = some y then some child
      else if y = parent then some child
      else if q.right child = some y ∨ q.left child = some y then some parent
      else q.up y := by
  obtain ⟨hcl, hcr⟩ := relinked hchild hparent child (Or.inl rfl)
  obtain ⟨hpl, hpr⟩ := relinked hchild hparent parent (Or.inr rfl)
  unfold swapChildAndParentNodes otherChild
  simp only [apply_ite Queue.up, ite_self, setUp, setLeft, setRight, setUpOf_up, setUpOf_left,
    setUpOf_right, hcl, hcr, hpl, hpr, update_apply, relink_up, decide_eq_true_eq, ite_or,
    if_true]

end Swap

theorem swap_topNode (q : Queue ι) (child parent : ι) :
    (q.swapChildAndParentNodes child parent).topNode =
      if q.topNode = some parent then some child else q.topNode := by
  unfold swapChildAndParentNodes
  simp [apply_ite Queue.topNode, setUp, setLeft, setRight]

theorem swap_numberOfElements (q : Queue ι) (child parent : ι) :
    (q.swapChildAndParentNodes child parent).numberOfElements = q.numberOfElements := by
  unfold swapChildAndParentNodes
  simp [apply_ite Queue.numberOfElements, setUp, setLeft, setRight]

/-- **The node at position `k` and its parent change places.** -/
theorem Represents.swap (h : Represents q n a) (hk : 2 ≤ k) (hn : k ≤ n) :
    Represents (q.swapChildAndParentNodes (a k) (a (k / 2))) n (exchange a k (k / 2)) := by
  have hp1 : 1 ≤ k / 2 := by omega
  have hpn : k / 2 ≤ n := by omega
  have hup : q.up (a (k / 2)) = slot n a (k / 2 / 2) := h.up (k / 2) hp1 hpn
  have hchild : q.up (a (k / 2)) ≠ some (a k) := by
    rw [hup, Ne, h.slot_eq_some (by omega) hn]
    omega
  have hparent : q.up (a (k / 2)) ≠ some (a (k / 2)) := by
    rw [hup, Ne, h.slot_eq_some hp1 hpn]
    omega
  have hleft : q.left (a (k / 2)) = some (a k) ↔ k % 2 = 0 := by
    rw [h.left (k / 2) hp1 hpn, h.slot_eq_some (by omega) hn]
    omega
  have hother : q.otherChild (a k) (a (k / 2)) = slot n a (if k % 2 = 0 then k + 1 else k - 1) := by
    unfold otherChild
    by_cases heven : k % 2 = 0
    · rw [if_pos (hleft.mpr heven), if_pos heven, h.right (k / 2) hp1 hpn]
      congr 1
      omega
    · rw [if_neg (fun hc => heven (hleft.mp hc)), if_neg heven, h.left (k / 2) hp1 hpn]
      congr 1
      omega
  -- the slots of the new tree
  have hslotk : slot n (exchange a k (k / 2)) k = some (a (k / 2)) := by
    rw [slot_of_le (by omega) hn, exchange_left]
  have hslotp : slot n (exchange a k (k / 2)) (k / 2) = some (a k) := by
    rw [slot_of_le hp1 hpn, exchange_right]
  have hslot : ∀ i, i ≠ k → i ≠ k / 2 →
      slot n (exchange a k (k / 2)) i = slot n a i := by
    intro i hik hip
    unfold slot
    rw [exchange_of_ne a hik hip]
  have hnode : ∀ i j, 1 ≤ i → i ≤ n → 1 ≤ j → j ≤ n → (a i = a j ↔ i = j) :=
    fun i j hi1 hin hj1 hjn => ⟨h.injective i j hi1 hin hj1 hjn, congrArg a⟩
  -- the node at a position is the parent, the child or another one
  have hcases : ∀ (P : Nat → ι → Prop), P k (a (k / 2)) → P (k / 2) (a k) →
      (∀ j, 1 ≤ j → j ≤ n → j ≠ k → j ≠ k / 2 → a j ≠ a k → a j ≠ a (k / 2) → P j (a j)) →
      ∀ j, 1 ≤ j → j ≤ n → P j (exchange a k (k / 2) j) := by
    intro P hPk hPp hPj j hj1 hjn
    by_cases hjk : j = k
    · rw [hjk, exchange_left]
      exact hPk
    · by_cases hjp : j = k / 2
      · rw [hjp, exchange_right]
        exact hPp
      · rw [exchange_of_ne a hjk hjp]
        exact hPj j hj1 hjn hjk hjp (fun hc => hjk ((hnode j k hj1 hjn (by omega) hn).mp hc))
          (fun hc => hjp ((hnode j (k / 2) hj1 hjn hp1 hpn).mp hc))
  have hne : a (k / 2) ≠ a k := by
    rw [Ne, hnode (k / 2) k hp1 hpn (by omega) hn]
    omega
  constructor
  · intro i j hi1 hin hj1 hjn hij
    have hrange : ∀ i, 1 ≤ i → i ≤ n → 1 ≤ Equiv.swap k (k / 2) i ∧ Equiv.swap k (k / 2) i ≤ n := by
      intro i hi1 hin
      rw [Equiv.swap_apply_def]
      split
      · exact ⟨hp1, hpn⟩
      · split <;> omega
    exact (Equiv.swap k (k / 2)).injective
      (h.injective _ _ (hrange i hi1 hin).1 (hrange i hi1 hin).2 (hrange j hj1 hjn).1
        (hrange j hj1 hjn).2 hij)
  · rw [swap_topNode, h.top]
    by_cases htop : k / 2 = 1
    · rw [if_pos ((h.slot_eq_some hp1 hpn).mpr htop.symm), ← htop, hslotp]
    · rw [if_neg (fun hc => htop ((h.slot_eq_some hp1 hpn).mp hc).symm), hslot 1 (by omega)
        (fun hc => htop hc.symm)]
  · refine hcases (fun j x => _ = slot n _ (j / 2)) ?_ ?_ ?_
    · rw [swap_up hchild hparent, if_neg hne, if_pos rfl, hslotp, ite_self]
    · rw [swap_up hchild hparent, if_pos rfl, hup, hslot _ (by omega) (by omega)]
    · intro j hj1 hjn hjk hjp hak hap
      rw [swap_up hchild hparent, if_neg hak, if_neg hap, hother, h.right k (by omega) hn,
        h.left k (by omega) hn]
      simp only [h.slot_eq_some hj1 hjn]
      by_cases hsibling : j / 2 = k / 2
      · rw [hsibling, hslotp, if_pos (by split <;> omega)]
      · rw [if_neg (by split <;> omega)]
        by_cases hbelow : j / 2 = k
        · rw [hbelow, hslotk, if_pos (by omega)]
        · rw [if_neg (by omega), hslot _ hbelow hsibling, h.up j hj1 hjn]
  · refine hcases (fun j x => _ = slot n _ (2 * j)) ?_ ?_ ?_
    · rw [swap_left hchild hparent, if_neg hne, if_pos rfl, hslot _ (by omega) (by omega),
        h.left k (by omega) hn]
    · rw [swap_left hchild hparent, if_pos rfl, hother]
      by_cases heven : k % 2 = 0
      · have hpos : 2 * (k / 2) = k := by omega
        rw [if_pos (hleft.mpr heven), hpos, hslotk]
      · have hpos : 2 * (k / 2) = k - 1 := by omega
        rw [if_neg (fun hc => heven (hleft.mp hc)), if_neg heven, hpos,
          hslot _ (by omega) (by omega)]
    · intro j hj1 hjn hjk hjp hak hap
      rw [swap_left hchild hparent, if_neg hak, if_neg hap, hup, h.left j hj1 hjn]
      simp only [h.slot_eq_some hj1 hjn, h.slot_eq_some hp1 hpn]
      by_cases hj : 2 * j = k / 2
      · rw [if_pos ⟨by omega, hj⟩, hj, hslotp]
      · rw [if_neg (fun hc => hj hc.2), hslot _ (by omega) hj]
  · refine hcases (fun j x => _ = slot n _ (2 * j + 1)) ?_ ?_ ?_
    · rw [swap_right hchild hparent, if_neg hne, if_pos rfl, hslot _ (by omega) (by omega),
        h.right k (by omega) hn]
    · rw [swap_right hchild hparent, if_pos rfl, hother]
      by_cases heven : k % 2 = 0
      · have hpos : 2 * (k / 2) + 1 = k + 1 := by omega
        rw [if_pos (hleft.mpr heven), if_pos heven, hpos, hslot _ (by omega) (by omega)]
      · have hpos : 2 * (k / 2) + 1 = k := by omega
        rw [if_neg (fun hc => heven (hleft.mp hc)), hpos, hslotk]
    · intro j hj1 hjn hjk hjp hak hap
      rw [swap_right hchild hparent, if_neg hak, if_neg hap, hup, h.left j hj1 hjn, h.right j hj1 hjn]
      simp only [h.slot_eq_some hj1 hjn, Ne, h.slot_eq_some hp1 hpn]
      by_cases hj : 2 * j + 1 = k / 2
      · rw [if_pos ⟨by omega, by omega⟩, hj, hslotp]
      · rw [if_neg (by omega), hslot _ (by omega) hj]

/-! ## The way to the last position -/

theorem raise_eq {L : Nat} (hL : 2 ^ L ≤ n) (hL' : n < 2 ^ (L + 1)) (turns e : Nat)
    (he : e ≤ L + 1) (hturns : L + 1 - e ≤ turns) : raise n turns (2 ^ e) = 2 ^ (L + 1) := by
  induction turns generalizing e with
  | zero =>
      have : e = L + 1 := by omega
      rw [this]
      rfl
  | succ turns ih =>
      unfold raise
      by_cases hle : e = L + 1
      · rw [hle, if_neg (by omega)]
      · have hpow : 2 ^ e ≤ 2 ^ L := Nat.pow_le_pow_right (by omega) (by omega)
        rw [if_pos (by omega), Nat.shiftLeft_eq, ← Nat.pow_add]
        exact ih (e + 1) (by omega) (by omega)

/-- The descent begins below the leading bit of the number of elements. -/
theorem firstDirection_eq (hn : 1 ≤ n) : firstDirection n = 2 ^ Nat.log 2 n / 2 := by
  have hL : 2 ^ Nat.log 2 n ≤ n := Nat.pow_log_le_self 2 (by omega)
  have hL' : n < 2 ^ (Nat.log 2 n + 1) := Nat.lt_pow_succ_log_self (by omega) n
  have hlog : Nat.log 2 n ≤ n := Nat.log_le_self 2 n
  have hraise := raise_eq hL hL' (n + 1) 0 (by omega) (by omega)
  unfold firstDirection
  rw [← Nat.pow_zero 2, hraise, Nat.shiftRight_eq_div_pow, Nat.pow_succ]
  omega

/-- The descent follows the bits of the number of elements. -/
theorem descend_eq (h : Represents q n a) {s : Nat}
    (hs : q.numberOfElements / 2 ^ s ≤ n) (turns r : Nat) (hr : s ≤ r)
    (hpos : 1 ≤ q.numberOfElements / 2 ^ r) (hturns : r - s < turns) :
    q.descend (2 ^ s / 2) turns (2 ^ r / 2) (a (q.numberOfElements / 2 ^ r)) =
      some (a (q.numberOfElements / 2 ^ s)) := by
  induction turns generalizing r with
  | zero => omega
  | succ turns ih =>
      unfold descend
      by_cases hrs : r = s
      · rw [hrs, if_pos rfl]
      · obtain ⟨t, rfl⟩ : ∃ t, r = t + 1 := ⟨r - 1, by omega⟩
        have hparent : q.numberOfElements / 2 ^ (t + 1) = q.numberOfElements / 2 ^ t / 2 := by
          rw [Nat.pow_succ, Nat.div_div_eq_div_mul]
        have hdirection : 2 ^ (t + 1) / 2 = 2 ^ t := by
          rw [Nat.pow_succ, Nat.mul_div_cancel _ (by omega)]
        have hpow : 2 ^ s ≤ 2 ^ t := Nat.pow_le_pow_right (by omega) (by omega)
        have hbit : q.numberOfElements &&& 2 ^ t ≠ 0 ↔ q.numberOfElements / 2 ^ t % 2 = 1 := by
          rw [Nat.and_two_pow, Nat.testBit_eq_decide_div_mod_eq]
          simp
        have hle : q.numberOfElements / 2 ^ t ≤ n := (Nat.div_le_div_left hpow (by positivity)).trans hs
        rw [hparent] at hpos ⊢
        -- the child in the direction of the bit
        have hnext : q.childToward (2 ^ t) (a (q.numberOfElements / 2 ^ t / 2)) =
            some (a (q.numberOfElements / 2 ^ t)) := by
          rw [← slot_of_le (by omega) hle]
          unfold childToward
          split
          · rename_i hc
            rw [h.right _ hpos (by omega)]
            congr 1
            have := hbit.mp hc
            omega
          · rename_i hc
            rw [h.left _ hpos (by omega)]
            congr 1
            have := mt hbit.mpr hc
            omega
        have hlast : 2 ^ t ≠ 2 ^ s / 2 := by
          have : 0 < 2 ^ s := Nat.two_pow_pos s
          omega
        rw [hdirection, if_neg hlast, hnext, Nat.shiftRight_one]
        exact ih t (by omega) (by omega) (by omega)

/-- The descent begins at the top. -/
theorem div_two_pow_log (hn : 1 ≤ n) : n / 2 ^ Nat.log 2 n = 1 := by
  have hL : 2 ^ Nat.log 2 n ≤ n := Nat.pow_log_le_self 2 (by omega)
  have hL' : n < 2 ^ (Nat.log 2 n + 1) := Nat.lt_pow_succ_log_self (by omega) n
  rw [Nat.pow_succ] at hL'
  exact Nat.div_eq_of_lt_le (by omega) (by omega)

theorem lastNode_eq (h : Represents q n a)
    (hn : q.numberOfElements = n) (hpos : 1 ≤ n) : q.lastNode = some (a n) := by
  have hlog : Nat.log 2 n ≤ n := Nat.log_le_self 2 n
  have htop := div_two_pow_log hpos
  have hdescend := descend_eq h (s := 0) (by simp [hn]) (n + 1) (Nat.log 2 n) (by omega)
    (by rw [hn, htop]) (by omega)
  unfold lastNode
  rw [h.top, slot_of_le (by omega) hpos, hn, firstDirection_eq hpos]
  rw [hn, htop] at hdescend
  simpa using hdescend

/-! ## The last position is filled -/

/-- The nodes of a tree. -/
def nodes (n : Nat) (a : Nat → ι) : Set ι := { x | ∃ i, 1 ≤ i ∧ i ≤ n ∧ a i = x }

variable {q' : Queue ι}

omit [DecidableEq ι] in
/-- Only the pointers of the nodes of the tree matter. -/
theorem Represents.congr (h : Represents q n a) (htop : q'.topNode = q.topNode)
    (hpointers : ∀ x ∈ nodes n a, q'.up x = q.up x ∧ q'.left x = q.left x ∧ q'.right x = q.right x) :
    Represents q' n a := by
  refine ⟨h.injective, htop.trans h.top, fun k hk hn => ?_, fun k hk hn => ?_, fun k hk hn => ?_⟩
  · rw [(hpointers (a k) ⟨k, hk, hn, rfl⟩).1, h.up k hk hn]
  · rw [(hpointers (a k) ⟨k, hk, hn, rfl⟩).2.1, h.left k hk hn]
  · rw [(hpointers (a k) ⟨k, hk, hn, rfl⟩).2.2, h.right k hk hn]

omit [DecidableEq ι] in
theorem slot_succ_self : slot (n + 1) (update a (n + 1) v) (n + 1) = some v := by
  rw [slot_of_le (by omega) (by omega), update_self]

omit [DecidableEq ι] in
theorem slot_succ_of_ne (hi : i ≠ n + 1) :
    slot (n + 1) (update a (n + 1) v) i = slot n a i := by
  unfold slot
  rw [update_of_ne hi]
  by_cases hr : 1 ≤ i ∧ i ≤ n
  · rw [if_pos hr, if_pos (by omega)]
  · rw [if_neg hr, if_neg (by omega)]

omit [DecidableEq ι] in
theorem update_injective
    (h : ∀ i j, 1 ≤ i → i ≤ n → 1 ≤ j → j ≤ n → a i = a j → i = j) (hv : v ∉ nodes n a) :
    ∀ i j, 1 ≤ i → i ≤ n + 1 → 1 ≤ j → j ≤ n + 1 →
      update a (n + 1) v i = update a (n + 1) v j → i = j := by
  intro i j hi1 hin hj1 hjn hij
  by_cases hi : i = n + 1
  · by_cases hj : j = n + 1
    · omega
    · rw [hi, update_self, update_of_ne hj] at hij
      exact absurd ⟨j, hj1, by omega, hij.symm⟩ hv
  · by_cases hj : j = n + 1
    · rw [hj, update_self, update_of_ne hi] at hij
      exact absurd ⟨i, hi1, by omega, hij⟩ hv
    · rw [update_of_ne hi, update_of_ne hj] at hij
      exact h i j hi1 (by omega) hj1 (by omega) hij

/-- A node without children is linked to the node above the first position that is free. -/
theorem Represents.addLast (h : Represents q n a)
    (hv : v ∉ nodes n a) (hn : 1 ≤ n) (hl : q.left v = none) (hr : q.right v = none)
    (htop : q'.topNode = q.topNode)
    (hup : ∀ y, q'.up y = if y = v then some (a ((n + 1) / 2)) else q.up y)
    (hleft : ∀ y, q'.left y =
      if y = a ((n + 1) / 2) ∧ (n + 1) % 2 = 0 then some v else q.left y)
    (hright : ∀ y, q'.right y =
      if y = a ((n + 1) / 2) ∧ (n + 1) % 2 ≠ 0 then some v else q.right y) :
    Represents q' (n + 1) (update a (n + 1) v) := by
  have hne : ∀ j, 1 ≤ j → j ≤ n → a j ≠ v := fun j hj1 hjn hc => hv ⟨j, hj1, hjn, hc⟩
  have hnode : ∀ j, 1 ≤ j → j ≤ n → (a j = a ((n + 1) / 2) ↔ j = (n + 1) / 2) :=
    fun j hj1 hjn => ⟨h.injective j _ hj1 hjn (by omega) (by omega), congrArg a⟩
  have hcases : ∀ (P : Nat → ι → Prop), P (n + 1) v → (∀ j, 1 ≤ j → j ≤ n → P j (a j)) →
      ∀ j, 1 ≤ j → j ≤ n + 1 → P j (update a (n + 1) v j) := by
    intro P hPv hPj j hj1 hjn
    by_cases hj : j = n + 1
    · rw [hj, update_self]
      exact hPv
    · rw [update_of_ne hj]
      exact hPj j hj1 (by omega)
  have hvp : v ≠ a ((n + 1) / 2) := Ne.symm (hne _ (by omega) (by omega))
  refine ⟨update_injective h.injective hv, ?_, ?_, ?_, ?_⟩
  · rw [slot_succ_of_ne (by omega), htop, h.top]
  · refine hcases (fun j x => _ = slot _ _ (j / 2)) ?_ (fun j hj1 hjn => ?_)
    · rw [slot_succ_of_ne (by omega), slot_of_le (by omega) (by omega), hup, if_pos rfl]
    · rw [slot_succ_of_ne (by omega), hup, if_neg (hne j hj1 hjn), h.up j hj1 hjn]
  · refine hcases (fun j x => _ = slot _ _ (2 * j)) ?_ (fun j hj1 hjn => ?_)
    · rw [slot_succ_of_ne (by omega), slot_of_gt (by omega), hleft, if_neg (fun hc => hvp hc.1), hl]
    · simp only [hleft, hnode j hj1 hjn, h.left j hj1 hjn]
      by_cases hj : 2 * j = n + 1
      · rw [if_pos (by omega), hj, slot_succ_self]
      · rw [if_neg (by omega), slot_succ_of_ne hj]
  · refine hcases (fun j x => _ = slot _ _ (2 * j + 1)) ?_ (fun j hj1 hjn => ?_)
    · rw [slot_succ_of_ne (by omega), slot_of_gt (by omega), hright, if_neg (fun hc => hvp hc.1), hr]
    · simp only [hright, hnode j hj1 hjn, h.right j hj1 hjn]
      by_cases hj : 2 * j + 1 = n + 1
      · rw [if_pos (by omega), hj, slot_succ_self]
      · rw [if_neg (by omega), slot_succ_of_ne hj]

/-- The queue while `value` is being inserted, before it is linked. -/
def cleared (q : Queue ι) (value : ι) : Queue ι :=
  { (q.setRight value none).setLeft value none with numberOfElements := q.numberOfElements + 1 }

theorem insertAsLast_of_top {top node : ι} (htop : q.topNode = some top)
    (hnode : (q.cleared v).descend 1 (q.numberOfElements + 2) (firstDirection (q.numberOfElements + 1))
      top = some node) :
    q.insertAsLast v = some
      ((if (q.numberOfElements + 1) &&& 1 ≠ 0 then (q.cleared v).setRight node (some v)
        else (q.cleared v).setLeft node (some v)).setUp v (some node)) := by
  obtain ⟨up, left, right, topNode, numberOfElements⟩ := q
  subst htop
  exact congrArg (fun x : Option ι => x.bind _) hnode

/-- The first node becomes the top. -/
theorem insertAsLast_empty (h : Represents q 0 a)
    (hn : q.numberOfElements = 0) (hv : v ∉ nodes 0 a) :
    ∃ q', q.insertAsLast v = some q' ∧ q'.numberOfElements = 1 ∧
      Represents q' 1 (update a 1 v) := by
  have htop : ((q.setRight v none).setLeft v none).topNode = none := by
    rw [← slot_of_gt (a := a) Nat.zero_lt_one]
    exact h.top
  have hone : ∀ k, 1 ≤ k → k ≤ 1 → k = 1 := fun k hk1 hk => by omega
  unfold insertAsLast
  dsimp only
  rw [htop]
  refine ⟨_, rfl, by simp [setRight, setLeft, hn], update_injective h.injective hv, ?_, ?_, ?_, ?_⟩
  · rw [slot_succ_self]
  · intro k hk1 hk
    rw [hone k hk1 hk, update_self]
    simp [setUp, slot_zero]
  · intro k hk1 hk
    rw [hone k hk1 hk, update_self, slot_of_gt (by omega)]
    simp [setUp, setLeft]
  · intro k hk1 hk
    rw [hone k hk1 hk, update_self, slot_of_gt (by omega)]
    simp [setUp, setLeft, setRight]

theorem insertAsLast_spec (h : Represents q n a)
    (hn : q.numberOfElements = n) (hv : v ∉ nodes n a) :
    ∃ q', q.insertAsLast v = some q' ∧ q'.numberOfElements = n + 1 ∧
      Represents q' (n + 1) (update a (n + 1) v) := by
  by_cases hzero : n = 0
  · subst hzero
    exact insertAsLast_empty h hn hv
  have hpos : 1 ≤ n := by omega
  have htop : q.topNode = some (a 1) := by rw [h.top, slot_of_le (by omega) hpos]
  have hcount : (q.cleared v).numberOfElements = n + 1 := by rw [cleared, hn]
  have hrep : Represents (q.cleared v) n a := by
    refine h.congr rfl (fun x hx => ?_)
    have hxv : x ≠ v := fun hc => hv (hc ▸ hx)
    simp [cleared, setRight, setLeft, hxv]
  -- the descent ends at the parent of the first free position
  have hnode : (q.cleared v).descend 1 (q.numberOfElements + 2)
      (firstDirection (q.numberOfElements + 1)) (a 1) = some (a ((n + 1) / 2)) := by
    have hlog : 1 ≤ Nat.log 2 (n + 1) := Nat.log_pos (by omega) (by omega)
    have hlog' : Nat.log 2 (n + 1) ≤ n + 1 := Nat.log_le_self 2 (n + 1)
    have htop' := div_two_pow_log (show 1 ≤ n + 1 by omega)
    have hdescend := descend_eq hrep (s := 1) (by rw [hcount]; omega) (n + 2)
      (Nat.log 2 (n + 1)) hlog (by rw [hcount]; omega) (by omega)
    rw [hcount, htop', Nat.pow_one] at hdescend
    rw [hn, firstDirection_eq (by omega)]
    exact hdescend
  have hbit : (q.numberOfElements + 1) &&& 1 ≠ 0 ↔ (n + 1) % 2 ≠ 0 := by
    rw [hn, Nat.and_one_is_mod]
  refine ⟨_, insertAsLast_of_top htop hnode, ?_, ?_⟩
  · split <;> exact hcount
  · refine hrep.addLast hv hpos (by simp [cleared, setLeft]) (by simp [cleared, setLeft, setRight])
      ?_ (fun y => ?_) (fun y => ?_) (fun y => ?_)
    · split <;> rfl
    · split <;> simp [setUp, setLeft, setRight, update_apply]
    · split
      · rename_i hc
        simp [setUp, setRight, hbit.mp hc]
      · rename_i hc
        have heven : (n + 1) % 2 = 0 := not_not.mp (mt hbit.mpr hc)
        simp [setUp, setLeft, update_apply, heven]
    · split
      · rename_i hc
        simp [setUp, setRight, update_apply, hbit.mp hc]
      · rename_i hc
        have heven : (n + 1) % 2 = 0 := not_not.mp (mt hbit.mpr hc)
        simp [setUp, setLeft, heven]

/-! ## A node rises -/

omit [DecidableEq ι] in
theorem nodes_exchange (a : Nat → ι) {j : Nat} (hi1 : 1 ≤ i) (hin : i ≤ n) (hj1 : 1 ≤ j)
    (hjn : j ≤ n) : nodes n (exchange a i j) = nodes n a := by
  have hrange : ∀ k, 1 ≤ k → k ≤ n → 1 ≤ Equiv.swap i j k ∧ Equiv.swap i j k ≤ n := by
    intro k hk1 hkn
    rw [Equiv.swap_apply_def]
    split
    · exact ⟨hj1, hjn⟩
    · split
      · exact ⟨hi1, hin⟩
      · exact ⟨hk1, hkn⟩
  apply Set.Subset.antisymm
  · rintro x ⟨k, hk1, hkn, rfl⟩
    exact ⟨_, (hrange k hk1 hkn).1, (hrange k hk1 hkn).2, rfl⟩
  · rintro x ⟨k, hk1, hkn, rfl⟩
    refine ⟨_, (hrange k hk1 hkn).1, (hrange k hk1 hkn).2, ?_⟩
    rw [exchange, Equiv.swap_apply_self]

/-- What the loops keep of the tree: the number of nodes and which nodes there are. -/
structure Rearranged (q q' : Queue ι) (n : Nat) (a a' : Nat → ι) : Prop where
  represents : Represents q' n a'
  numberOfElements : q'.numberOfElements = q.numberOfElements
  nodes : nodes n a' = nodes n a

theorem Represents.rearranged (h : Represents q n a) (hk : 2 ≤ k) (hn : k ≤ n) :
    Rearranged q (q.swapChildAndParentNodes (a k) (a (k / 2))) n a
      (exchange a k (k / 2)) :=
  ⟨h.swap hk hn, swap_numberOfElements q _ _, nodes_exchange a (by omega) hn (by omega) (by omega)⟩

omit [DecidableEq ι] in
theorem Rearranged.trans {q'' : Queue ι} {a' a'' : Nat → ι}
    (h : Rearranged q q' n a a') (h' : Rearranged q' q'' n a' a'') : Rearranged q q'' n a a'' :=
  ⟨h'.represents, h'.numberOfElements.trans h.numberOfElements, h'.nodes.trans h.nodes⟩

section Order

variable {r : ι → ι → Prop} [IsStrictWeakOrder ι r]

/-- **A node that may be greater than its parent rises to its place.** -/
theorem climb_spec (passes : ι → ι → Bool) (hpass : ∀ x y, passes x y = true → ¬ r x y)
    (hstay : ∀ x y, passes x y = false → ¬ r y x) (turns : Nat) (q : Queue ι)
    (a : Nat → ι) (k : Nat) (h : Represents q n a) (hrising : BinaryHeap.Rising r n a k)
    (hk : 1 ≤ k) (hn : k ≤ n) (hturns : k ≤ turns) :
    ∃ a', Rearranged q (climb passes turns q (a k)) n a a' ∧ BinaryHeap.Ordered r n a' := by
  induction turns generalizing q a k with
  | zero => omega
  | succ turns ih =>
      unfold climb
      rw [h.up k hk hn]
      by_cases hk2 : 2 ≤ k
      · rw [slot_of_le (by omega) (by omega)]
        dsimp only
        by_cases hp : passes (a k) (a (k / 2)) = true
        · rw [if_pos hp]
          have hswap := h.rearranged hk2 hn
          obtain ⟨a', hrest, hordered⟩ := ih _ _ (k / 2) hswap.represents
            (hrising.exchange hk2 hn (hpass _ _ hp)) (by omega) (by omega) (by omega)
          rw [exchange_right] at hrest
          exact ⟨a', hswap.trans hrest, hordered⟩
        · rw [if_neg hp]
          have hplace := hstay _ _ (Bool.eq_false_iff.mpr hp)
          exact ⟨a, ⟨h, rfl, rfl⟩, hrising.ordered (fun _ => hplace)⟩
      · rw [show k / 2 = 0 by omega, slot_zero]
        exact ⟨a, ⟨h, rfl, rfl⟩, hrising.ordered (fun hc => absurd hc hk2)⟩

end Order

/-! ## A node sinks -/

section Sinking

variable {compare : ι → ι → Bool}

omit [DecidableEq ι] in
/-- The child that takes the place of the node is not less than the other one. -/
theorem shiftUpNode_spec (compare : ι → ι → Bool)
    [IsStrictWeakOrder ι (fun x y => compare x y = true)]
    (h : Represents q n a) (hk : 1 ≤ k) (hn : k ≤ n)
    (hchild : 2 * k ≤ n) :
    ∃ c, c / 2 = k ∧ k < c ∧ c ≤ n ∧ q.shiftUpNode compare (a k) = some (a c) ∧
      ∀ j, j ≤ n → j / 2 = k → ¬ compare (a c) (a j) = true := by
  have hirrefl : ∀ x, ¬ compare x x = true := fun x => irrefl_of (fun x y => compare x y = true) x
  have hchildren : ∀ j, j / 2 = k → j = 2 * k ∨ j = 2 * k + 1 := fun j hj => by omega
  unfold shiftUpNode
  rw [h.left k hk hn, h.right k hk hn, slot_of_le (by omega) hchild]
  by_cases hright : 2 * k + 1 ≤ n
  · rw [slot_of_le (by omega) hright]
    dsimp only
    by_cases hless : compare (a (2 * k)) (a (2 * k + 1)) = true
    · rw [if_pos hless]
      refine ⟨2 * k + 1, by omega, by omega, hright, rfl, fun j _ hj => ?_⟩
      rcases hchildren j hj with rfl | rfl
      · intro hc
        exact hirrefl _ (trans_of (fun x y => compare x y = true) hc hless)
      · exact hirrefl _
    · rw [if_neg hless]
      refine ⟨2 * k, by omega, by omega, hchild, rfl, fun j _ hj => ?_⟩
      rcases hchildren j hj with rfl | rfl
      · exact hirrefl _
      · exact hless
  · rw [slot_of_gt (by omega)]
    refine ⟨2 * k, by omega, by omega, hchild, rfl, fun j hjn hj => ?_⟩
    rcases hchildren j hj with rfl | rfl
    · exact hirrefl _
    · omega

/-- **A node sinks to a leaf.** -/
theorem bubbleDown_spec [IsStrictWeakOrder ι (fun x y => compare x y = true)]
    (turns : Nat) (q : Queue ι) (a : Nat → ι) (k : Nat) (h : Represents q n a)
    (hsinking : BinaryHeap.Sinking (fun x y => compare x y = true) n a k) (hk : 1 ≤ k) (hn : k ≤ n)
    (hturns : n < k + turns) :
    ∃ a' k', Rearranged q (bubbleDown compare turns q (a k)) n a a' ∧
      BinaryHeap.Sinking (fun x y => compare x y = true) n a' k' ∧
      1 ≤ k' ∧ k' ≤ n ∧ n < 2 * k' ∧ a' k' = a k := by
  induction turns generalizing q a k with
  | zero => omega
  | succ turns ih =>
      unfold bubbleDown
      by_cases hchild : 2 * k ≤ n
      · obtain ⟨c, hc, hkc, hcn, hnode, hlargest⟩ := shiftUpNode_spec compare h hk hn hchild
        rw [hnode]
        dsimp only
        have hswap := h.rearranged (k := c) (by omega) hcn
        rw [hc] at hswap
        obtain ⟨a', k', hrest, hsunk, hk'1, hk'n, hleaf, hmoved⟩ := ih _ _ c hswap.represents
          (hsinking.exchange hkc hc hcn hlargest) (by omega) hcn (by omega)
        rw [exchange_left] at hrest hmoved
        exact ⟨a', k', hswap.trans hrest, hsunk, hk'1, hk'n, hleaf, hmoved⟩
      · have hnone : q.shiftUpNode compare (a k) = none := by
          unfold shiftUpNode
          rw [h.left k hk hn, h.right k hk hn, slot_of_gt (by omega), slot_of_gt (by omega)]
        rw [hnone]
        exact ⟨a, k, ⟨h, rfl, rfl⟩, hsinking, hk, hn, by omega, rfl⟩

end Sinking

/-! ## The last position is vacated -/

/-- The last node is unlinked. -/
theorem Represents.removeLast (h : Represents q n a)
    (hn : 2 ≤ n) : Represents (q.replaceChild (a (n / 2)) (a n) none) (n - 1) a := by
  have hslot : ∀ i, i ≠ n → slot (n - 1) a i = slot n a i := by
    intro i hi
    unfold slot
    simp only [show 1 ≤ i ∧ i ≤ n - 1 ↔ 1 ≤ i ∧ i ≤ n by omega]
  have hnode : ∀ j, 1 ≤ j → j ≤ n - 1 → (a j = a (n / 2) ↔ j = n / 2) :=
    fun j hj1 hjn => ⟨h.injective j _ hj1 (by omega) (by omega) (by omega), congrArg a⟩
  have hleft : q.left (a (n / 2)) = some (a n) ↔ n % 2 = 0 := by
    rw [h.left _ (by omega) (by omega), h.slot_eq_some (by omega) (by omega)]
    omega
  constructor
  · intro i j hi1 hin hj1 hjn hij
    exact h.injective i j hi1 (by omega) hj1 (by omega) hij
  · rw [replaceChild_topNode, h.top, hslot 1 (by omega)]
  · intro j hj1 hjn
    rw [replaceChild_up, h.up j hj1 (by omega), hslot _ (by omega)]
  · intro j hj1 hjn
    rw [replaceChild_left]
    simp only [hnode j hj1 hjn, hleft, h.left j hj1 (show j ≤ n by omega)]
    by_cases hj : 2 * j = n
    · rw [if_pos (by omega), slot_of_gt (by omega)]
    · rw [if_neg (by omega), hslot _ hj]
  · intro j hj1 hjn
    rw [replaceChild_right]
    simp only [hnode j hj1 hjn, Ne, hleft, h.right j hj1 (show j ≤ n by omega)]
    by_cases hj : 2 * j + 1 = n
    · rw [if_pos (by omega), slot_of_gt (by omega)]
    · rw [if_neg (by omega), hslot _ hj]

@[simp] theorem setUp_self (q : Queue ι) (x : ι) (v : Option ι) : (q.setUp x v).up x = v := by
  simp [setUp]

@[simp] theorem setUp_left (q : Queue ι) (x : ι) (v : Option ι) : (q.setUp x v).left = q.left := rfl

@[simp] theorem setUp_right (q : Queue ι) (x : ι) (v : Option ι) : (q.setUp x v).right = q.right := rfl

@[simp] theorem setLeft_up (q : Queue ι) (x : ι) (v : Option ι) : (q.setLeft x v).up = q.up := rfl

@[simp] theorem setLeft_right (q : Queue ι) (x : ι) (v : Option ι) : (q.setLeft x v).right = q.right :=
  rfl

@[simp] theorem setRight_up (q : Queue ι) (x : ι) (v : Option ι) : (q.setRight x v).up = q.up := rfl

@[simp] theorem setRight_left (q : Queue ι) (x : ι) (v : Option ι) : (q.setRight x v).left = q.left :=
  rfl

/-- The queue after the last node has taken the place of a leaf. -/
def replaced (q : Queue ι) (erasingNode last lastUp up : ι) : Queue ι :=
  ((((q.replaceChild lastUp last none).setUp last (some up)).setLeft last none).setRight last
    none).replaceChild up erasingNode (some last)

variable {erasingNode last lastUp up : ι}

theorem replaced_left (q : Queue ι) (hne : up ≠ last) (y : ι) :
    (q.replaced erasingNode last lastUp up).left y =
      if y = up ∧ (q.replaceChild lastUp last none).left up = some erasingNode then some last
      else if y = last then none
      else (q.replaceChild lastUp last none).left y := by
  unfold replaced
  simp only [replaceChild_left _ up, setRight_left]
  simp only [setLeft, setUp_left, update_apply, if_neg hne]

theorem replaced_right (q : Queue ι) (hne : up ≠ last) (y : ι) :
    (q.replaced erasingNode last lastUp up).right y =
      if y = up ∧ (q.replaceChild lastUp last none).left up ≠ some erasingNode then some last
      else if y = last then none
      else (q.replaceChild lastUp last none).right y := by
  unfold replaced
  simp only [replaceChild_right _ up, setRight_left]
  simp only [setLeft, setUp_left, setRight, setUp_right, update_apply, if_neg hne]

theorem replaced_up (q : Queue ι) (erasingNode last lastUp up y : ι) :
    (q.replaced erasingNode last lastUp up).up y = if y = last then some up else q.up y := by
  unfold replaced
  simp only [replaceChild_up, setRight_up, setLeft_up, setUp, update_apply]

theorem replaceByLast_eq
    (hlast : q.up last = some lastUp) (hup : q.up erasingNode = some up) (hne : up ≠ last)
    (hleft : (q.replaceChild lastUp last none).left erasingNode = none)
    (hright : (q.replaceChild lastUp last none).right erasingNode = none) :
    q.replaceByLast erasingNode last = some (q.replaced erasingNode last lastUp up) := by
  have hl : (q.replaced erasingNode last lastUp up).left last = none := by
    rw [replaced_left q hne, if_neg (fun hc => hne hc.1.symm), if_pos rfl]
  have hr : (q.replaced erasingNode last lastUp up).right last = none := by
    rw [replaced_right q hne, if_neg (fun hc => hne hc.1.symm), if_pos rfl]
  unfold replaceByLast
  simp only [hlast, hup, Option.bind_eq_bind, Option.bind_some, replaceChild_up, setUp_left, hleft,
    setLeft_right, setUp_right, hright, setRight_up, setLeft_up, setUp_self]
  rw [← replaced, hr, setUpOf, hl, setUpOf]
  rfl

/-- **The last node takes the place of a leaf.** -/
theorem Represents.replaceByLast (h : Represents q n a)
    (hk : 1 ≤ k) (hleaf : n < 2 * k) (hn : k < n) :
    Represents (q.replaced (a k) (a n) (a (n / 2)) (a (k / 2))) (n - 1)
      (update a k (a n)) := by
  have hnode : ∀ i j, 1 ≤ i → i ≤ n → 1 ≤ j → j ≤ n → (a i = a j ↔ i = j) :=
    fun i j hi1 hin hj1 hjn => ⟨h.injective i j hi1 hin hj1 hjn, congrArg a⟩
  have hne : a (k / 2) ≠ a n := by
    rw [Ne, hnode _ _ (by omega) (by omega) (by omega) (by omega)]
    omega
  have hlast : q.left (a (n / 2)) = some (a n) ↔ n % 2 = 0 := by
    rw [h.left _ (by omega) (by omega), h.slot_eq_some (by omega) (by omega)]
    omega
  -- the side of the parent on which the leaf is
  have hside : (q.replaceChild (a (n / 2)) (a n) none).left (a (k / 2)) = some (a k) ↔ k % 2 = 0 := by
    rw [replaceChild_left]
    simp only [hnode (k / 2) (n / 2) (by omega) (by omega) (by omega) (by omega), hlast,
      h.left (k / 2) (show 1 ≤ k / 2 by omega) (show k / 2 ≤ n by omega)]
    by_cases hsibling : k / 2 = n / 2 ∧ n % 2 = 0
    · omega
    · rw [if_neg hsibling, h.slot_eq_some hk (by omega)]
      omega
  -- the slots of the new tree
  have hslotk : slot (n - 1) (update a k (a n)) k = some (a n) := by
    rw [slot_of_le hk (by omega), update_self]
  have hslotn : slot (n - 1) (update a k (a n)) n = none := slot_of_gt (by omega)
  have hslot : ∀ i, i ≠ k → i ≠ n → slot (n - 1) (update a k (a n)) i = slot n a i := by
    intro i hik hin
    unfold slot
    rw [update_of_ne hik]
    simp only [show 1 ≤ i ∧ i ≤ n - 1 ↔ 1 ≤ i ∧ i ≤ n by omega]
  have hcases : ∀ (P : Nat → ι → Prop), P k (a n) →
      (∀ j, 1 ≤ j → j < n → j ≠ k → a j ≠ a n → P j (a j)) →
      ∀ j, 1 ≤ j → j ≤ n - 1 → P j (update a k (a n) j) := by
    intro P hPk hPj j hj1 hjn
    by_cases hjk : j = k
    · rw [hjk, update_self]
      exact hPk
    · rw [update_of_ne hjk]
      refine hPj j hj1 (by omega) hjk ?_
      rw [Ne, hnode j n hj1 (by omega) (by omega) (by omega)]
      omega
  constructor
  · intro i j hi1 hin hj1 hjn
    refine hcases (fun i x => x = update a k (a n) j → i = j) ?_ ?_ i hi1 hin
    · refine hcases (fun j x => a n = x → k = j) (fun _ => rfl) ?_ j hj1 hjn
      intro j _ _ _ hjn hc
      exact absurd hc.symm hjn
    · intro i hi1 hin hik hian
      refine hcases (fun j x => a i = x → i = j) (fun hc => absurd hc hian) ?_ j hj1 hjn
      intro j hj1 hjn _ _ hc
      exact (hnode i j hi1 (by omega) hj1 (by omega)).mp hc
  · rw [hslot 1 (by omega) (by omega), ← h.top]
    simp [replaced, setUp, setLeft, setRight]
  · refine hcases (fun j x => _ = slot _ _ (j / 2)) ?_ ?_
    · rw [replaced_up, if_pos rfl, hslot _ (by omega) (by omega), slot_of_le (by omega) (by omega)]
    · intro j hj1 hjn hjk hjan
      rw [replaced_up, if_neg hjan, hslot _ (by omega) (by omega), h.up j hj1 (by omega)]
  · refine hcases (fun j x => _ = slot _ _ (2 * j)) ?_ ?_
    · rw [replaced_left q hne, if_neg (fun hc => hne hc.1.symm), if_pos rfl, slot_of_gt (by omega)]
    · intro j hj1 hjn hjk hjan
      rw [replaced_left q hne, if_neg hjan]
      simp only [hside]
      rw [replaceChild_left]
      simp only [hnode j (k / 2) hj1 (by omega) (by omega) (by omega), hlast,
        hnode j (n / 2) hj1 (by omega) (by omega) (by omega), h.left j hj1 (show j ≤ n by omega)]
      by_cases hj : 2 * j = k
      · rw [if_pos (by omega), hj, hslotk]
      · rw [if_neg (by omega)]
        by_cases hj' : 2 * j = n
        · rw [if_pos (by omega), hj', hslotn]
        · rw [if_neg (by omega), hslot _ hj hj']
  · refine hcases (fun j x => _ = slot _ _ (2 * j + 1)) ?_ ?_
    · rw [replaced_right q hne, if_neg (fun hc => hne hc.1.symm), if_pos rfl, slot_of_gt (by omega)]
    · intro j hj1 hjn hjk hjan
      rw [replaced_right q hne, if_neg hjan]
      simp only [Ne, hside]
      rw [replaceChild_right]
      simp only [Ne, hnode j (k / 2) hj1 (by omega) (by omega) (by omega), hlast,
        hnode j (n / 2) hj1 (by omega) (by omega) (by omega), h.right j hj1 (show j ≤ n by omega)]
      by_cases hj : 2 * j + 1 = k
      · rw [if_pos (by omega), hj, hslotk]
      · rw [if_neg (by omega)]
        by_cases hj' : 2 * j + 1 = n
        · rw [if_pos (by omega), hj', hslotn]
        · rw [if_neg (by omega), hslot _ hj hj']

end Queue

end EmbeddedInfra.IntrusivePriorityQueue
