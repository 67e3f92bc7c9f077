import Mathlib.Tactic

set_option autoImplicit false

/-! # The intrusive list

`infra::IntrusiveList` links its elements through a node that is part of each of them, and ends in a node
of its own. An element that is in no list has no previous node: this is what `erase` goes by when it is
asked to erase an element that is not in the list.
-/

namespace EmbeddedInfra

open Function

/-- `NodeType*` -/
inductive NodePointer (α : Type)
  | null
  | endNode
  | node (value : α)
  deriving DecidableEq

/-- `IntrusiveListNode` -/
structure ListNode (α : Type) where
  next : NodePointer α := .null
  previous : NodePointer α := .null

/-- `IntrusiveList`, with the nodes of all elements that exist, in the list or not. -/
structure IntrusiveList (α : Type) where
  numberOfElements : Nat := 0
  beginNode : NodePointer α := .endNode
  endNode : ListNode α := {}
  nodes : α → Option (ListNode α) := fun _ => none

namespace IntrusiveList

variable {α : Type} {a : α} {xs : List α}

section

variable [DecidableEq α]

/-- The node behind a pointer; nothing is behind a null pointer or an element that does not exist. -/
def deref (l : IntrusiveList α) : NodePointer α → Option (ListNode α)
  | .null => none
  | .endNode => some l.endNode
  | .node value => l.nodes value

def put (l : IntrusiveList α) (p : NodePointer α) (n : ListNode α) : IntrusiveList α :=
  match p with
  | .null => l
  | .endNode => { l with endNode := n }
  | .node value => { l with nodes := update l.nodes value (some n) }

def setNext (l : IntrusiveList α) (p next : NodePointer α) : Option (IntrusiveList α) := do
  let n ← l.deref p
  return l.put p { n with next := next }

def setPrevious (l : IntrusiveList α) (p previous : NodePointer α) : Option (IntrusiveList α) := do
  let n ← l.deref p
  return l.put p { n with previous := previous }

def empty (l : IntrusiveList α) : Bool := l.numberOfElements = 0

/-- What comes after the previous node; without a previous node, it is the first. -/
def setNextOrBegin (l : IntrusiveList α) (previous next : NodePointer α) : Option (IntrusiveList α) :=
  if previous ≠ .null then l.setNext previous next else some { l with beginNode := next }

/-- `push_back` -/
def pushBack (l : IntrusiveList α) (value : α) : Option (IntrusiveList α) := do
  let l ← l.setNext (.node value) .endNode
  let l ← l.setPrevious (.node value) l.endNode.previous
  let l ← l.setNextOrBegin l.endNode.previous (.node value)
  let l ← l.setPrevious .endNode (.node value)
  return { l with numberOfElements := l.numberOfElements + 1 }

/-- `pop_front` -/
def popFront (l : IntrusiveList α) : Option (IntrusiveList α) := do
  let erasingNode ← l.deref l.beginNode
  let l' ← { l with beginNode := erasingNode.next }.setPrevious erasingNode.next .null
  let l' ← l'.setNext l.beginNode .null
  return { l' with numberOfElements := l'.numberOfElements - 1 }

def erase (l : IntrusiveList α) (value : α) : Option (IntrusiveList α) := do
  let node ← l.nodes value
  if node.previous = .null ∧ l.beginNode ≠ .node value then some l
  else
    let l ← l.setNextOrBegin node.previous node.next
    let l ← l.setPrevious node.next node.previous
    let l ← l.setPrevious (.node value) .null
    let l ← l.setNext (.node value) .null
    return { l with numberOfElements := l.numberOfElements - 1 }

/-- A new element, in no list. -/
def construct (l : IntrusiveList α) (value : α) : IntrusiveList α :=
  { l with nodes := update l.nodes value (some {}) }

/-- The end of an element. -/
def destruct (l : IntrusiveList α) (value : α) : IntrusiveList α :=
  { l with nodes := update l.nodes value none }

end

/-! ## What a list contains -/

/-- The pointer to the first of some elements. -/
def first : List α → NodePointer α
  | [] => .endNode
  | a :: _ => .node a

/-- The pointer to the last of some elements. -/
def last (xs : List α) : NodePointer α :=
  match xs.getLast? with
  | none => .null
  | some a => .node a

@[simp] theorem first_nil : first ([] : List α) = .endNode := rfl

@[simp] theorem first_cons (a : α) (xs : List α) : first (a :: xs) = .node a := rfl

@[simp] theorem last_nil : last ([] : List α) = .null := rfl

@[simp] theorem last_concat (a : α) (xs : List α) : last (xs ++ [a]) = .node a := by
  simp [last]

theorem last_append {xs ys : List α} (h : ys ≠ []) : last (xs ++ ys) = last ys := by
  obtain ⟨ys, a, rfl⟩ := List.eq_nil_or_concat' ys |>.resolve_left h
  simp [← List.append_assoc]

theorem last_cons (h : xs ≠ []) : last (a :: xs) = last xs :=
  @last_append _ [a] xs h

theorem first_append {ys : List α} (h : xs ≠ []) : first (xs ++ ys) = first xs := by
  cases xs with
  | nil => exact absurd rfl h
  | cons a xs => rfl

theorem last_eq_null : last xs = .null ↔ xs = [] := by
  rcases List.eq_nil_or_concat' xs with rfl | ⟨xs, a, rfl⟩
  · simp
  · simp

theorem mem_of_first (h : first xs = .node a) : a ∈ xs := by
  cases xs with
  | nil => cases h
  | cons b xs =>
      cases h
      exact List.mem_cons_self

theorem mem_of_last (h : last xs = .node a) : a ∈ xs := by
  rcases List.eq_nil_or_concat' xs with rfl | ⟨xs, b, rfl⟩
  · cases h
  · rw [last_concat] at h
    cases h
    simp

/-- The list has these elements in this order. -/
structure Contains (l : IntrusiveList α) (xs : List α) : Prop where
  nodup : xs.Nodup
  size : l.numberOfElements = xs.length
  begins : l.beginNode = first xs
  ends : l.endNode.previous = last xs
  linked : ∀ before a after, xs = before ++ a :: after →
    l.nodes a = some ⟨first after, last before⟩
  unlinked : ∀ a n, a ∉ xs → l.nodes a = some n → n.previous = .null

theorem contains_nil (nodes : α → Option (ListNode α)) (h : ∀ a n, nodes a = some n → n.previous = .null) :
    Contains { nodes := nodes } [] where
  nodup := List.nodup_nil
  size := rfl
  begins := rfl
  ends := rfl
  linked := by
    intro before a after h
    simp at h
  unlinked := fun a n _ hn => h a n hn

variable {l : IntrusiveList α} {xs : List α} {a : α}

theorem Contains.empty_iff (h : Contains l xs) : l.empty = true ↔ xs = [] := by
  rw [empty, h.size]
  simp

theorem Contains.exists_node (h : Contains l xs) (ha : a ∈ xs) : (l.nodes a).isSome := by
  obtain ⟨before, after, rfl⟩ := List.append_of_mem ha
  rw [h.linked before a after rfl]
  rfl

/-! ## The operations -/

/-- What is to be shown of the nodes when an element between two others leaves. -/
theorem linked_of_unlinked {p s : List α} {nodes nodes' : α → Option (ListNode α)}
    (hnodup : (p ++ a :: s).Nodup)
    (hlinked : ∀ before c after, p ++ a :: s = before ++ c :: after →
      nodes c = some ⟨first after, last before⟩)
    (hlast : ∀ x n, x ≠ a → last p = .node x → nodes x = some n →
      nodes' x = some { n with next := first s })
    (hfirst : ∀ x n, x ≠ a → first s = .node x → nodes x = some n →
      nodes' x = some { n with previous := last p })
    (hother : ∀ x, x ≠ a → last p ≠ .node x → first s ≠ .node x → nodes' x = nodes x)
    (before : List α) (c : α) (after : List α) (hsplit : p ++ s = before ++ c :: after) :
    nodes' c = some ⟨first after, last before⟩ := by
  have hsub : (p ++ s).Nodup := hnodup.sublist (by simp)
  have hca : c ≠ a := by
    rintro rfl
    have hmem : c ∈ p ++ s := by simp [hsplit]
    grind
  rcases List.append_eq_append_iff.mp hsplit with ⟨mid, hbefore, hs⟩ | ⟨mid, hp, hafter⟩
  · -- the element comes after the one that leaves
    have hc := hlinked (p ++ a :: mid) c after (by simp [hs])
    subst hs hbefore
    cases mid with
    | nil =>
        rw [hfirst c _ hca rfl hc]
        simp
    | cons b mid =>
        rw [hother c hca ?_ ?_, hc, last_append (by simp), last_append (by simp), last_cons (by simp)]
        · intro hl
          have := mem_of_last hl
          grind
        · rw [first_append (by simp)]
          intro hf
          cases hf
          grind
  · cases mid with
    | nil =>
        have hs : s = c :: after := by simpa using hafter.symm
        subst hs
        have hc := hlinked (p ++ [a]) c after (by simp)
        rw [hfirst c _ hca rfl hc]
        simp [hp]
    | cons b mid =>
        obtain ⟨rfl, rfl⟩ : c = b ∧ after = mid ++ s := by simpa using hafter
        have hc := hlinked before c (mid ++ a :: s) (by simp [hp])
        rcases List.eq_nil_or_concat' mid with rfl | ⟨mid, d, rfl⟩
        · rw [hlast c _ hca (by simp [hp]) hc]
          simp
        · have hne : mid ++ [d] ≠ [] := by simp
          rw [hother c hca ?_ ?_, hc, first_append hne, first_append hne]
          · rw [hp, ← List.cons_append, ← List.append_assoc, last_concat]
            intro hl
            cases hl
            grind
          · intro hf
            have := mem_of_first hf
            grind

variable [DecidableEq α] {n : ListNode α}

theorem setNext_node (h : l.nodes a = some n) (next : NodePointer α) :
    l.setNext (.node a) next =
      some { l with nodes := update l.nodes a (some { n with next := next }) } := by
  rw [setNext, deref, h]
  rfl

theorem setPrevious_node (h : l.nodes a = some n) (previous : NodePointer α) :
    l.setPrevious (.node a) previous =
      some { l with nodes := update l.nodes a (some { n with previous := previous }) } := by
  rw [setPrevious, deref, h]
  rfl

/-- The node before an element that leaves goes on with the node after it. -/
theorem Contains.forward {p s : List α} (h : Contains l (p ++ a :: s)) :
    ∃ l', l.setNextOrBegin (last p) (first s) = some l' ∧
      l'.beginNode = first (p ++ s) ∧ l'.endNode = l.endNode ∧
      l'.numberOfElements = l.numberOfElements ∧
      (∀ x, last p = .node x → l'.nodes x = (l.nodes x).map ({ · with next := first s })) ∧
      ∀ x, last p ≠ .node x → l'.nodes x = l.nodes x := by
  rcases List.eq_nil_or_concat' p with rfl | ⟨p, b, rfl⟩
  · exact ⟨_, rfl, rfl, rfl, rfl, by simp, by simp⟩
  · have hb := h.linked p b (a :: s) (by simp)
    rw [setNextOrBegin, if_pos (by simp), last_concat]
    refine ⟨_, setNext_node hb _, ?_, rfl, rfl, ?_, ?_⟩
    · rw [h.begins, List.append_assoc, List.append_assoc]
      cases p <;> rfl
    · intro x hx
      cases hx
      simp [hb]
    · intro x hx
      exact update_of_ne (fun hc => hx (by rw [hc])) _ _

/-- And the node after it goes back to the node before it. -/
theorem setPrevious_first {l : IntrusiveList α} {p s : List α} (hs : ∀ x ∈ s, (l.nodes x).isSome)
    (hlast : l.endNode.previous = last (p ++ a :: s)) :
    ∃ l', l.setPrevious (first s) (last p) = some l' ∧
      l'.beginNode = l.beginNode ∧ l'.endNode.previous = last (p ++ s) ∧
      l'.numberOfElements = l.numberOfElements ∧
      (∀ x, first s = .node x → l'.nodes x = (l.nodes x).map ({ · with previous := last p })) ∧
      ∀ x, first s ≠ .node x → l'.nodes x = l.nodes x := by
  cases s with
  | nil => exact ⟨{ l with endNode := { l.endNode with previous := last p } }, rfl, rfl, by simp, rfl, by simp, by simp⟩
  | cons b s =>
      obtain ⟨n, hb⟩ := Option.isSome_iff_exists.mp (hs b List.mem_cons_self)
      refine ⟨_, setPrevious_node hb _, rfl, ?_, rfl, ?_, ?_⟩
      · have hne : b :: s ≠ [] := by simp
        rw [hlast, last_append (by simp), last_cons hne, last_append hne]
      · intro x hx
        cases hx
        simp [hb]
      · intro x hx
        exact update_of_ne (fun hc => hx (by rw [hc]; rfl)) _ _

/-- **An element leaves a list**, wherever it is. -/
theorem Contains.erase_of_mem {p s : List α} (h : Contains l (p ++ a :: s)) :
    ∃ l', l.erase a = some l' ∧ Contains l' (p ++ s) ∧ ∀ x, (l'.nodes x).isSome = (l.nodes x).isSome := by
  have ha := h.linked p a s rfl
  have hnodup := h.nodup
  obtain ⟨l₁, hstep₁, hbegin₁, hend₁, hsize₁, hlast₁, hother₁⟩ := h.forward
  have hsome₁ (x : α) : (l₁.nodes x).isSome = (l.nodes x).isSome := by
    by_cases hx : last p = .node x
    · rw [hlast₁ x hx, Option.isSome_map]
    · rw [hother₁ x hx]
  have hs (x : α) (hx : x ∈ s) : (l₁.nodes x).isSome := by
    rw [hsome₁]
    exact h.exists_node (by simp [hx])
  obtain ⟨l₂, hstep₂, hbegin₂, hend₂, hsize₂, hfirst₂, hother₂⟩ :=
    @setPrevious_first _ a _ l₁ p s hs (by rw [hend₁, h.ends])
  have hsome₂ (x : α) : (l₂.nodes x).isSome = (l₁.nodes x).isSome := by
    by_cases hx : first s = .node x
    · rw [hfirst₂ x hx, Option.isSome_map]
    · rw [hother₂ x hx]
  obtain ⟨n, hn⟩ : ∃ n, l₂.nodes a = some n := by
    rw [← Option.isSome_iff_exists, hsome₂, hsome₁, ha]
    rfl
  have hnodes (x : α) (hx : x ≠ a) : update l₂.nodes a (some {}) x = l₂.nodes x :=
    update_of_ne hx _ _
  have herase : l.erase a = some { l₂ with
      numberOfElements := l₂.numberOfElements - 1
      nodes := update l₂.nodes a (some {}) } := by
    have hpresent : ¬ (last p = .null ∧ l.beginNode ≠ .node a) := by
      rintro ⟨hnull, hne⟩
      rw [last_eq_null.mp hnull] at h
      exact hne h.begins
    rw [erase, ha]
    simp only [Option.bind_eq_bind, Option.bind_some, hpresent, if_false, hstep₁, hstep₂, setPrevious_node hn]
    simp [setNext, deref, put]
  refine ⟨_, herase, ⟨hnodup.sublist (by simp), ?_, hbegin₂.trans hbegin₁, hend₂, ?_, ?_⟩, ?_⟩
  · simp [hsize₂, hsize₁, h.size]
  · refine linked_of_unlinked hnodup h.linked ?_ ?_ ?_
    · intro x m hx hl hm
      have hf : first s ≠ .node x := by
        intro hf
        have := mem_of_first hf
        have := mem_of_last hl
        grind
      dsimp only
      rw [hnodes x hx, hother₂ x hf, hlast₁ x hl, hm]
      rfl
    · intro x m hx hf hm
      have hl : last p ≠ .node x := by
        intro hl
        have := mem_of_first hf
        have := mem_of_last hl
        grind
      dsimp only
      rw [hnodes x hx, hfirst₂ x hf, hother₁ x hl, hm]
      rfl
    · intro x hx hl hf
      dsimp only
      rw [hnodes x hx, hother₂ x hf, hother₁ x hl]
  · intro x m hx hm
    dsimp only at hm
    by_cases hxa : x = a
    · rw [hxa, update_self] at hm
      cases hm
      rfl
    · have hf : first s ≠ .node x := fun hf => hx (List.mem_append_right p (mem_of_first hf))
      have hl : last p ≠ .node x := fun hl => hx (List.mem_append_left s (mem_of_last hl))
      rw [hnodes x hxa, hother₂ x hf, hother₁ x hl] at hm
      exact h.unlinked x m (by simp_all) hm
  · intro x
    dsimp only
    by_cases hxa : x = a
    · rw [hxa, update_self, ha]
      rfl
    · rw [hnodes x hxa, hsome₂, hsome₁]

/-- An element that is in no list has no previous node, and is not the first. -/
theorem Contains.erase_of_not_mem (h : Contains l xs) (ha : (l.nodes a).isSome) (hmem : a ∉ xs) :
    l.erase a = some l := by
  obtain ⟨n, hn⟩ := Option.isSome_iff_exists.mp ha
  have hbegin : l.beginNode ≠ .node a := by
    intro hbegin
    exact hmem (mem_of_first (h.begins.symm.trans hbegin))
  rw [erase, hn]
  exact if_pos ⟨h.unlinked a n hmem hn, hbegin⟩

/-- `pop_front` is `erase` of the first element. -/
theorem Contains.popFront_eq (h : Contains l (a :: xs)) : l.popFront = l.erase a := by
  have ha := h.linked [] a xs rfl
  have hbegin : l.beginNode = .node a := h.begins
  obtain ⟨l₁, hstep, -, -, -, -, hother⟩ := @setPrevious_first _ a _ { l with beginNode := first xs } [] xs
    (fun x hx => h.exists_node (List.mem_cons_of_mem a hx)) h.ends
  rw [last_nil] at hstep
  have hkept : l₁.nodes a = some ⟨first xs, .null⟩ := by
    rw [hother a (fun hf => (List.nodup_cons.mp h.nodup).1 (mem_of_first hf))]
    exact ha
  have hsame : l₁.setPrevious (.node a) .null = some l₁ := by
    rw [setPrevious_node hkept, ← hkept, update_eq_self]
  have hpop : l.popFront = (l₁.setNext (.node a) .null).bind fun l' =>
      some { l' with numberOfElements := l'.numberOfElements - 1 } := by
    rw [popFront, hbegin, deref, ha]
    simp only [Option.bind_eq_bind, Option.bind_some, hstep]
    rfl
  have herase : l.erase a = (l₁.setNext (.node a) .null).bind fun l' =>
      some { l' with numberOfElements := l'.numberOfElements - 1 } := by
    rw [erase, ha, hbegin]
    simp only [Option.bind_eq_bind, Option.bind_some, last_nil, ne_eq, not_true_eq_false, and_false, if_false,
      setNextOrBegin, hstep, hsame]
    rfl
  rw [hpop, herase]

/-- **`erase` takes an element out of the list**, and does nothing when it is not in the list. -/
theorem Contains.erase_spec (h : Contains l xs) (ha : (l.nodes a).isSome) :
    ∃ l', l.erase a = some l' ∧ Contains l' (xs.erase a) ∧ ∀ x, (l'.nodes x).isSome = (l.nodes x).isSome := by
  by_cases hmem : a ∈ xs
  · obtain ⟨p, s, rfl⟩ := List.append_of_mem hmem
    have hp : a ∉ p := by
      have := h.nodup
      grind
    rw [List.erase_append_right _ hp, List.erase_cons_head]
    exact h.erase_of_mem
  · rw [h.erase_of_not_mem ha hmem, List.erase_of_not_mem hmem]
    exact ⟨l, rfl, h, fun _ => rfl⟩

/-- **`pop_front` takes out the first element.** -/
theorem Contains.popFront_spec (h : Contains l (a :: xs)) :
    ∃ l', l.popFront = some l' ∧ Contains l' xs ∧ ∀ x, (l'.nodes x).isSome = (l.nodes x).isSome := by
  rw [h.popFront_eq]
  exact @Contains.erase_of_mem _ l a _ [] xs h

theorem isSome_update {nodes : α → Option (ListNode α)} {m : ListNode α} (h : nodes a = some n) (x : α) :
    (update nodes a (some m) x).isSome = (nodes x).isSome := by
  by_cases hx : x = a
  · rw [hx, update_self, h]
    rfl
  · rw [update_of_ne hx]

/-- **`push_back` adds an element that is not in the list.** -/
theorem Contains.pushBack_spec (h : Contains l xs) (ha : (l.nodes a).isSome) (hmem : a ∉ xs) :
    ∃ l', l.pushBack a = some l' ∧ Contains l' (xs ++ [a]) ∧
      ∀ x, (l'.nodes x).isSome = (l.nodes x).isSome := by
  obtain ⟨n, hn⟩ := Option.isSome_iff_exists.mp ha
  have hlast : l.endNode.previous = last xs := h.ends
  -- the first steps are about the new node only
  have hstart : l.pushBack a = ({ l with nodes := update l.nodes a (some ⟨.endNode, last xs⟩) }.setNextOrBegin
      (last xs) (.node a)).bind fun l => some { l with
        endNode := { l.endNode with previous := .node a }, numberOfElements := l.numberOfElements + 1 } := by
    rw [pushBack]
    simp only [Option.bind_eq_bind, setNext_node hn, Option.bind_some]
    rw [setPrevious_node (update_self a _ _)]
    simp only [Option.bind_some, hlast, update_idem]
    rfl
  rcases List.eq_nil_or_concat' xs with rfl | ⟨xs, b, rfl⟩
  · refine ⟨_, hstart, ⟨by simp, by simp [h.size], rfl, rfl, ?_, ?_⟩, ?_⟩
    · intro before c after hsplit
      obtain ⟨rfl, rfl, rfl⟩ : before = [] ∧ c = a ∧ after = [] := by
        cases before <;> simp_all
      exact update_self c _ _
    · intro x m hx hm
      exact h.unlinked x m (by simp) ((update_of_ne (by simpa using hx) _ _).symm.trans hm)
    · intro x
      exact isSome_update hn x
  · have hb := h.linked xs b [] rfl
    have hba : b ≠ a := fun hc => hmem (by simp [hc])
    have hb' : update l.nodes a (some ⟨.endNode, last (xs ++ [b])⟩) b = some ⟨.endNode, last xs⟩ :=
      (update_of_ne hba _ _).trans hb
    rw [setNextOrBegin, if_pos (by simp), last_concat] at hstart
    rw [last_concat] at hb'
    rw [setNext_node hb', Option.bind_some] at hstart
    refine ⟨_, hstart, ⟨?_, ?_, ?_, (last_concat a _).symm, ?_, ?_⟩, ?_⟩
    · exact List.nodup_append.mpr ⟨h.nodup, by simp, by grind⟩
    · simp [h.size]
    · rw [first_append (by simp)]
      exact h.begins
    · intro before c after hsplit
      dsimp only
      rcases List.eq_nil_or_concat' after with rfl | ⟨after, d, rfl⟩
      · -- the new element
        obtain ⟨rfl, hc⟩ := List.append_inj' hsplit rfl
        cases hc
        rw [update_of_ne hba.symm, update_self, last_concat, first_nil]
      · rw [← List.cons_append, ← List.append_assoc] at hsplit
        obtain ⟨hxs, hd⟩ := List.append_inj' hsplit rfl
        cases hd
        rcases List.eq_nil_or_concat' after with rfl | ⟨after, d, rfl⟩
        · -- the element that was the last one
          obtain ⟨rfl, hc⟩ := List.append_inj' hxs rfl
          cases hc
          rw [update_self]
          rfl
        · have hca : c ≠ a := fun hc => hmem (by simp [hxs, hc])
          have hcb : c ≠ b := by
            have hnodup := h.nodup
            rw [← List.cons_append, ← List.append_assoc] at hxs
            obtain ⟨rfl, hd⟩ := List.append_inj' hxs rfl
            cases hd
            rintro rfl
            exact (List.nodup_append.mp hnodup).2.2 c (by simp) c (by simp) rfl
          have hne : after ++ [d] ≠ [] := by simp
          rw [update_of_ne hcb, update_of_ne hca, h.linked before c (after ++ [d]) hxs,
            first_append hne]
    · intro x m hx hm
      have hxa : x ≠ a := fun hc => hx (by simp [hc])
      have hxb : x ≠ b := fun hc => hx (by simp [hc])
      dsimp only at hm
      rw [update_of_ne hxb, update_of_ne hxa] at hm
      exact h.unlinked x m (by grind) hm
    · intro x
      dsimp only
      rw [isSome_update hb', isSome_update hn]

/-- The node of an element that is in no list changes. -/
theorem Contains.update_node (h : Contains l xs) (hmem : a ∉ xs) {node : Option (ListNode α)}
    (hnode : ∀ n, node = some n → n.previous = .null) :
    Contains { l with nodes := update l.nodes a node } xs := by
  refine { h with linked := ?_, unlinked := ?_ }
  · intro before b after hsplit
    have hne : b ≠ a := fun hc => hmem (by simp [hsplit, hc])
    exact (update_of_ne hne _ _).trans (h.linked before b after hsplit)
  · intro b m hb hm
    by_cases hba : b = a
    · subst hba
      exact hnode m ((update_self b _ _).symm.trans hm)
    · exact h.unlinked b m hb ((update_of_ne hba _ _).symm.trans hm)

theorem Contains.construct (h : Contains l xs) (ha : l.nodes a = none) : Contains (l.construct a) xs := by
  refine h.update_node ?_ (by rintro n ⟨⟩; rfl)
  intro hmem
  have := h.exists_node hmem
  rw [ha] at this
  cases this

theorem Contains.destruct (h : Contains l xs) (hmem : a ∉ xs) : Contains (l.destruct a) xs :=
  h.update_node hmem (by rintro n ⟨⟩)

end IntrusiveList

end EmbeddedInfra
