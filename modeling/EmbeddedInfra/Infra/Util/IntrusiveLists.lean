import EmbeddedInfra.Lib.EventSystem
import EmbeddedInfra.Lib.LinkedPlaces

set_option autoImplicit false

/-! # Intrusive lists

Several `infra::IntrusiveList`s whose elements may go from one list to another. A list is two pointers, to its
first node and (in a node at its end, which is part of the list) to its last one; without elements, the first
is a pointer to the end, and the last one is null. The nodes of all elements and of the ends of all lists are
here one memory, and an access through a null pointer has no result.
-/

namespace EmbeddedInfra.IntrusiveLists

open Function

/-- `NodeType*` -/
inductive Pointer (ι α : Type)
  | null
  | endNode (list : ι)
  | node (value : α)
deriving DecidableEq, Repr

/-- The lists, and the two fields of every `IntrusiveListNode`. -/
structure Lists (ι α : Type) where
  numberOfElements : ι → Nat
  beginNode : ι → Pointer ι α
  next : Pointer ι α → Pointer ι α
  previous : Pointer ι α → Pointer ι α

variable {ι α : Type}

section Code

variable [DecidableEq ι] [DecidableEq α]

namespace Lists

/-- Empty lists, and elements that have never been in one. -/
def create : Lists ι α := ⟨fun _ => 0, .endNode, fun _ => .null, fun _ => .null⟩

def getNext (s : Lists ι α) (p : Pointer ι α) : Option (Pointer ι α) :=
  if p = .null then none else some (s.next p)

def getPrevious (s : Lists ι α) (p : Pointer ι α) : Option (Pointer ι α) :=
  if p = .null then none else some (s.previous p)

def setNext (s : Lists ι α) (p next : Pointer ι α) : Option (Lists ι α) :=
  if p = .null then none else some { s with next := update s.next p next }

def setPrevious (s : Lists ι α) (p previous : Pointer ι α) : Option (Lists ι α) :=
  if p = .null then none else some { s with previous := update s.previous p previous }

def setBegin (s : Lists ι α) (l : ι) (p : Pointer ι α) : Lists ι α :=
  { s with beginNode := update s.beginNode l p }

def setSize (s : Lists ι α) (l : ι) (n : Nat) : Lists ι α :=
  { s with numberOfElements := update s.numberOfElements l n }

def empty (s : Lists ι α) (l : ι) : Bool := s.numberOfElements l = 0

def front (s : Lists ι α) (l : ι) : Option α :=
  match s.beginNode l with
  | .node a => some a
  | _ => none

def back (s : Lists ι α) (l : ι) : Option α :=
  match s.previous (.endNode l) with
  | .node a => some a
  | _ => none

/-- `if (previous != nullptr) previous->next = next; else beginNode = next;` -/
def setNextOrBegin (s : Lists ι α) (l : ι) (previous next : Pointer ι α) : Option (Lists ι α) :=
  if previous ≠ .null then s.setNext previous next else some (s.setBegin l next)

/-- `push_front` -/
def pushFront (s : Lists ι α) (l : ι) (a : α) : Option (Lists ι α) := do
  let next := s.beginNode l
  let s ← s.setNext (.node a) next
  let s ← s.setPrevious (.node a) .null
  let s ← if next ≠ .null then s.setPrevious next (.node a) else some s
  let s := s.setBegin l (.node a)
  return s.setSize l (s.numberOfElements l + 1)

/-- `push_back` -/
def pushBack (s : Lists ι α) (l : ι) (a : α) : Option (Lists ι α) := do
  let previous := s.previous (.endNode l)
  let s ← s.setNext (.node a) (.endNode l)
  let s ← s.setPrevious (.node a) previous
  let s ← s.setNextOrBegin l previous (.node a)
  let s ← s.setPrevious (.endNode l) (.node a)
  return s.setSize l (s.numberOfElements l + 1)

/-- `pop_front` -/
def popFront (s : Lists ι α) (l : ι) : Option (Lists ι α) := do
  let erasingNode := s.beginNode l
  let next ← s.getNext erasingNode
  let s := s.setBegin l next
  let s ← s.setPrevious next .null
  let s ← s.setNext erasingNode .null
  return s.setSize l (s.numberOfElements l - 1)

/-- `pop_back`; unlike `erase`, it does nothing about the begin when there is no previous node. -/
def popBack (s : Lists ι α) (l : ι) : Option (Lists ι α) := do
  let erasingNode := s.previous (.endNode l)
  let previous ← s.getPrevious erasingNode
  let s ← s.setPrevious (.endNode l) previous
  let s ← if previous ≠ .null then s.setNext previous (.endNode l) else some s
  let s ← s.setPrevious erasingNode .null
  return s.setSize l (s.numberOfElements l - 1)

/-- `insert` before the node of a position -/
def insert (s : Lists ι α) (l : ι) (position : Pointer ι α) (a : α) : Option (Lists ι α) := do
  let previous ← s.getPrevious position
  let s ← s.setPrevious (.node a) previous
  let s ← s.setNext (.node a) position
  let s ← s.setPrevious position (.node a)
  let s ← s.setNextOrBegin l previous (.node a)
  return s.setSize l (s.numberOfElements l + 1)

def erase (s : Lists ι α) (l : ι) (a : α) : Option (Lists ι α) := do
  let previous := s.previous (.node a)
  if previous = .null ∧ s.beginNode l ≠ .node a then return s
  else
    let next := s.next (.node a)
    let s ← s.setNextOrBegin l previous next
    let s ← s.setPrevious next previous
    let s ← s.setPrevious (.node a) .null
    let s ← s.setNext (.node a) .null
    return s.setSize l (s.numberOfElements l - 1)

/-- The loop of `clear`, for so many elements at most. -/
def clearLoop (l : ι) : Nat → Lists ι α → Option (Lists ι α)
  | 0, s => if s.empty l then some s else none
  | n + 1, s => if s.empty l then some s else (s.popFront l).bind (clearLoop l n)

def clear (s : Lists ι α) (l : ι) : Option (Lists ι α) := clearLoop l (s.numberOfElements l) s

def assign (s : Lists ι α) (l : ι) (values : List α) : Option (Lists ι α) := do
  let s ← s.clear l
  values.foldlM (fun s a => s.pushBack l a) s

/-- `operator=(IntrusiveList&&)` after its `clear` -/
def takeFrom (s : Lists ι α) (l other : ι) : Option (Lists ι α) := do
  let s := s.setSize l (s.numberOfElements other)
  let s := if s.beginNode other ≠ .endNode other then s.setBegin l (s.beginNode other) else s
  let s ← s.setPrevious (.endNode l) (s.previous (.endNode other))
  let s ← if s.previous (.endNode l) ≠ .null then s.setNext (s.previous (.endNode l)) (.endNode l) else some s
  let s := s.setBegin other (.endNode other)
  let s ← s.setPrevious (.endNode other) .null
  return s.setSize other 0

/-- `operator=(IntrusiveList&&)` -/
def moveAssign (s : Lists ι α) (l other : ι) : Option (Lists ι α) := do
  let s ← s.clear l
  s.takeFrom l other

/-- `IntrusiveListNode::operator=`: a node does not copy the pointers of another one, `next` and `previous`. -/
def assignNode (s : Lists ι α) (_node : Pointer ι α) (_other : Pointer ι α × Pointer ι α) : Lists ι α := s

/-- The pointers at the end of a list, after its end node has been swapped. -/
def swapEnd (s : Lists ι α) (l : ι) : Option (Lists ι α) :=
  if s.previous (.endNode l) ≠ .null then s.setNext (s.previous (.endNode l)) (.endNode l)
  else some (s.setBegin l (.endNode l))

def swap (s : Lists ι α) (l other : ι) : Option (Lists ι α) := do
  -- std::swap of the end nodes; the copy constructor does not copy the pointers either
  let copy := (Pointer.null, Pointer.null)
  let s := s.assignNode (.endNode l) (s.next (.endNode other), s.previous (.endNode other))
  let s := s.assignNode (.endNode other) copy
  let beginNode := s.beginNode l
  let s := (s.setBegin l (s.beginNode other)).setBegin other beginNode
  let numberOfElements := s.numberOfElements l
  let s := (s.setSize l (s.numberOfElements other)).setSize other numberOfElements
  let s ← s.swapEnd l
  s.swapEnd other

/-! ## Iterating -/

/-- The elements from a node on until `end`, `none` when it is not reached in so many steps, or when a node is
visited that is not the one of an element. -/
def visit (s : Lists ι α) (l : ι) : Nat → Pointer ι α → Option (List α)
  | 0, _ => none
  | steps + 1, p =>
      if p = .endNode l then some []
      else
        match p with
        | .node a => (s.visit l steps (s.next p)).map (a :: ·)
        | _ => none

/-- The elements from `begin` to `end`. -/
def forward (s : Lists ι α) (l : ι) (steps : Nat) : Option (List α) := s.visit l steps (s.beginNode l)

/-- The elements before a node back to `begin`. -/
def visitBack (s : Lists ι α) (l : ι) : Nat → Pointer ι α → Option (List α)
  | 0, _ => none
  | steps + 1, p =>
      if p = s.beginNode l then some []
      else
        match s.previous p with
        | .node a => (s.visitBack l steps (.node a)).map (a :: ·)
        | _ => none

/-- The elements from `rbegin` to `rend`. -/
def backward (s : Lists ι α) (l : ι) (steps : Nat) : Option (List α) := s.visitBack l steps (.endNode l)

end Lists

/-! ## The operations -/

inductive Event (ι α : Type)
  | pushFront (l : ι) (a : α)
  | pushBack (l : ι) (a : α)
  | popFront (l : ι)
  | popBack (l : ι)
  | insert (l : ι) (position : Pointer ι α) (a : α)
  | erase (l : ι) (a : α)
  | clear (l : ι)
  | assign (l : ι) (values : List α)
  | moveAssign (l other : ι)
deriving DecidableEq, Repr

def stepLists (s : Lists ι α) : Event ι α → Option (Lists ι α)
  | .pushFront l a => s.pushFront l a
  | .pushBack l a => s.pushBack l a
  | .popFront l => s.popFront l
  | .popBack l => s.popBack l
  | .insert l position a => s.insert l position a
  | .erase l a => s.erase l a
  | .clear l => s.clear l
  | .assign l values => s.assign l values
  | .moveAssign l other => s.moveAssign l other

/-- Insertion before an element, at the end when it is a pointer to the end. -/
def insertBefore (position : Pointer ι α) (a : α) : List α → List α
  | [] => [a]
  | b :: xs => if position = .node b then a :: b :: xs else b :: insertBefore position a xs

/-- What the operations do to sequences of elements. -/
def after (xs : ι → List α) : Event ι α → ι → List α
  | .pushFront l a => update xs l (a :: xs l)
  | .pushBack l a => update xs l (xs l ++ [a])
  | .popFront l => update xs l (xs l).tail
  | .popBack l => update xs l (xs l).dropLast
  | .insert l position a => update xs l (insertBefore position a (xs l))
  | .erase l a => update xs l ((xs l).erase a)
  | .clear l => update xs l []
  | .assign l values => update xs l values
  | .moveAssign l other => update (update xs l (xs other)) other []

/-- The element is in no list. -/
def Free (xs : ι → List α) (a : α) : Prop := ∀ l, a ∉ xs l

/-- What a caller keeps to: an element is in one list at most, only elements of the list are popped and only
members of the list, or elements that are in no list, are erased. -/
def Possible (xs : ι → List α) : Event ι α → Prop
  | .pushFront _ a => Free xs a
  | .pushBack _ a => Free xs a
  | .popFront l => xs l ≠ []
  | .popBack l => xs l ≠ []
  | .insert l position a => Free xs a ∧ (position = .endNode l ∨ ∃ b ∈ xs l, position = .node b)
  | .erase l a => a ∈ xs l ∨ Free xs a
  | .clear _ => True
  | .assign l values => values.Nodup ∧ ∀ a ∈ values, ∀ other, other ≠ l → a ∉ xs other
  | .moveAssign _ _ => True

/-- What a user sees of lists with these elements. -/
structure Shows (s : Lists ι α) (xs : ι → List α) : Prop where
  forward : ∀ l, ∃ steps, s.forward l steps = some (xs l)
  backward : ∀ l, ∃ steps, s.backward l steps = some (xs l).reverse
  size : ∀ l, s.numberOfElements l = (xs l).length
  front : ∀ l a, (xs l).head? = some a → s.front l = some a
  back : ∀ l a, (xs l).getLast? = some a → s.back l = some a

/-- The lists beside the sequences. -/
def step (s : Lists ι α × (ι → List α)) (e : Event ι α) : Option (Lists ι α × (ι → List α)) :=
  (stepLists s.1 e).map (·, after s.2 e)

end Code

/-! ## Where the elements are -/

/-- The place before the first element is the null pointer, and the begin is what comes after it. -/
def following (s : Lists ι α) (l : ι) : Pointer ι α → Pointer ι α
  | .null => s.beginNode l
  | p => s.next p

def places (l : ι) (xs : List α) : List (Pointer ι α) := .null :: (xs.map .node ++ [.endNode l])

/-- The place of the first element of the rest of a list. -/
def firstPlace (l : ι) : List α → Pointer ι α
  | [] => .endNode l
  | a :: _ => .node a

/-- The place of the last element so far. -/
def lastPlace (xs : List α) : Pointer ι α :=
  match xs.getLast? with
  | none => .null
  | some a => .node a

theorem following_of_ne {s : Lists ι α} {l : ι} {p : Pointer ι α} (h : p ≠ .null) : following s l p = s.next p := by
  cases p with
  | null => exact absurd rfl h
  | endNode _ => rfl
  | node _ => rfl

theorem following_congr {s s' : Lists ι α} {l : ι} {p : Pointer ι α} (hbegin : s'.beginNode l = s.beginNode l)
    (hnext : p ≠ .null → s'.next p = s.next p) : following s' l p = following s l p := by
  by_cases hp : p = .null
  · rw [hp]
    exact hbegin
  · rw [following_of_ne hp, following_of_ne hp, hnext hp]

/-- The lists have these elements, each of them in one list at most. An element that is in no list has no
previous node: this is what `erase` goes by. -/
structure Represents (s : Lists ι α) (xs : ι → List α) : Prop where
  distinct : ∀ l, (xs l).Nodup
  disjoint : ∀ l other a, a ∈ xs l → a ∈ xs other → l = other
  size : ∀ l, s.numberOfElements l = (xs l).length
  linked : ∀ l, LinkedPlaces.Linked (following s l) s.previous (places l (xs l))
  unlinked : ∀ a, Free xs a → s.previous (.node a) = .null

variable {s s' : Lists ι α} {xs : ι → List α} {l other : ι} {a : α} {u v : List α}

@[simp] theorem lastPlace_nil : (lastPlace [] : Pointer ι α) = .null := rfl

@[simp] theorem lastPlace_concat : (lastPlace (u ++ [a]) : Pointer ι α) = .node a := by
  simp [lastPlace]

@[simp] theorem firstPlace_nil : (firstPlace l [] : Pointer ι α) = .endNode l := rfl

@[simp] theorem firstPlace_cons : firstPlace l (a :: v) = .node a := rfl

theorem lastPlace_eq_null : (lastPlace u : Pointer ι α) = .null ↔ u = [] := by
  rcases List.eq_nil_or_concat' u with rfl | ⟨u, b, rfl⟩ <;> simp

theorem mem_of_lastPlace (h : (lastPlace u : Pointer ι α) = .node a) : a ∈ u := by
  rcases List.eq_nil_or_concat' u with rfl | ⟨u, b, rfl⟩
  · cases h
  · rw [lastPlace_concat] at h
    cases h
    simp

theorem firstPlace_ne_null : (firstPlace l v : Pointer ι α) ≠ .null := by
  cases v <;> simp

theorem mem_of_firstPlace (h : firstPlace l v = .node a) : a ∈ v := by
  cases v with
  | nil => cases h
  | cons b v =>
      cases h
      exact List.mem_cons_self

/-- Two neighbours among the places of a list, and an element between them. -/
theorem exists_places (l : ι) (u v : List α) : ∃ before after,
    places l (u ++ v) = before ++ lastPlace u :: firstPlace l v :: after ∧
    ∀ a, places l (u ++ a :: v) = before ++ lastPlace u :: .node a :: firstPlace l v :: after := by
  refine ⟨(Pointer.null :: u.map .node).dropLast, (v.map Pointer.node ++ [Pointer.endNode l]).tail, ?_⟩
  rcases List.eq_nil_or_concat' u with rfl | ⟨u, b, rfl⟩
  · cases v <;> simp [places]
  · have hu : (Pointer.null :: (u ++ [b]).map (.node : α → Pointer ι α)).dropLast = .null :: u.map .node := by
      rw [List.map_append, List.map_singleton, ← List.cons_append, List.dropLast_concat]
    rw [hu]
    cases v <;> simp [places]

theorem places_nodup (h : u.Nodup) : (places l u).Nodup := by
  have hmap : (u.map (.node : α → Pointer ι α)).Nodup :=
    h.map fun a b hab => by cases hab; rfl
  simp [places, List.nodup_append, hmap]

theorem mem_places {p : Pointer ι α} :
    p ∈ places l u ↔ p = .null ∨ (∃ a ∈ u, p = .node a) ∨ p = .endNode l := by
  simp [places, eq_comm]

theorem places_concat : places l (u ++ [a]) = (.null :: u.map .node) ++ [.node a, .endNode l] := by
  simp [places]

theorem Represents.between (h : Represents s xs) (hl : xs l = u ++ v) :
    following s l (lastPlace u) = firstPlace l v ∧ s.previous (firstPlace l v) = lastPlace u := by
  obtain ⟨before, after, hplaces, -⟩ := exists_places l u v
  have hlinked := h.linked l
  rw [hl, hplaces] at hlinked
  exact hlinked.split

theorem Represents.begins (h : Represents s xs) (l : ι) : s.beginNode l = firstPlace l (xs l) :=
  (h.between (u := []) rfl).1

theorem Represents.ends (h : Represents s xs) (l : ι) : s.previous (.endNode l) = lastPlace (xs l) :=
  (h.between (v := []) (List.append_nil _).symm).2

theorem Represents.empty_iff (h : Represents s xs) (l : ι) : s.empty l = true ↔ xs l = [] := by
  rw [Lists.empty, h.size]
  simp

theorem represents_create : Represents (Lists.create : Lists ι α) (fun _ => []) where
  distinct := fun _ => List.nodup_nil
  disjoint := by simp
  size := fun _ => rfl
  linked := fun l => List.isChain_cons_cons.mpr ⟨⟨rfl, rfl⟩, List.IsChain.singleton _⟩
  unlinked := fun _ _ => rfl

variable [DecidableEq ι]

/-- **One list changes**, and what belongs to the others stays as it was. -/
theorem Represents.change (h : Represents s xs) {ys : List α} (hnodup : ys.Nodup)
    (hdisjoint : ∀ a ∈ ys, ∀ other, other ≠ l → a ∉ xs other)
    (hlinked : LinkedPlaces.Linked (following s' l) s'.previous (places l ys))
    (hsize : s'.numberOfElements = update s.numberOfElements l ys.length)
    (hbegin : ∀ other, other ≠ l → s'.beginNode other = s.beginNode other)
    (hnext : ∀ other, other ≠ l → ∀ a ∈ xs other, s'.next (.node a) = s.next (.node a))
    (hprevious : ∀ other, other ≠ l → ∀ a ∈ xs other, s'.previous (.node a) = s.previous (.node a))
    (hends : ∀ other, other ≠ l → s'.previous (.endNode other) = s.previous (.endNode other))
    (hunlinked : ∀ a, a ∉ ys → (∀ other, other ≠ l → a ∉ xs other) → s'.previous (.node a) = .null) :
    Represents s' (update xs l ys) := by
  have hself : update xs l ys l = ys := update_self l ys xs
  have hother : ∀ other, other ≠ l → update xs l ys other = xs other :=
    fun other hne => update_of_ne hne ys xs
  constructor
  · intro m
    by_cases hm : m = l
    · rw [hm, hself]
      exact hnodup
    · rw [hother m hm]
      exact h.distinct m
  · intro m n a hm hn
    by_cases hml : m = l
    · by_cases hnl : n = l
      · rw [hml, hnl]
      · rw [hml, hself] at hm
        rw [hother n hnl] at hn
        exact absurd hn (hdisjoint a hm n hnl)
    · by_cases hnl : n = l
      · rw [hnl, hself] at hn
        rw [hother m hml] at hm
        exact absurd hm (hdisjoint a hn m hml)
      · rw [hother m hml] at hm
        rw [hother n hnl] at hn
        exact h.disjoint m n a hm hn
  · intro m
    by_cases hm : m = l
    · rw [hm, hself, hsize, update_self]
    · rw [hother m hm, hsize, update_of_ne hm, h.size m]
  · intro m
    by_cases hm : m = l
    · rw [hm, hself]
      exact hlinked
    · rw [hother m hm]
      refine (h.linked m).congr ?_ ?_
      · intro p hp
        have hp' : p ∈ Pointer.null :: (xs m).map (.node : α → Pointer ι α) := by
          rw [places, ← List.cons_append, List.dropLast_concat] at hp
          exact hp
        rcases List.mem_cons.mp hp' with rfl | hp'
        · exact hbegin m hm
        · obtain ⟨a, ha, rfl⟩ := List.mem_map.mp hp'
          exact hnext m hm a ha
      · intro q hq
        rw [places, List.tail_cons, List.mem_append, List.mem_singleton] at hq
        rcases hq with hq | rfl
        · obtain ⟨a, ha, rfl⟩ := List.mem_map.mp hq
          exact hprevious m hm a ha
        · exact hends m hm
  · intro a ha
    refine hunlinked a ?_ ?_
    · have hl := ha l
      rwa [hself] at hl
    · intro m hm
      have hm' := ha m
      rwa [hother m hm] at hm'

/-- An element comes into a list. -/
theorem Represents.insertBetween (h : Represents s xs) (hl : xs l = u ++ v) (hfree : Free xs a)
    (hnext : s'.next (.node a) = firstPlace l v) (hprevious : s'.previous (.node a) = lastPlace u)
    (hbefore : following s' l (lastPlace u) = .node a) (hafter : s'.previous (firstPlace l v) = .node a)
    (hnexts : ∀ y, y ≠ .null → y ≠ .node a → y ≠ lastPlace u → s'.next y = s.next y)
    (hpreviouses : ∀ y, y ≠ .node a → y ≠ firstPlace l v → s'.previous y = s.previous y)
    (hbegin : lastPlace u ≠ (.null : Pointer ι α) → s'.beginNode l = s.beginNode l)
    (hbegins : ∀ other, other ≠ l → s'.beginNode other = s.beginNode other)
    (hsize : s'.numberOfElements = update s.numberOfElements l (s.numberOfElements l + 1)) :
    Represents s' (update xs l (u ++ a :: v)) := by
  have hnodup := h.distinct l
  have hfreel := hfree l
  rw [hl] at hnodup hfreel
  obtain ⟨before, after, hplaces, hplaces'⟩ := exists_places l u v
  -- a place of an element in another list is not one of those that change
  have hapart : ∀ other, other ≠ l → ∀ b ∈ xs other, b ≠ a ∧ b ∉ u ++ v := by
    intro other hne b hb
    refine ⟨?_, ?_⟩
    · rintro rfl
      exact hfree other hb
    · intro hb'
      rw [← hl] at hb'
      exact hne (h.disjoint other l b hb hb')
  refine h.change ?_ ?_ ?_ ?_ hbegins ?_ ?_ ?_ ?_
  · exact (List.perm_middle.nodup_iff).mpr (List.nodup_cons.mpr ⟨hfreel, hnodup⟩)
  · intro b hb other hne hb'
    obtain ⟨hba, hbl⟩ := hapart other hne b hb'
    grind
  · have hlinked := h.linked l
    rw [hl, hplaces] at hlinked
    rw [hplaces' a]
    have hmem : ∀ y ∈ before ++ lastPlace u :: firstPlace l v :: after, y ≠ Pointer.node a := by
      rintro y hy rfl
      rw [← hplaces, mem_places] at hy
      rcases hy with hy | ⟨b, hb, hy⟩ | hy
      · cases hy
      · cases hy
        exact hfreel hb
      · cases hy
    refine hlinked.insert (hplaces ▸ places_nodup hnodup) hbefore hprevious hnext hafter ?_ ?_
    · intro y hy hyp
      by_cases hnull : y = .null
      · subst hnull
        exact hbegin hyp.symm
      · rw [following_of_ne hnull, following_of_ne hnull]
        exact hnexts y hnull (hmem y hy) hyp
    · intro y hy hyq
      exact hpreviouses y (hmem y hy) hyq
  · rw [hsize, h.size l, hl]
    simp [Nat.add_assoc]
  · intro other hne b hb
    obtain ⟨hba, hbl⟩ := hapart other hne b hb
    refine hnexts _ (by simp) (by simpa using hba) ?_
    intro hlast
    exact hbl (List.mem_append_left v (mem_of_lastPlace hlast.symm))
  · intro other hne b hb
    obtain ⟨hba, hbl⟩ := hapart other hne b hb
    refine hpreviouses _ (by simpa using hba) ?_
    intro hfirst
    exact hbl (List.mem_append_right u (mem_of_firstPlace hfirst.symm))
  · intro other hne
    refine hpreviouses _ (by simp) ?_
    cases v with
    | nil => simpa using hne
    | cons b v => simp
  · intro b hb hothers
    have hbl : b ∉ xs l := by
      rw [hl]
      exact fun hb' => hb (List.perm_middle.mem_iff.mpr (List.mem_cons_of_mem a hb'))
    have hba : b ≠ a := by
      rintro rfl
      exact hb (by simp)
    rw [hpreviouses _ (by simpa using hba), h.unlinked b]
    · intro other
      by_cases hne : other = l
      · rwa [hne]
      · exact hothers other hne
    · intro hfirst
      exact hb (List.mem_append_right u (List.mem_cons_of_mem a (mem_of_firstPlace hfirst.symm)))

/-- An element goes out of a list. -/
theorem Represents.removeBetween (h : Represents s xs) (hl : xs l = u ++ a :: v)
    (hunlink : s'.previous (.node a) = .null)
    (hbefore : following s' l (lastPlace u) = firstPlace l v) (hafter : s'.previous (firstPlace l v) = lastPlace u)
    (hnexts : ∀ y, y ≠ .null → y ≠ .node a → y ≠ lastPlace u → s'.next y = s.next y)
    (hpreviouses : ∀ y, y ≠ .node a → y ≠ firstPlace l v → s'.previous y = s.previous y)
    (hbegin : lastPlace u ≠ (.null : Pointer ι α) → s'.beginNode l = s.beginNode l)
    (hbegins : ∀ other, other ≠ l → s'.beginNode other = s.beginNode other)
    (hsize : s'.numberOfElements = update s.numberOfElements l (s.numberOfElements l - 1)) :
    Represents s' (update xs l (u ++ v)) := by
  have hnodup := h.distinct l
  rw [hl] at hnodup
  have hsub : (u ++ v).Nodup := hnodup.sublist (by simp)
  obtain ⟨before, after, hplaces, hplaces'⟩ := exists_places l u v
  have hapart : ∀ other, other ≠ l → ∀ b ∈ xs other, b ∉ u ++ a :: v := by
    intro other hne b hb hb'
    rw [← hl] at hb'
    exact hne (h.disjoint other l b hb hb')
  refine h.change hsub ?_ ?_ ?_ hbegins ?_ ?_ ?_ ?_
  · intro b hb other hne hb'
    exact hapart other hne b hb' (by grind)
  · have hlinked := h.linked l
    rw [hl, hplaces' a] at hlinked
    rw [hplaces]
    refine hlinked.remove (hplaces' a ▸ places_nodup hnodup) hbefore hafter ?_ ?_
    · intro y _ hyp hya
      by_cases hnull : y = .null
      · subst hnull
        exact hbegin hyp.symm
      · rw [following_of_ne hnull, following_of_ne hnull]
        exact hnexts y hnull hya hyp
    · intro y _ hyq hya
      exact hpreviouses y hya hyq
  · rw [hsize, h.size l, hl]
    simp
  · intro other hne b hb
    have hbl := hapart other hne b hb
    refine hnexts _ (by simp) (by grind) ?_
    intro hlast
    exact hbl (List.mem_append_left _ (mem_of_lastPlace hlast.symm))
  · intro other hne b hb
    have hbl := hapart other hne b hb
    refine hpreviouses _ (by grind) ?_
    intro hfirst
    exact hbl (List.mem_append_right u (List.mem_cons_of_mem a (mem_of_firstPlace hfirst.symm)))
  · intro other hne
    refine hpreviouses _ (by simp) ?_
    cases v with
    | nil => simpa using hne
    | cons b v => simp
  · intro b hb hothers
    by_cases hba : b = a
    · rw [hba, hunlink]
    · rw [hpreviouses _ (by simpa using hba), h.unlinked b]
      · intro other
        by_cases hne : other = l
        · rw [hne, hl]
          grind
        · exact hothers other hne
      · intro hfirst
        exact hb (List.mem_append_right u (mem_of_firstPlace hfirst.symm))

/-! ## Insertion -/

variable [DecidableEq α]

/-- What `setNextOrBegin` does: the place after a previous node is set, which is the begin when there is none. -/
structure FollowingSet (s s' : Lists ι α) (l : ι) (p next : Pointer ι α) : Prop where
  following : following s' l p = next
  next : ∀ y, y ≠ .null → y ≠ p → s'.next y = s.next y
  previous : s'.previous = s.previous
  size : s'.numberOfElements = s.numberOfElements
  begins : p ≠ .null → s'.beginNode l = s.beginNode l
  others : ∀ other, other ≠ l → s'.beginNode other = s.beginNode other

theorem setNextOrBegin_spec (s : Lists ι α) (l : ι) (p next : Pointer ι α) :
    ∃ s', s.setNextOrBegin l p next = some s' ∧ FollowingSet s s' l p next := by
  by_cases hp : p = .null
  · refine ⟨s.setBegin l next, if_neg (by simpa using hp), ?_, fun _ _ _ => rfl, rfl, rfl, fun h => absurd hp h, ?_⟩
    · rw [hp]
      exact update_self l next s.beginNode
    · intro other hne
      exact update_of_ne hne next s.beginNode
  · refine ⟨{ s with next := update s.next p next }, ?_, ?_, ?_, rfl, rfl, fun _ => rfl, fun _ _ => rfl⟩
    · rw [Lists.setNextOrBegin, if_pos hp, Lists.setNext, if_neg hp]
    · rw [following_of_ne hp]
      exact update_self p next s.next
    · intro y _ hy
      exact update_of_ne hy next s.next

theorem Represents.insert_spec (h : Represents s xs) (hl : xs l = u ++ v) (hfree : Free xs a) :
    ∃ s', s.insert l (firstPlace l v) a = some s' ∧ Represents s' (update xs l (u ++ a :: v)) := by
  have hfirst : firstPlace l v ≠ Pointer.node a := by
    intro hfirst
    exact hfree l (hl ▸ List.mem_append_right u (mem_of_firstPlace hfirst))
  have hlast : Pointer.node a ≠ (lastPlace u : Pointer ι α) := by
    intro hlast
    exact hfree l (hl ▸ List.mem_append_left v (mem_of_lastPlace hlast.symm))
  have hprevious : s.getPrevious (firstPlace l v) = some (lastPlace u) := by
    rw [Lists.getPrevious, if_neg firstPlace_ne_null, (h.between hl).2]
  obtain ⟨s', hstep, hset⟩ := setNextOrBegin_spec
    { s with
      next := update s.next (.node a) (firstPlace l v)
      previous := update (update s.previous (.node a) (lastPlace u)) (firstPlace l v) (.node a) }
    l (lastPlace u) (.node a)
  refine ⟨s'.setSize l (s'.numberOfElements l + 1), ?_, h.insertBetween hl hfree ?_ ?_ ?_ ?_ ?_ ?_ ?_ ?_ ?_⟩
  · simp [Lists.insert, hprevious, Lists.setPrevious, Lists.setNext, firstPlace_ne_null, hstep]
  · rw [Lists.setSize]
    dsimp only
    rw [hset.next _ (by simp) hlast]
    exact update_self _ _ _
  · simp [Lists.setSize, hset.previous, hfirst.symm]
  · exact hset.following
  · simp [Lists.setSize, hset.previous]
  · intro y hnull hya hyu
    rw [Lists.setSize]
    dsimp only
    rw [hset.next y hnull hyu]
    exact update_of_ne hya _ _
  · intro y hya hyv
    simp [Lists.setSize, hset.previous, hya, hyv]
  · exact hset.begins
  · exact hset.others
  · simp [Lists.setSize, hset.size]

/-- `push_back` is `insert` at the end. -/
theorem pushBack_eq_insert (s : Lists ι α) (l : ι) (a : α) : s.pushBack l a = s.insert l (.endNode l) a := by
  by_cases hp : s.previous (.endNode l) = .null
  · simp [Lists.pushBack, Lists.insert, Lists.getPrevious, Lists.setNext, Lists.setPrevious, Lists.setNextOrBegin,
      Lists.setBegin, Lists.setSize, hp]
  · simp [Lists.pushBack, Lists.insert, Lists.getPrevious, Lists.setNext, Lists.setPrevious, Lists.setNextOrBegin,
      Lists.setSize, hp]

section

variable (h : Represents s xs)
include h

/-- `push_front` is `insert` at the begin. -/
theorem Represents.pushFront_eq_insert (l : ι) (a : α) :
    s.pushFront l a = s.insert l (firstPlace l (xs l)) a := by
  have hbegin := h.begins l
  have hprevious : s.previous (firstPlace l (xs l)) = .null := (h.between (u := []) rfl).2
  simp [Lists.pushFront, Lists.insert, Lists.getPrevious, Lists.setNext, Lists.setPrevious, Lists.setNextOrBegin,
    hbegin, hprevious, firstPlace_ne_null]

theorem Represents.pushBack_spec (hfree : Free xs a) :
    ∃ s', s.pushBack l a = some s' ∧ Represents s' (update xs l (xs l ++ [a])) := by
  rw [pushBack_eq_insert]
  exact h.insert_spec (v := []) (List.append_nil _).symm hfree

theorem Represents.pushFront_spec (hfree : Free xs a) :
    ∃ s', s.pushFront l a = some s' ∧ Represents s' (update xs l (a :: xs l)) := by
  rw [h.pushFront_eq_insert]
  exact h.insert_spec (u := []) rfl hfree

/-! ## Removal -/

theorem Represents.erase_of_mem (hl : xs l = u ++ a :: v) :
    ∃ s', s.erase l a = some s' ∧ Represents s' (update xs l (u ++ v)) := by
  have hnodup := h.distinct l
  rw [hl] at hnodup
  have hfirst : firstPlace l v ≠ Pointer.node a := by
    intro hfirst
    have := mem_of_firstPlace hfirst
    grind
  have hlast : Pointer.node a ≠ (lastPlace u : Pointer ι α) := by
    intro hlast
    have := mem_of_lastPlace hlast.symm
    grind
  obtain ⟨hfollowing, hprevious⟩ := h.between hl
  rw [firstPlace_cons] at hfollowing hprevious
  have hnext : s.next (.node a) = firstPlace l v := by
    have hafter := (h.between (l := l) (u := u ++ [a]) (v := v) (by simp [hl])).1
    rwa [lastPlace_concat] at hafter
  -- a member without a previous node is the first one
  have hpresent : ¬ (lastPlace u = (Pointer.null : Pointer ι α) ∧ s.beginNode l ≠ .node a) := by
    rintro ⟨hnull, hne⟩
    rw [hnull] at hfollowing
    exact hne hfollowing
  obtain ⟨s', hstep, hset⟩ := setNextOrBegin_spec s l (lastPlace u) (firstPlace l v)
  refine ⟨({ s' with
      previous := update (update s'.previous (firstPlace l v) (lastPlace u)) (.node a) .null
      next := update s'.next (.node a) .null } : Lists ι α).setSize l (s'.numberOfElements l - 1), ?_,
    h.removeBetween hl ?_ ?_ ?_ ?_ ?_ ?_ ?_ ?_⟩
  · simp [Lists.erase, hprevious, hpresent, hnext, hstep, Lists.setPrevious, Lists.setNext, firstPlace_ne_null,
      Lists.setSize]
  · simp [Lists.setSize]
  · rw [← hset.following]
    exact following_congr rfl fun _ => update_of_ne hlast.symm _ _
  · simp [Lists.setSize, hset.previous, hfirst]
  · intro y hnull hya hyu
    simp [Lists.setSize, hya, hset.next y hnull hyu]
  · intro y hya hyv
    simp [Lists.setSize, hset.previous, hya, hyv]
  · exact hset.begins
  · exact hset.others
  · simp [Lists.setSize, hset.size]

theorem Represents.erase_of_free (hfree : Free xs a) (l : ι) : s.erase l a = some s := by
  have hbegin : s.beginNode l ≠ .node a := by
    intro hbegin
    exact hfree l (mem_of_firstPlace ((h.begins l).symm.trans hbegin))
  simp [Lists.erase, h.unlinked a hfree, hbegin]

/-- `pop_front` is `erase` of the first element. -/
theorem Represents.popFront_eq_erase (hl : xs l = a :: v) : s.popFront l = s.erase l a := by
  have hnodup := h.distinct l
  rw [hl] at hnodup
  have hfirst : firstPlace l v ≠ Pointer.node a := by
    intro hfirst
    have := mem_of_firstPlace hfirst
    grind
  have hbegin : s.beginNode l = .node a := by
    rw [h.begins, hl, firstPlace_cons]
  have hprevious : s.previous (.node a) = .null := (h.between (u := []) hl).2
  have hnext : s.next (.node a) = firstPlace l v := (h.between (u := [a]) hl).1
  -- the previous node of the first element is null already
  have hsame : update (update s.previous (firstPlace l v) .null) (.node a) .null
      = update s.previous (firstPlace l v) .null := by
    rw [update_eq_self_iff, update_of_ne hfirst.symm, hprevious]
  simp [Lists.popFront, Lists.erase, hbegin, hprevious, hnext, Lists.getNext, Lists.setNext, Lists.setPrevious,
    Lists.setNextOrBegin, Lists.setBegin, firstPlace_ne_null, hsame]

theorem Represents.popFront_spec (hl : xs l = a :: v) :
    ∃ s', s.popFront l = some s' ∧ Represents s' (update xs l v) := by
  rw [h.popFront_eq_erase hl]
  exact h.erase_of_mem (u := []) hl

/-- `pop_back`, when an element remains. -/
theorem Represents.popBack_spec (hl : xs l = u ++ [a]) (hu : u ≠ []) :
    ∃ s', s.popBack l = some s' ∧ Represents s' (update xs l u) := by
  have hnodup := h.distinct l
  rw [hl] at hnodup
  have hlast : (lastPlace u : Pointer ι α) ≠ .node a := by
    intro hlast
    have := mem_of_lastPlace hlast
    grind
  have hnull : (lastPlace u : Pointer ι α) ≠ .null := fun hnull => hu (lastPlace_eq_null.mp hnull)
  have hback : s.previous (.endNode l) = .node a := by
    rw [h.ends, hl, lastPlace_concat]
  have hprevious : s.previous (.node a) = lastPlace u := (h.between hl).2
  have hpop : s.popBack l = some (({ s with
      previous := update (update s.previous (.endNode l) (lastPlace u)) (.node a) .null
      next := update s.next (lastPlace u) (.endNode l) } : Lists ι α).setSize l
        (s.numberOfElements l - 1)) := by
    simp [Lists.popBack, hback, Lists.getPrevious, hprevious, Lists.setPrevious, Lists.setNext, hnull, Lists.setSize]
  have hempty : update xs l u = update xs l (u ++ []) := by rw [List.append_nil]
  refine ⟨_, hpop, ?_⟩
  rw [hempty]
  refine h.removeBetween (v := []) hl (by simp [Lists.setSize]) ?_ (by simp [Lists.setSize]) ?_ ?_ (fun _ => rfl)
    (fun _ _ => rfl) (by simp [Lists.setSize])
  · rw [following_of_ne hnull]
    simp [Lists.setSize]
  · intro y _ _ hyu
    simp [Lists.setSize, hyu]
  · intro y hya hyv
    have hyv' : y ≠ .endNode l := hyv
    simp [Lists.setSize, hya, hyv']

/-! ## `clear`, `assign` and the move assignment -/

theorem Represents.clearLoop_spec :
    ∃ s', Lists.clearLoop l (xs l).length s = some s' ∧ Represents s' (update xs l []) := by
  generalize hl : xs l = ys
  induction ys generalizing s xs with
  | nil =>
      refine ⟨s, ?_, ?_⟩
      · rw [List.length_nil, Lists.clearLoop, if_pos ((h.empty_iff l).mpr hl)]
      · rwa [← hl, update_eq_self]
  | cons a ys ih =>
      obtain ⟨s₁, hpop, h₁⟩ := h.popFront_spec hl
      obtain ⟨s', hrest, h'⟩ := ih h₁ (update_self l ys xs)
      refine ⟨s', ?_, by rwa [update_idem] at h'⟩
      have hne : ¬ s.empty l = true := by
        rw [h.empty_iff, hl]
        simp
      rw [List.length_cons, Lists.clearLoop, if_neg hne, hpop]
      exact hrest

theorem Represents.clear_spec : ∃ s', s.clear l = some s' ∧ Represents s' (update xs l []) := by
  rw [Lists.clear, h.size]
  exact h.clearLoop_spec

theorem Represents.foldlM_pushBack_spec {values : List α}
    (hnodup : values.Nodup) (hfree : ∀ a ∈ values, Free xs a) :
    ∃ s', values.foldlM (fun s a => s.pushBack l a) s = some s' ∧
      Represents s' (update xs l (xs l ++ values)) := by
  induction values generalizing s xs with
  | nil =>
      refine ⟨s, rfl, ?_⟩
      rwa [List.append_nil, update_eq_self]
  | cons a values ih =>
      obtain ⟨ha, hrest⟩ := List.nodup_cons.mp hnodup
      obtain ⟨s₁, hpush, h₁⟩ := h.pushBack_spec (l := l) (hfree a List.mem_cons_self)
      have hfree₁ : ∀ b ∈ values, Free (update xs l (xs l ++ [a])) b := by
        intro b hb other
        have hb' := hfree b (List.mem_cons_of_mem a hb) other
        by_cases hne : other = l
        · subst hne
          rw [update_self]
          grind
        · rwa [update_of_ne hne]
      obtain ⟨s', hfold, h'⟩ := ih h₁ hrest hfree₁
      refine ⟨s', ?_, ?_⟩
      · rw [List.foldlM_cons, hpush]
        exact hfold
      · rw [update_self, update_idem, List.append_assoc] at h'
        exact h'

theorem Represents.assign_spec {values : List α} (hnodup : values.Nodup)
    (hothers : ∀ a ∈ values, ∀ other, other ≠ l → a ∉ xs other) :
    ∃ s', s.assign l values = some s' ∧ Represents s' (update xs l values) := by
  obtain ⟨s₁, hclear, h₁⟩ := h.clear_spec (l := l)
  have hfree : ∀ a ∈ values, Free (update xs l []) a := by
    intro a ha other
    by_cases hne : other = l
    · subst hne
      simp
    · rw [update_of_ne hne]
      exact hothers a ha other hne
  obtain ⟨s', hfold, h'⟩ := h₁.foldlM_pushBack_spec (l := l) hnodup hfree
  refine ⟨s', ?_, ?_⟩
  · rw [Lists.assign, hclear]
    exact hfold
  · rwa [update_self, update_idem, List.nil_append] at h'

/-- An empty list takes over the elements of another one. -/
theorem Represents.takeOver (hl : xs l = []) (hne : l ≠ other)
    (hlast : following s' l (lastPlace (xs other)) = .endNode l)
    (hend : s'.previous (.endNode l) = s.previous (.endNode other))
    (hbegin : xs other ≠ [] → s'.beginNode l = s.beginNode other)
    (hbeginOther : s'.beginNode other = .endNode other) (hendOther : s'.previous (.endNode other) = .null)
    (hnexts : ∀ y, y ≠ .null → y ≠ lastPlace (xs other) → s'.next y = s.next y)
    (hpreviouses : ∀ y, y ≠ .endNode l → y ≠ .endNode other → s'.previous y = s.previous y)
    (hbegins : ∀ m, m ≠ l → m ≠ other → s'.beginNode m = s.beginNode m)
    (hsize : s'.numberOfElements = update (update s.numberOfElements l (s.numberOfElements other))
      other 0) :
    Represents s' (update (update xs l (xs other)) other []) := by
  have hother : update (update xs l (xs other)) other [] other = [] := update_self _ _ _
  have hself : update (update xs l (xs other)) other [] l = xs other := by
    rw [update_of_ne hne, update_self]
  have hrest : ∀ m, m ≠ l → m ≠ other → update (update xs l (xs other)) other [] m = xs m := by
    intro m hml hmo
    rw [update_of_ne hmo, update_of_ne hml]
  -- the list in which an element was
  have hfrom : ∀ m a, a ∈ update (update xs l (xs other)) other [] m →
      m ≠ other ∧ a ∈ xs (if m = l then other else m) := by
    intro m a ha
    by_cases hmo : m = other
    · rw [hmo, hother] at ha
      cases ha
    · by_cases hml : m = l
      · rw [hml, hself] at ha
        exact ⟨hmo, by rwa [if_pos hml]⟩
      · rw [hrest m hml hmo] at ha
        exact ⟨hmo, by rwa [if_neg hml]⟩
  constructor
  · intro m
    by_cases hmo : m = other
    · rw [hmo, hother]
      exact List.nodup_nil
    · by_cases hml : m = l
      · rw [hml, hself]
        exact h.distinct other
      · rw [hrest m hml hmo]
        exact h.distinct m
  · intro m n a hm hn
    obtain ⟨hmo, hm⟩ := hfrom m a hm
    obtain ⟨hno, hn⟩ := hfrom n a hn
    have heq := h.disjoint _ _ a hm hn
    grind
  · intro m
    rw [hsize]
    by_cases hmo : m = other
    · rw [hmo, hother, update_self, List.length_nil]
    · rw [update_of_ne hmo]
      by_cases hml : m = l
      · rw [hml, hself, update_self, h.size]
      · rw [hrest m hml hmo, update_of_ne hml, h.size]
  · intro m
    by_cases hmo : m = other
    · rw [hmo, hother]
      exact List.isChain_cons_cons.mpr ⟨⟨hbeginOther, hendOther⟩, List.IsChain.singleton _⟩
    · by_cases hml : m = l
      · -- the last place of the other list is replaced by the end of this one
        rw [hml, hself]
        have hlinked := h.linked other
        have hends := h.ends other
        rcases List.eq_nil_or_concat' (xs other) with hys | ⟨w, b, hys⟩
        · rw [hys] at hlast hends ⊢
          exact List.isChain_cons_cons.mpr ⟨⟨hlast, hend.trans hends⟩, List.IsChain.singleton _⟩
        · rw [hys, lastPlace_concat] at hlast hnexts hends
          rw [hys, places_concat] at hlinked ⊢
          have hnodup := h.distinct other
          rw [hys] at hnodup
          refine hlinked.replaceLast hlast (hend.trans hends) ?_ ?_ (by simp)
          · intro y hy
            by_cases hnull : y = .null
            · rw [hnull]
              exact hbegin (by simp [hys])
            · rw [following_of_ne hnull, following_of_ne hnull]
              refine hnexts y hnull ?_
              rintro rfl
              simp only [List.mem_cons, List.mem_map, Pointer.node.injEq, exists_eq_right, reduceCtorEq,
                false_or] at hy
              grind
          · intro y hy hyl
            refine hpreviouses y hyl ?_
            rintro rfl
            simp at hy
      · -- the places of a third list are not touched
        rw [hrest m hml hmo]
        refine (h.linked m).congr ?_ ?_
        · intro y hy
          rw [places, ← List.cons_append, List.dropLast_concat] at hy
          refine following_congr (hbegins m hml hmo) fun hnull => hnexts y hnull ?_
          rintro rfl
          rcases List.mem_cons.mp hy with hy | hy
          · exact hnull hy
          · obtain ⟨a, ha, hya⟩ := List.mem_map.mp hy
            exact hmo (h.disjoint m other a ha (mem_of_lastPlace hya.symm))
        · intro y hy
          rw [places, List.tail_cons] at hy
          refine hpreviouses y ?_ ?_
          · rintro rfl
            simp [eq_comm] at hy
            exact hml hy.symm
          · rintro rfl
            simp [eq_comm] at hy
            exact hmo hy.symm
  · intro a ha
    rw [hpreviouses _ (by simp) (by simp)]
    apply h.unlinked
    intro m
    by_cases hml : m = l
    · rw [hml, hl]
      simp
    · by_cases hmo : m = other
      · rw [hmo, ← hself]
        exact ha l
      · rw [← hrest m hml hmo]
        exact ha m

end

theorem takeFrom_eq (s : Lists ι α) (l other : ι) :
    s.takeFrom l other = some
      { numberOfElements := update (update s.numberOfElements l (s.numberOfElements other)) other 0
        beginNode := update (if s.beginNode other ≠ .endNode other then
          update s.beginNode l (s.beginNode other) else s.beginNode) other (.endNode other)
        next := if s.previous (.endNode other) ≠ .null then
          update s.next (s.previous (.endNode other)) (.endNode l) else s.next
        previous := update (update s.previous (.endNode l) (s.previous (.endNode other)))
          (.endNode other) .null } := by
  by_cases hbegin : s.beginNode other = .endNode other
  · by_cases hend : s.previous (.endNode other) = .null
    · simp [Lists.takeFrom, hbegin, hend, Lists.setPrevious, Lists.setSize, Lists.setBegin]
    · simp [Lists.takeFrom, hbegin, hend, Lists.setPrevious, Lists.setNext, Lists.setSize, Lists.setBegin]
  · by_cases hend : s.previous (.endNode other) = .null
    · simp [Lists.takeFrom, hbegin, hend, Lists.setPrevious, Lists.setSize, Lists.setBegin]
    · simp [Lists.takeFrom, hbegin, hend, Lists.setPrevious, Lists.setNext, Lists.setSize, Lists.setBegin]

theorem Represents.takeFrom_spec (h : Represents s xs) (other : ι) (hl : xs l = []) :
    ∃ s', s.takeFrom l other = some s' ∧
      Represents s' (update (update xs l (xs other)) other []) := by
  refine ⟨_, takeFrom_eq s l other, ?_⟩
  have hbegin := h.begins other
  have hend := h.ends other
  have hbeginl := h.begins l
  rw [hl, firstPlace_nil] at hbeginl
  by_cases hne : l = other
  · -- a list is assigned to itself, which is empty then
    subst hne
    have hsize := h.size l
    rw [hl, lastPlace_nil] at hend
    rw [hl, List.length_nil] at hsize
    have hsizes : update s.numberOfElements l 0 = s.numberOfElements := by
      rw [← hsize, update_eq_self]
    have hbegins : update s.beginNode l (.endNode l) = s.beginNode := by
      rw [← hbeginl, update_eq_self]
    have hprevious : update s.previous (.endNode l) .null = s.previous := by
      rw [← hend, update_eq_self]
    have hxs : update xs l [] = xs := by
      rw [← hl, update_eq_self]
    simp only [update_idem, hsizes, hbeginl, hbegins, hend, hprevious, hxs, ne_eq, not_true_eq_false, if_false]
    exact h
  · have hempty : s.beginNode other ≠ .endNode other ↔ xs other ≠ [] := by
      rw [hbegin]
      cases xs other <;> simp
    refine h.takeOver hl hne ?_ ?_ ?_ ?_ ?_ ?_ ?_ ?_ rfl
    · rw [hend]
      by_cases hys : xs other = []
      · simp [hys, following, hne, hbeginl, hempty]
      · rw [following_of_ne (by rwa [Ne, lastPlace_eq_null])]
        simp [lastPlace_eq_null, hys]
    · simp [hne]
    · intro hys
      simp [hne, hempty, hys]
    · simp
    · simp
    · intro y hnull hy
      rw [hend]
      by_cases hys : xs other = []
      · simp [hys]
      · simp [lastPlace_eq_null, hys, hy]
    · intro y hyl hyo
      simp [hyl, hyo]
    · intro m hml hmo
      by_cases hys : xs other = []
      · simp [hys, hempty, hmo]
      · simp [hys, hempty, hmo, hml]

theorem Represents.moveAssign_spec (h : Represents s xs) (l other : ι) :
    ∃ s', s.moveAssign l other = some s' ∧ Represents s' (after xs (.moveAssign l other)) := by
  obtain ⟨s₁, hclear, h₁⟩ := h.clear_spec (l := l)
  obtain ⟨s', htake, h'⟩ := h₁.takeFrom_spec other (update_self l [] xs)
  refine ⟨s', ?_, ?_⟩
  · rw [Lists.moveAssign, hclear]
    exact htake
  · rw [update_idem] at h'
    by_cases hne : l = other
    · subst hne
      rw [after, update_idem]
      rwa [update_idem] at h'
    · rwa [update_of_ne (Ne.symm hne)] at h'

end EmbeddedInfra.IntrusiveLists
