import EmbeddedInfra.Infra.Util.SharedPtr

set_option autoImplicit false

/-! # Counting references

The references of a state are those of its pointers and one for every `Destruct` that has not returned; an operation
holds others while it is on its way. `Allocator.Counts` says that every node has counted them, and that its object
has been destructed and deallocated as often as it should.
-/

namespace EmbeddedInfra.SharedPtr

open EventSystem

/-! ## References -/

inductive Ref where
  | shared (control : Nat)
  | weak (control : Nat)
deriving DecidableEq, Repr

def Ref.control : Ref → Nat
  | .shared c => c
  | .weak c => c

def PtrValue.sharedRefs (value : PtrValue) : List Ref := value.control.toList.map .shared

def PtrValue.weakRefs (value : PtrValue) : List Ref := value.control.toList.map .weak

def Pointer.refs : Pointer → List Ref
  | .shared value => value.sharedRefs
  | .weak value => value.weakRefs
  | .destroyed => []

/-- What the pointers refer to, and the calls of `Destruct` that have not returned. -/
def State.refs (s : State) : List Ref :=
  s.pointers.flatMap Pointer.refs ++ s.destructing.map fun d => .weak d.control

/-- The number of SharedPtrs to an object. -/
def State.sharedPtrs (s : State) (c : Nat) : Nat := (s.pointers.flatMap Pointer.refs).count (.shared c)

/-- The number of WeakPtrs to an object. -/
def State.weakPtrs (s : State) (c : Nat) : Nat := (s.pointers.flatMap Pointer.refs).count (.weak c)

/-- The number of its destructors that are running. -/
def State.destructs (s : State) (c : Nat) : Nat := s.destructing.countP fun d => d.control = c

/-- How many references its control block has counted. -/
def State.references (s : State) (c : Nat) : Nat := s.sharedPtrs c + s.weakPtrs c + s.destructs c

theorem count_shared_refs (s : State) (c : Nat) : s.refs.count (.shared c) = s.sharedPtrs c := by
  have hnone : (s.destructing.map fun d => Ref.weak d.control).count (.shared c) = 0 := by
    rw [List.count_eq_zero]
    simp
  rw [State.refs, List.count_append, hnone]
  rfl

theorem count_weak_refs (s : State) (c : Nat) : s.refs.count (.weak c) = s.weakPtrs c + s.destructs c := by
  have hdestructs : (s.destructing.map fun d => Ref.weak d.control).count (.weak c) = s.destructs c := by
    rw [List.count, List.countP_map]
    apply List.countP_congr
    simp
  rw [State.refs, List.count_append, hdestructs]
  rfl

/-! ## What the nodes count -/

structure SharedPtrControl.Counts (k : SharedPtrControl) (shared weak : Nat) : Prop where
  sharedPtrCount : k.sharedPtrCount.toNat = shared
  weakPtrCount : k.weakPtrCount.toNat = shared + weak
  destructed : k.destructed + (if shared = 0 then 0 else 1) = k.allocated
  deallocated : k.deallocated + (if shared + weak = 0 then 0 else 1) = k.allocated

structure Allocator.Counts (a : Allocator) (refs : List Ref) : Prop where
  live : ∀ r ∈ refs, r.control < a.size
  nodes : ∀ c < a.size, (a.nodes c).Counts (refs.count (.shared c)) (refs.count (.weak c))
  free : ∀ c, c ∈ a.freeList ↔ c < a.size ∧ refs.count (.shared c) + refs.count (.weak c) = 0
  nodup : a.freeList.Nodup
  touched : a.touched = false
  asserted : a.asserted = false

variable {a : Allocator} {refs : List Ref} {c : Nat} {refs' : List Ref} {r : Ref}

theorem Allocator.Counts.perm (h : a.Counts refs) (hp : refs.Perm refs') : a.Counts refs' := by
  refine ⟨?_, ?_, ?_, h.nodup, h.touched, h.asserted⟩
  · intro r hr
    exact h.live r (hp.mem_iff.mpr hr)
  · intro c hc
    rw [← hp.count_eq, ← hp.count_eq]
    exact h.nodes c hc
  · intro c
    rw [← hp.count_eq, ← hp.count_eq]
    exact h.free c

theorem count_control_pos (hr : r ∈ refs) : 0 < refs.count (.shared r.control) + refs.count (.weak r.control) := by
  have hpos := List.count_pos_iff.mpr hr
  cases r with
  | shared c => exact Nat.add_pos_left hpos _
  | weak c => exact Nat.add_pos_right _ hpos

/-- A node that is referred to is not free. -/
theorem Allocator.Counts.touch_eq (h : a.Counts refs) (hr : r ∈ refs) : a.touch r.control = a := by
  have hpos := count_control_pos hr
  rw [Allocator.touch, if_neg]
  intro hfree
  have hzero := ((h.free r.control).mp hfree).2
  omega

/-- A change of one node that is referred to before and after. -/
theorem Allocator.Counts.modify {f : SharedPtrControl → SharedPtrControl} (h : a.Counts refs)
    (hlive : ∀ r ∈ refs', r.control < a.size)
    (hother : ∀ d, d ≠ c → refs'.count (.shared d) = refs.count (.shared d) ∧ refs'.count (.weak d) = refs.count (.weak d))
    (hnode : (f (a.nodes c)).Counts (refs'.count (.shared c)) (refs'.count (.weak c)))
    (hused : 0 < refs.count (.shared c) + refs.count (.weak c))
    (hused' : 0 < refs'.count (.shared c) + refs'.count (.weak c)) : (a.modify c f).Counts refs' := by
  refine ⟨hlive, ?_, ?_, h.nodup, h.touched, h.asserted⟩
  · intro d hd
    by_cases hdc : d = c
    · subst hdc
      simpa [Allocator.modify] using hnode
    · rw [(hother d hdc).1, (hother d hdc).2]
      simpa [Allocator.modify, hdc] using h.nodes d hd
  · intro d
    refine (h.free d).trans (and_congr_right fun _ => ?_)
    by_cases hdc : d = c
    · subst hdc
      omega
    · rw [(hother d hdc).1, (hother d hdc).2]

section Cons

variable (c) (refs)

@[simp] theorem count_shared_cons_shared (d : Nat) :
    (Ref.shared c :: refs).count (.shared d) = refs.count (.shared d) + if c = d then 1 else 0 := by
  simp [List.count_cons]

@[simp] theorem count_weak_cons_shared (d : Nat) : (Ref.shared c :: refs).count (.weak d) = refs.count (.weak d) := by
  simp

@[simp] theorem count_shared_cons_weak (d : Nat) : (Ref.weak c :: refs).count (.shared d) = refs.count (.shared d) := by
  simp

@[simp] theorem count_weak_cons_weak (d : Nat) :
    (Ref.weak c :: refs).count (.weak d) = refs.count (.weak d) + if c = d then 1 else 0 := by
  simp [List.count_cons]

end Cons

theorem toNat_add_one {n : UInt16} (h : n.toNat + 1 < 2 ^ 16) : (n + 1).toNat = n.toNat + 1 := by
  rw [UInt16.toNat_add, UInt16.toNat_one]
  omega

theorem toNat_sub_one {n : UInt16} (h : 0 < n.toNat) : (n - 1).toNat = n.toNat - 1 := by
  rw [UInt16.toNat_sub, UInt16.toNat_one]
  have hlt := n.toNat_lt
  omega

theorem eq_zero_iff_toNat (n : UInt16) : n = 0 ↔ n.toNat = 0 := UInt16.toNat_inj.symm

/-- A reference can be added where there is another. -/
theorem Allocator.Counts.increaseWeakCount (h : a.Counts refs) (hr : r ∈ refs)
    (hfits : refs.count (.shared r.control) + refs.count (.weak r.control) + 1 < 2 ^ 16) :
    (a.increaseWeakCount r.control).Counts (.weak r.control :: refs) := by
  have hpos := count_control_pos hr
  have hnode := h.nodes r.control (h.live r hr)
  have hweak := hnode.weakPtrCount
  rw [Allocator.increaseWeakCount, h.touch_eq hr]
  refine h.modify ?_ ?_ ?_ hpos ?_
  · intro r' hr'
    rcases List.mem_cons.mp hr' with rfl | hr'
    · exact h.live r hr
    · exact h.live r' hr'
  · intro d hd
    simp [Ne.symm hd]
  · rw [count_shared_cons_weak, count_weak_cons_weak, if_pos rfl]
    refine ⟨hnode.sharedPtrCount, ?_, hnode.destructed, ?_⟩
    · rw [toNat_add_one (by omega), hweak, Nat.add_assoc]
    · have hdeallocated := hnode.deallocated
      rw [if_neg (by omega)] at hdeallocated ⊢
      exact hdeallocated
  · simp

theorem increaseSharedCount_eq (hc : c ∉ a.freeList) : a.increaseSharedCount c =
    a.modify c fun k => { k with sharedPtrCount := k.sharedPtrCount + 1, weakPtrCount := k.weakPtrCount + 1 } := by
  simp [Allocator.increaseSharedCount, Allocator.increaseWeakCount, Allocator.touch, Allocator.modify, hc]

/-- A SharedPtr can be added where there is another. -/
theorem Allocator.Counts.increaseSharedCount (h : a.Counts refs) (hr : .shared c ∈ refs)
    (hfits : refs.count (.shared c) + refs.count (.weak c) + 1 < 2 ^ 16) :
    (a.increaseSharedCount c).Counts (.shared c :: refs) := by
  have hpos : 0 < refs.count (.shared c) := List.count_pos_iff.mpr hr
  have hnode := h.nodes c (h.live _ hr)
  have hshared := hnode.sharedPtrCount
  have hweak := hnode.weakPtrCount
  rw [increaseSharedCount_eq (fun hfree => by have hzero := ((h.free c).mp hfree).2; omega)]
  refine h.modify ?_ ?_ ?_ (Nat.add_pos_left hpos _) ?_
  · intro r' hr'
    rcases List.mem_cons.mp hr' with rfl | hr'
    · exact h.live _ hr
    · exact h.live r' hr'
  · intro d hd
    simp [Ne.symm hd]
  · rw [count_shared_cons_shared, count_weak_cons_shared, if_pos rfl]
    refine ⟨?_, ?_, ?_, ?_⟩
    · rw [toNat_add_one (by omega), hshared]
    · rw [toNat_add_one (by omega), hweak]
      omega
    · have hdestructed := hnode.destructed
      rw [if_neg (by omega)] at hdestructed ⊢
      exact hdestructed
    · have hdeallocated := hnode.deallocated
      rw [if_neg (by omega)] at hdeallocated ⊢
      exact hdeallocated
  · simp

/-- A node that was free, or a new one, with the first SharedPtr to its object. -/
theorem Allocator.Counts.first (size : Nat) (freeList : List Nat) (k : SharedPtrControl) (h : a.Counts refs)
    (hunused : refs.count (.shared c) + refs.count (.weak c) = 0) (hsize : a.size ≤ size) (hc : c < size)
    (hother : ∀ d < size, d ≠ c → d < a.size) (hfree : ∀ d, d ∈ freeList ↔ d ∈ a.freeList ∧ d ≠ c)
    (hnodup : freeList.Nodup) (hk : k.Counts 1 0) :
    ({ a with size := size, freeList := freeList, nodes := Function.update a.nodes c k } : Allocator).Counts
      (.shared c :: refs) := by
  refine ⟨?_, ?_, ?_, hnodup, h.touched, h.asserted⟩
  · intro r hr
    rcases List.mem_cons.mp hr with rfl | hr
    · exact hc
    · exact lt_of_lt_of_le (h.live r hr) hsize
  · intro d hd
    rw [count_shared_cons_shared, count_weak_cons_shared]
    by_cases hdc : d = c
    · subst hdc
      rw [if_pos rfl, (by omega : refs.count (.shared d) = 0), (by omega : refs.count (.weak d) = 0)]
      simpa using hk
    · rw [if_neg (Ne.symm hdc)]
      simpa [hdc] using h.nodes d (hother d hd hdc)
  · intro d
    rw [hfree, h.free, count_shared_cons_shared, count_weak_cons_shared]
    by_cases hdc : d = c
    · simp [hdc]
    · rw [if_neg (Ne.symm hdc)]
      constructor
      · rintro ⟨⟨hd, hzero⟩, -⟩
        exact ⟨lt_of_lt_of_le hd hsize, hzero⟩
      · rintro ⟨hd, hzero⟩
        exact ⟨⟨hother d hd hdc, hzero⟩, hdc⟩

/-- The first SharedPtr to an object that is allocated. -/
theorem Allocator.Counts.allocateNode {a' : Allocator} (h : a.Counts refs) (hallocate : a.allocateNode = some (c, a')) :
    (a'.increaseSharedCount c).Counts (.shared c :: refs) := by
  unfold Allocator.allocateNode at hallocate
  cases hfree : a.freeList with
  | nil =>
      simp only [hfree, Option.ite_none_right_eq_some, Option.some.injEq, Prod.mk.injEq] at hallocate
      obtain ⟨-, rfl, rfl⟩ := hallocate
      have hunused : refs.count (.shared a.size) + refs.count (.weak a.size) = 0 := by
        by_contra hused
        have hmem : ∃ r ∈ refs, r.control = a.size := by
          by_cases hshared : refs.count (.shared a.size) = 0
          · exact ⟨.weak a.size, List.count_pos_iff.mp (by omega), rfl⟩
          · exact ⟨.shared a.size, List.count_pos_iff.mp (Nat.pos_of_ne_zero hshared), rfl⟩
        obtain ⟨r, hr, hsize⟩ := hmem
        exact absurd (h.live r hr) (by omega)
      have hfirst := h.first (a.size + 1) [] ⟨1, 1, 1, 0, 0⟩ hunused (by omega) (by omega) (by omega) (by simp [hfree])
        List.nodup_nil ⟨rfl, rfl, rfl, rfl⟩
      rw [increaseSharedCount_eq (by simp)]
      simpa [Allocator.modify, hfree] using hfirst
  | cons d rest =>
      simp only [hfree, Option.some.injEq, Prod.mk.injEq] at hallocate
      obtain ⟨rfl, rfl⟩ := hallocate
      have hmem : d ∈ a.freeList := by
        rw [hfree]
        exact List.mem_cons_self
      obtain ⟨hd, hunused⟩ := (h.free d).mp hmem
      have hnodup := h.nodup
      rw [hfree, List.nodup_cons] at hnodup
      have hnode := h.nodes d hd
      rw [(by omega : refs.count (.shared d) = 0), (by omega : refs.count (.weak d) = 0)] at hnode
      have hfirst := h.first a.size rest
        { a.nodes d with sharedPtrCount := (a.nodes d).sharedPtrCount + 1, weakPtrCount := (a.nodes d).weakPtrCount + 1,
                         allocated := (a.nodes d).allocated + 1 }
        hunused (le_refl _) hd (fun _ hlt _ => hlt)
        (by
          intro e
          rw [hfree, List.mem_cons]
          constructor
          · intro he
            exact ⟨.inr he, fun heq => hnodup.1 (heq ▸ he)⟩
          · rintro ⟨rfl | he, hne⟩
            · exact absurd rfl hne
            · exact he)
        hnodup.2
        ⟨by rw [toNat_add_one (by rw [hnode.sharedPtrCount]; decide), hnode.sharedPtrCount],
          by rw [toNat_add_one (by rw [hnode.weakPtrCount]; decide), hnode.weakPtrCount],
          congrArg (· + 1) hnode.destructed, congrArg (· + 1) hnode.deallocated⟩
      rw [increaseSharedCount_eq hnodup.1]
      simpa [Allocator.modify] using hfirst

/-- Before `Destruct`, the SharedPtr is as good as a WeakPtr. -/
theorem Allocator.Counts.decreaseSharedCount (h : a.Counts (.shared c :: refs)) :
    (a.decreaseSharedCount c).1.Counts (.weak c :: refs) := by
  have hr : Ref.shared c ∈ Ref.shared c :: refs := List.mem_cons_self
  have hc : c < a.size := h.live _ hr
  have hnode := h.nodes c hc
  rw [count_shared_cons_shared, count_weak_cons_shared, if_pos rfl] at hnode
  have hshared := hnode.sharedPtrCount
  have hweak := hnode.weakPtrCount
  have htouch : a.touch c = a := h.touch_eq hr
  have hsome : (a.nodes c).sharedPtrCount ≠ 0 := by
    rw [Ne, eq_zero_iff_toNat]
    omega
  have hless : ((a.nodes c).sharedPtrCount - 1).toNat = refs.count (.shared c) := by
    rw [toNat_sub_one (by omega), hshared]
    rfl
  have hkeep : ∀ f : SharedPtrControl → SharedPtrControl,
      (f (a.nodes c)).Counts (refs.count (.shared c)) (refs.count (.weak c) + 1) →
      (a.modify c f).Counts (.weak c :: refs) := by
    intro f hf
    refine h.modify ?_ ?_ ?_ ?_ ?_
    · intro r hr'
      rcases List.mem_cons.mp hr' with rfl | hr'
      · exact hc
      · exact h.live r (List.mem_cons_of_mem _ hr')
    · intro d hd
      simp [Ne.symm hd]
    · rwa [count_shared_cons_weak, count_weak_cons_weak, if_pos rfl]
    · simp
    · simp
  have hdestructed := hnode.destructed
  have hdeallocated := hnode.deallocated
  rw [if_neg (by omega)] at hdestructed hdeallocated
  unfold Allocator.decreaseSharedCount
  simp only [htouch, if_neg hsome]
  by_cases hlast : refs.count (.shared c) = 0
  · have hzero : (a.nodes c).sharedPtrCount - 1 = 0 := by rw [eq_zero_iff_toNat, hless, hlast]
    simp only [Allocator.modify, Function.update_self, hzero, if_true, Function.update_idem]
    refine hkeep (fun k => { k with sharedPtrCount := 0, destructed := k.destructed + 1 }) ?_
    refine ⟨by rw [hlast]; rfl, by show (a.nodes c).weakPtrCount.toNat = _; omega, ?_, ?_⟩
    · rw [if_pos hlast]
      exact hdestructed
    · rw [if_neg (by omega)]
      exact hdeallocated
  · have hmore : (a.nodes c).sharedPtrCount - 1 ≠ 0 := by
      rw [Ne, eq_zero_iff_toNat, hless]
      exact hlast
    simp only [Allocator.modify, Function.update_self, hmore, if_false]
    refine hkeep (fun k => { k with sharedPtrCount := k.sharedPtrCount - 1 }) ?_
    refine ⟨hless, by show (a.nodes c).weakPtrCount.toNat = _; omega, ?_, ?_⟩
    · rw [if_neg hlast]
      exact hdestructed
    · rw [if_neg (by omega)]
      exact hdeallocated

/-- A WeakPtr goes, or `Destruct` has returned. -/
theorem Allocator.Counts.decreaseWeakCount (h : a.Counts (.weak c :: refs)) : (a.decreaseWeakCount c).Counts refs := by
  have hr : Ref.weak c ∈ Ref.weak c :: refs := List.mem_cons_self
  have hc : c < a.size := h.live _ hr
  have hnode := h.nodes c hc
  rw [count_shared_cons_weak, count_weak_cons_weak, if_pos rfl] at hnode
  have hweak := hnode.weakPtrCount
  have htouch : a.touch c = a := h.touch_eq hr
  have hsome : (a.nodes c).weakPtrCount ≠ 0 := by
    rw [Ne, eq_zero_iff_toNat]
    omega
  have hless : ((a.nodes c).weakPtrCount - 1).toNat = refs.count (.shared c) + refs.count (.weak c) := by
    rw [toNat_sub_one (by omega), hweak]
    rfl
  have hlive : ∀ r ∈ refs, r.control < a.size := fun r hr' => h.live r (List.mem_cons_of_mem _ hr')
  have hdestructed := hnode.destructed
  have hdeallocated := hnode.deallocated
  rw [if_neg (by omega)] at hdeallocated
  unfold Allocator.decreaseWeakCount
  simp only [htouch, if_neg hsome]
  by_cases hlast : refs.count (.shared c) + refs.count (.weak c) = 0
  · have hzero : (a.nodes c).weakPtrCount - 1 = 0 := by rw [eq_zero_iff_toNat, hless, hlast]
    have hnotFree : c ∉ a.freeList := by
      rw [h.free]
      simp
    simp only [Allocator.modify, Allocator.deallocate, Function.update_self, hzero, if_true, Function.update_idem]
    refine ⟨hlive, ?_, ?_, ?_, h.touched, h.asserted⟩
    · intro d hd
      by_cases hdc : d = c
      · subst hdc
        simp only [Function.update_self]
        refine ⟨hnode.sharedPtrCount, hlast.symm, hdestructed, ?_⟩
        rw [if_pos hlast]
        exact hdeallocated
      · have hold := h.nodes d hd
        rw [count_shared_cons_weak, count_weak_cons_weak, if_neg (Ne.symm hdc)] at hold
        simpa [hdc] using hold
    · intro d
      have hfree := h.free d
      rw [count_shared_cons_weak, count_weak_cons_weak] at hfree
      rw [List.mem_cons, hfree]
      by_cases hdc : d = c
      · subst hdc
        simp [hc, hlast]
      · simp [hdc, Ne.symm hdc]
    · exact List.nodup_cons.mpr ⟨hnotFree, h.nodup⟩
  · have hmore : (a.nodes c).weakPtrCount - 1 ≠ 0 := by
      rw [Ne, eq_zero_iff_toNat, hless]
      exact hlast
    simp only [Allocator.modify, Function.update_self, hmore, if_false]
    refine h.modify hlive ?_ (f := fun k => { k with weakPtrCount := k.weakPtrCount - 1 }) ?_ ?_ (Nat.pos_of_ne_zero hlast)
    · intro d hd
      simp [Ne.symm hd]
    · refine ⟨hnode.sharedPtrCount, hless, hdestructed, ?_⟩
      rw [if_neg hlast]
      exact hdeallocated
    · simp

/-! ## Pointers that change -/

/-- The references are counted, with those that an operation holds. -/
def State.Counted (s : State) (held : List Ref) : Prop := s.allocator.Counts (s.refs ++ held)

variable {s s' : State} {held : List Ref} {i j : Nat} {p old : Pointer} {value : PtrValue}
  {other : Option Nat}

/-- Only the numbers of the references matter. -/
theorem counts_of_count_eq (h : a.Counts refs) (hcount : ∀ r, refs.count r = refs'.count r) :
    a.Counts refs' :=
  h.perm (List.perm_iff_count.mpr hcount)

theorem count_flatMap_set {pointers : List Pointer} (h : pointers[i]? = some old) (r : Ref) :
    ((pointers.set i p).flatMap Pointer.refs).count r + old.refs.count r =
      (pointers.flatMap Pointer.refs).count r + p.refs.count r := by
  induction pointers generalizing i with
  | nil => simp at h
  | cons first rest ih =>
      cases i with
      | zero =>
          simp only [List.getElem?_cons_zero, Option.some.injEq] at h
          subst h
          simp only [List.set_cons_zero, List.flatMap_cons, List.count_append]
          omega
      | succ i =>
          simp only [List.getElem?_cons_succ] at h
          simp only [List.set_cons_succ, List.flatMap_cons, List.count_append]
          have hrest := ih h
          omega

theorem State.Counted.set (i : Nat) (p old : Pointer) (h : s.Counted (p.refs ++ held)) (hold : s.pointers[i]? = some old) :
    (s.set i p).Counted (old.refs ++ held) := by
  refine counts_of_count_eq h ?_
  intro r
  have hset := @count_flatMap_set i p old s.pointers hold r
  simp only [State.refs, State.set, List.count_append]
  omega

theorem State.Counted.add (h : s.Counted (p.refs ++ held)) : (s.add p).Counted held := by
  refine counts_of_count_eq h ?_
  intro r
  simp only [State.refs, State.add, List.flatMap_append, List.flatMap_singleton, List.count_append]
  omega

/-- What holds of the nodes of a value that may be null. -/
def PtrValue.All (value : PtrValue) (q : Nat → Prop) : Prop := ∀ c, value.control = some c → q c

/-- The node can count one more. -/
def State.Fits (s : State) (value : PtrValue) : Prop := value.All fun c => s.references c + 1 < 2 ^ 16

theorem references_eq (s : State) (c : Nat) : s.references c = s.refs.count (.shared c) + s.refs.count (.weak c) := by
  rw [count_shared_refs, count_weak_refs, State.references, Nat.add_assoc]

theorem State.Counted.increaseShared (h : s.Counted []) (hshared : value.All fun c => 0 < s.sharedPtrs c)
    (hfits : s.Fits value) : (s.increaseShared value).Counted value.sharedRefs := by
  unfold State.Counted at h
  rw [List.append_nil] at h
  unfold State.increaseShared PtrValue.sharedRefs
  cases hcontrol : value.control with
  | none => simpa [State.Counted] using h
  | some c =>
      have hmem : Ref.shared c ∈ s.refs := by
        rw [← List.count_pos_iff, count_shared_refs]
        exact hshared c hcontrol
      have hmore : s.references c + 1 < 2 ^ 16 := hfits c hcontrol
      rw [references_eq] at hmore
      exact (h.increaseSharedCount hmem hmore).perm (List.perm_append_singleton _ _).symm

theorem State.Counted.increaseWeak (h : s.Counted []) (hreferred : value.All fun c => 0 < s.references c)
    (hfits : s.Fits value) : (s.increaseWeak value).Counted value.weakRefs := by
  unfold State.Counted at h
  rw [List.append_nil] at h
  unfold State.increaseWeak PtrValue.weakRefs
  cases hcontrol : value.control with
  | none => simpa [State.Counted] using h
  | some c =>
      have hpos : 0 < s.references c := hreferred c hcontrol
      have hmore : s.references c + 1 < 2 ^ 16 := hfits c hcontrol
      rw [references_eq] at hpos hmore
      have hmem : ∃ r ∈ s.refs, r.control = c := by
        by_cases hzero : s.refs.count (.shared c) = 0
        · exact ⟨.weak c, List.count_pos_iff.mp (by omega), rfl⟩
        · exact ⟨.shared c, List.count_pos_iff.mp (Nat.pos_of_ne_zero hzero), rfl⟩
      obtain ⟨r, hr, rfl⟩ := hmem
      exact (h.increaseWeakCount hr hmore).perm (List.perm_append_singleton _ _).symm

theorem State.Counted.decreaseWeak (h : s.Counted value.weakRefs) : (s.decreaseWeak value).Counted [] := by
  unfold State.Counted PtrValue.weakRefs at h
  unfold State.Counted State.decreaseWeak
  cases hcontrol : value.control with
  | none => simpa [hcontrol] using h
  | some c =>
      rw [hcontrol] at h
      rw [List.append_nil]
      exact (h.perm (List.perm_append_singleton _ _)).decreaseWeakCount

/-- The reference of a `Destruct` that is called. -/
theorem State.Counted.destruct (h : s.Counted [.weak c]) :
    ({ s with destructing := ⟨c, other⟩ :: s.destructing } : State).Counted [] := by
  refine counts_of_count_eq h ?_
  intro r
  simp only [State.refs, List.map_cons, List.count_append, List.append_nil, List.count_cons, List.count_nil]
  omega

theorem State.Counted.decreaseSharedCount (h : s.Counted [.shared c]) :
    ({ s with allocator := (s.allocator.decreaseSharedCount c).1 } : State).Counted [.weak c] :=
  (Allocator.Counts.decreaseSharedCount (Allocator.Counts.perm h (List.perm_append_singleton _ _))).perm
    (List.perm_append_singleton _ _).symm

theorem State.Counted.decreaseWeakCount (h : s.Counted [.weak c]) :
    ({ s with allocator := s.allocator.decreaseWeakCount c } : State).Counted [] := by
  unfold State.Counted
  rw [List.append_nil]
  exact (Allocator.Counts.perm h (List.perm_append_singleton _ _)).decreaseWeakCount

theorem State.Counted.decreaseShared (h : s.Counted value.sharedRefs) : (s.decreaseShared value).Counted [] := by
  unfold PtrValue.sharedRefs at h
  unfold State.decreaseShared
  cases hcontrol : value.control with
  | none => simpa [hcontrol] using h
  | some c =>
      rw [hcontrol] at h
      have hless := State.Counted.decreaseSharedCount h
      cases hdecrease : s.allocator.decreaseSharedCount c with
      | mk a destructs =>
          rw [hdecrease] at hless
          simp only [hdecrease]
          cases destructs with
          | true => exact hless.destruct
          | false => exact hless.decreaseWeakCount

/-! ## Reset -/

theorem sharedAt_eq_some : s.sharedAt i = some value ↔ s.pointers[i]? = some (.shared value) := by
  unfold State.sharedAt
  split <;> simp_all

theorem weakAt_eq_some : s.weakAt i = some value ↔ s.pointers[i]? = some (.weak value) := by
  unfold State.weakAt
  split <;> simp_all

@[simp] theorem pointers_increaseShared (s : State) (value : PtrValue) : (s.increaseShared value).pointers = s.pointers := by
  unfold State.increaseShared
  split <;> rfl

@[simp] theorem pointers_increaseWeak (s : State) (value : PtrValue) : (s.increaseWeak value).pointers = s.pointers := by
  unfold State.increaseWeak
  split <;> rfl

@[simp] theorem pointers_decreaseWeak (s : State) (value : PtrValue) : (s.decreaseWeak value).pointers = s.pointers := by
  unfold State.decreaseWeak
  split <;> rfl

@[simp] theorem pointers_decreaseShared (s : State) (value : PtrValue) : (s.decreaseShared value).pointers = s.pointers := by
  unfold State.decreaseShared
  split
  · split <;> rfl
  · rfl

/-- The pointers and the nodes are changed apart. -/
theorem increaseShared_set : (s.set i p).increaseShared value = (s.increaseShared value).set i p := by
  unfold State.increaseShared
  cases value.control <;> rfl

theorem increaseShared_add : (s.add p).increaseShared value = (s.increaseShared value).add p := by
  unfold State.increaseShared
  cases value.control <;> rfl

theorem increaseWeak_set : (s.set i p).increaseWeak value = (s.increaseWeak value).set i p := by
  unfold State.increaseWeak
  cases value.control <;> rfl

theorem increaseWeak_add : (s.add p).increaseWeak value = (s.increaseWeak value).add p := by
  unfold State.increaseWeak
  cases value.control <;> rfl

theorem decreaseWeak_set : (s.set i p).decreaseWeak value = (s.decreaseWeak value).set i p := by
  unfold State.decreaseWeak
  cases value.control <;> rfl

theorem all_null (q : Nat → Prop) : PtrValue.null.All q := by nofun

theorem all_shared_of_sharedAt (h : s.sharedAt j = some value) : value.All fun c => 0 < s.sharedPtrs c := by
  intro c hc
  refine List.count_pos_iff.mpr (List.mem_flatMap.mpr ⟨.shared value, List.mem_of_getElem? (sharedAt_eq_some.mp h), ?_⟩)
  simp [Pointer.refs, PtrValue.sharedRefs, hc]

theorem all_referred_of_sharedAt (h : s.sharedAt j = some value) : value.All fun c => 0 < s.references c := by
  intro c hc
  have hpos := all_shared_of_sharedAt h c hc
  unfold State.references
  omega

theorem all_referred_of_weakAt (h : s.weakAt j = some value) : value.All fun c => 0 < s.references c := by
  intro c hc
  have hpos : 0 < s.weakPtrs c := by
    refine List.count_pos_iff.mpr (List.mem_flatMap.mpr ⟨.weak value, List.mem_of_getElem? (weakAt_eq_some.mp h), ?_⟩)
    simp [Pointer.refs, PtrValue.weakRefs, hc]
  unfold State.references
  omega

section

variable (h : s.Counted [])
include h

theorem State.Counted.constructShared (hshared : value.All fun c => 0 < s.sharedPtrs c)
    (hfits : s.Fits value) : (s.constructShared value).Counted [] := by
  unfold State.constructShared
  rw [increaseShared_add]
  refine State.Counted.add ?_
  rw [List.append_nil]
  exact h.increaseShared hshared hfits

theorem State.Counted.constructCast (object : Nat) (hvalue : s.sharedAt j = some value)
    (hfits : s.Fits value) : (s.constructShared ⟨value.control, object⟩).Counted [] := by
  refine h.constructShared ?_ ?_
  · exact fun c hc => all_shared_of_sharedAt hvalue c hc
  · exact fun c hc => hfits c hc

theorem State.Counted.constructWeak (hreferred : value.All fun c => 0 < s.references c)
    (hfits : s.Fits value) : (s.constructWeak value).Counted [] := by
  unfold State.constructWeak
  rw [increaseWeak_add]
  refine State.Counted.add ?_
  rw [List.append_nil]
  exact h.increaseWeak hreferred hfits

theorem State.Counted.addNull (hp : p.refs = []) : (s.add p).Counted [] := by
  refine State.Counted.add ?_
  rwa [hp]

/-- A SharedPtr has a new value, and its old one is still counted. -/
theorem State.Counted.setShared {old : PtrValue} (hold : s.sharedAt i = some old)
    (hshared : value.All fun c => 0 < s.sharedPtrs c) (hfits : s.Fits value) :
    ((s.set i (.shared value)).increaseShared value).Counted old.sharedRefs := by
  rw [increaseShared_set]
  have hmore : (s.increaseShared value).Counted ((Pointer.shared value).refs ++ []) := by
    rw [List.append_nil]
    exact h.increaseShared hshared hfits
  have hset := State.Counted.set i (.shared value) (.shared old) hmore
    (by rw [pointers_increaseShared]; exact sharedAt_eq_some.mp hold)
  rwa [List.append_nil] at hset

theorem State.Counted.resetShared (hreset : s.resetShared i value = some s')
    (hshared : value.All fun c => 0 < s.sharedPtrs c) (hfits : s.Fits value) : s'.Counted [] := by
  simp only [State.resetShared, Option.bind_eq_bind, Option.bind_eq_some_iff, Option.pure_def, Option.some.injEq] at hreset
  obtain ⟨old, hold, rfl⟩ := hreset
  exact (h.setShared hold hshared hfits).decreaseShared

theorem State.Counted.resetSharedNull (hreset : s.resetShared i .null = some s') : s'.Counted [] :=
  h.resetShared hreset (all_null _) (all_null _)

theorem State.Counted.resetOther (hreset : s.resetOther other = some s') : s'.Counted [] := by
  cases other with
  | none =>
      cases hreset
      exact h
  | some j => exact h.resetSharedNull hreset

theorem State.Counted.moveShared (hmove : s.moveShared i j = some s')
    (hfits : ∀ value, s.sharedAt j = some value → s.Fits value) : s'.Counted [] := by
  simp only [State.moveShared, Option.bind_eq_bind, Option.bind_eq_some_iff] at hmove
  obtain ⟨value, hvalue, old, hold, hmove⟩ := hmove
  have hset := h.setShared hold (all_shared_of_sharedAt hvalue) (hfits value hvalue)
  unfold PtrValue.sharedRefs at hset
  cases hcontrol : old.control with
  | none =>
      simp only [hcontrol] at hmove hset
      exact hset.resetOther hmove
  | some c =>
      simp only [hcontrol] at hmove hset
      have hless := hset.decreaseSharedCount
      cases hdecrease : ((s.set i (.shared value)).increaseShared value).allocator.decreaseSharedCount c with
      | mk a destructs =>
          rw [hdecrease] at hless
          simp only [hdecrease] at hmove
          cases destructs with
          | true =>
              cases hmove
              exact hless.destruct
          | false => exact hless.decreaseWeakCount.resetOther hmove

end

theorem references_decreaseWeak (s : State) (value : PtrValue) (c : Nat) :
    (s.decreaseWeak value).references c = s.references c := by
  unfold State.decreaseWeak
  split <;> rfl

/-- The state without a WeakPtr. -/
def State.beside (s : State) (i : Nat) : State := s.set i (.weak .null)

theorem State.Counted.resetWeak (h : s.Counted []) (hreset : s.resetWeak i value = some s')
    (hreferred : value.All fun c => 0 < (s.beside i).references c) (hfits : (s.beside i).Fits value) : s'.Counted [] := by
  simp only [State.resetWeak, Option.bind_eq_bind, Option.bind_eq_some_iff, Option.pure_def, Option.some.injEq] at hreset
  obtain ⟨old, hold, rfl⟩ := hreset
  have hat := weakAt_eq_some.mp hold
  have hbeside : (s.beside i).Counted old.weakRefs := by
    have hset := State.Counted.set i (.weak .null) (.weak old) (h : s.Counted ([] ++ [])) hat
    rwa [List.append_nil] at hset
  have hdecreased := hbeside.decreaseWeak
  have hincreased : (((s.beside i).decreaseWeak old).increaseWeak value).Counted value.weakRefs :=
    hdecreased.increaseWeak (by simpa [references_decreaseWeak] using hreferred)
      (by simpa [State.Fits, references_decreaseWeak] using hfits)
  -- the pointer is null until its new value is counted
  have hset := State.Counted.set i (.weak value) (.weak .null) (by rw [List.append_nil]; exact hincreased) (by
      have hlength : i < s.pointers.length := (List.getElem?_eq_some_iff.mp hat).1
      simp [State.beside, State.set, hlength])
  have hsame : (((s.beside i).decreaseWeak old).increaseWeak value).set i (.weak value) =
      ((s.decreaseWeak old).set i (.weak value)).increaseWeak value := by
    rw [State.beside, decreaseWeak_set, increaseWeak_set, increaseWeak_set]
    simp [State.set]
  rw [hsame] at hset
  exact hset

theorem State.Counted.resetWeakNull (h : s.Counted []) (hreset : s.resetWeak i .null = some s') : s'.Counted [] :=
  h.resetWeak hreset (all_null _) (all_null _)

/-! ## Operations -/

/-- What an operation must not do. A SharedPtr that is moved to itself loses its object; one that is assigned from a
WeakPtr revives an object that has been destructed; and a WeakPtr lets go of its old object before it refers to the
new one, also when they are the same. -/
def Operation.Safe (s : State) : Operation → Prop
  | .sharedCopy other | .sharedMove other | .sharedCast _ other | .sharedCastMove _ other | .weakFromShared other =>
      ∀ value, s.sharedAt other = some value → s.Fits value
  | .sharedFromWeak other => ∀ value, s.weakAt other = some value → s.lockable value = true → s.Fits value
  | .weakCopy other | .weakMove other => ∀ value, s.weakAt other = some value → s.Fits value
  | .sharedAssign this other => this ≠ other → ∀ value, s.sharedAt other = some value → s.Fits value
  | .sharedMoveAssign this other =>
      (this = other → s.sharedAt this = some .null) ∧ ∀ value, s.sharedAt other = some value → s.Fits value
  | .sharedAssignWeak _ other => ∀ value, s.weakAt other = some value →
      s.Fits value ∧ value.All fun c => 0 < s.sharedPtrs c
  | .weakAssign this other => ∀ value, s.weakAt other = some value →
      (s.beside this).Fits value ∧ (this = other → value.All fun c => 0 < (s.beside this).references c)
  | .weakMoveAssign this other => (this = other → s.weakAt this = some .null) ∧
      ∀ value, s.weakAt other = some value → (s.beside this).Fits value
  | .weakAssignShared this other => ∀ value, s.sharedAt other = some value → (s.beside this).Fits value
  | _ => True

theorem all_referred_beside_of_weakAt (h : s.weakAt j = some value) (hne : i ≠ j) :
    value.All fun c => 0 < (s.beside i).references c := by
  refine all_referred_of_weakAt (j := j) ?_
  rw [weakAt_eq_some] at h ⊢
  rwa [State.beside, State.set, List.getElem?_set_ne hne]

theorem all_referred_beside_of_sharedAt (h : s.sharedAt j = some value) (hweak : (s.weakAt i).isSome = true) :
    value.All fun c => 0 < (s.beside i).references c := by
  have hne : i ≠ j := by
    rintro rfl
    obtain ⟨other, hother⟩ := Option.isSome_iff_exists.mp hweak
    have hsame := (sharedAt_eq_some.mp h).symm.trans (weakAt_eq_some.mp hother)
    cases hsame
  refine all_referred_of_sharedAt (j := j) ?_
  rw [sharedAt_eq_some] at h ⊢
  rwa [State.beside, State.set, List.getElem?_set_ne hne]

theorem isSome_weakAt_of_resetWeak (h : s.resetWeak i value = some s') : (s.weakAt i).isSome = true := by
  simp only [State.resetWeak, Option.bind_eq_bind, Option.bind_eq_some_iff] at h
  obtain ⟨old, hold, -⟩ := h
  rw [hold]
  rfl

theorem getElem?_resetShared (h : s.resetShared i value = some s') : s'.pointers[i]? = some (.shared value) := by
  simp only [State.resetShared, Option.bind_eq_bind, Option.bind_eq_some_iff, Option.pure_def, Option.some.injEq] at h
  obtain ⟨old, hold, rfl⟩ := h
  have hlength := (List.getElem?_eq_some_iff.mp (sharedAt_eq_some.mp hold)).1
  simp [State.set, hlength]

theorem getElem?_resetWeak (h : s.resetWeak i value = some s') : s'.pointers[i]? = some (.weak value) := by
  simp only [State.resetWeak, Option.bind_eq_bind, Option.bind_eq_some_iff, Option.pure_def, Option.some.injEq] at h
  obtain ⟨old, hold, rfl⟩ := h
  have hlength := (List.getElem?_eq_some_iff.mp (weakAt_eq_some.mp hold)).1
  simp [State.set, hlength]

/-- A pointer that refers to nothing is destroyed. -/
theorem State.Counted.destroyed {old : Pointer} (h : s.Counted []) (hold : s.pointers[i]? = some old) (hnone : old.refs = []) :
    (s.set i .destroyed).Counted [] := by
  have hset := State.Counted.set i .destroyed old (h : s.Counted ([] ++ [])) hold
  rwa [hnone] at hset

theorem State.Counted.allocate (h : s.Counted []) (object : Nat) {a : Allocator}
    (hallocate : s.allocator.allocateNode = some (c, a)) :
    (State.constructShared { s with allocator := a } ⟨some c, object⟩).Counted [] := by
  unfold State.constructShared
  rw [increaseShared_add]
  refine State.Counted.add ?_
  unfold State.Counted at h
  rw [List.append_nil] at h ⊢
  exact (h.allocateNode hallocate).perm (List.perm_append_singleton _ _).symm

/-- `Destruct` returns. -/
theorem State.Counted.destructReturned {rest : List Destructing} (h : s.Counted [])
    (hdestructing : s.destructing = ⟨c, other⟩ :: rest) :
    ({ s with allocator := s.allocator.decreaseWeakCount c, destructing := rest } : State).Counted [] := by
  refine @State.Counted.decreaseWeakCount c { s with destructing := rest } ?_
  refine counts_of_count_eq h ?_
  intro r
  simp only [State.refs, hdestructing, List.map_cons, List.count_append, List.append_nil, List.count_cons, List.count_nil]
  omega

theorem touchControl_eq (h : s.Counted []) (hvalue : s.weakAt j = some value) : s.touchControl value = s := by
  unfold State.Counted at h
  rw [List.append_nil] at h
  unfold State.touchControl
  cases hcontrol : value.control with
  | none => rfl
  | some c =>
      have hmem : Ref.weak c ∈ s.refs := by
        refine List.mem_append_left _ (List.mem_flatMap.mpr ⟨.weak value, List.mem_of_getElem? (weakAt_eq_some.mp hvalue), ?_⟩)
        simp [Pointer.refs, PtrValue.weakRefs, hcontrol]
      have htouch : s.allocator.touch c = s.allocator := h.touch_eq hmem
      simp only [htouch]

/-- A WeakPtr can be locked exactly when its object has a SharedPtr. -/
theorem lockable_iff (h : s.Counted []) (hvalue : s.weakAt j = some value) :
    s.lockable value = true ↔ ∃ c, value.control = some c ∧ 0 < s.sharedPtrs c := by
  unfold State.Counted at h
  rw [List.append_nil] at h
  unfold State.lockable
  cases hcontrol : value.control with
  | none => simp
  | some c =>
      have hpos := all_referred_of_weakAt hvalue c hcontrol
      have hmem : Ref.weak c ∈ s.refs := by
        refine List.mem_append_left _ (List.mem_flatMap.mpr ⟨.weak value, List.mem_of_getElem? (weakAt_eq_some.mp hvalue), ?_⟩)
        simp [Pointer.refs, PtrValue.weakRefs, hcontrol]
      have hcount := (h.nodes c (h.live _ hmem)).sharedPtrCount
      rw [count_shared_refs] at hcount
      have hzero := eq_zero_iff_toNat (s.allocator.nodes c).sharedPtrCount
      simp only [Option.some.injEq, exists_eq_left', ne_eq, decide_not, Bool.not_eq_true', decide_eq_false_iff_not, hzero]
      omega

/-- The nodes count as long as the operations are safe. -/
theorem State.Counted.step {op : Operation} (h : s.Counted []) (hsafe : op.Safe s) (hstep : step s op = some s') :
    s'.Counted [] := by
  cases op <;>
    simp only [SharedPtr.step, Option.bind_eq_bind, Option.bind_eq_some_iff, Option.pure_def, Option.some.injEq] at hstep
  case allocate object =>
    cases hallocate : s.allocator.allocateNode with
    | none =>
        simp only [hallocate, Option.some.injEq] at hstep
        subst hstep
        exact h.addNull rfl
    | some found =>
        simp only [hallocate, Option.some.injEq] at hstep
        subst hstep
        exact h.allocate object hallocate
  case sharedNull =>
    subst hstep
    exact h.addNull rfl
  case sharedCopy other =>
    obtain ⟨value, hvalue, rfl⟩ := hstep
    exact h.constructShared (all_shared_of_sharedAt hvalue) (hsafe value hvalue)
  case sharedMove other =>
    obtain ⟨value, hvalue, hreset⟩ := hstep
    exact (h.constructShared (all_shared_of_sharedAt hvalue) (hsafe value hvalue)).resetSharedNull hreset
  case sharedFromWeak other =>
    obtain ⟨value, hvalue, rfl⟩ := hstep
    rw [touchControl_eq h hvalue]
    split
    case isTrue hlock =>
      refine h.constructShared ?_ (hsafe value hvalue hlock)
      intro c hc
      obtain ⟨d, hd, hshared⟩ := (lockable_iff h hvalue).mp hlock
      cases hc.symm.trans hd
      exact hshared
    case isFalse => exact h.addNull rfl
  case sharedCast object other =>
    obtain ⟨value, hvalue, rfl⟩ := hstep
    exact h.constructCast object hvalue (hsafe value hvalue)
  case sharedCastMove object other =>
    obtain ⟨value, hvalue, hreset⟩ := hstep
    exact (h.constructCast object hvalue (hsafe value hvalue)).resetSharedNull hreset
  case sharedAssign this other =>
    obtain ⟨value, hvalue, hassign⟩ := hstep
    split at hassign
    case isTrue hne => exact h.resetShared hassign (all_shared_of_sharedAt hvalue) (hsafe hne value hvalue)
    case isFalse =>
      cases hassign
      exact h
  case sharedMoveAssign this other => exact h.moveShared hstep hsafe.2
  case sharedAssignWeak this other =>
    obtain ⟨value, hvalue, hreset⟩ := hstep
    exact h.resetShared hreset (hsafe value hvalue).2 (hsafe value hvalue).1
  case sharedAssignNull this => exact h.resetSharedNull hstep
  case sharedDestroy this =>
    obtain ⟨s₁, hreset, rfl⟩ := hstep
    exact (h.resetSharedNull hreset).destroyed (getElem?_resetShared hreset) rfl
  case weakNull =>
    subst hstep
    exact h.addNull rfl
  case weakCopy other =>
    obtain ⟨value, hvalue, rfl⟩ := hstep
    exact h.constructWeak (all_referred_of_weakAt hvalue) (hsafe value hvalue)
  case weakMove other =>
    obtain ⟨value, hvalue, hreset⟩ := hstep
    exact (h.constructWeak (all_referred_of_weakAt hvalue) (hsafe value hvalue)).resetWeakNull hreset
  case weakFromShared other =>
    obtain ⟨value, hvalue, rfl⟩ := hstep
    exact h.constructWeak (all_referred_of_sharedAt hvalue) (hsafe value hvalue)
  case weakAssign this other =>
    obtain ⟨value, hvalue, hreset⟩ := hstep
    obtain ⟨hfits, hself⟩ := hsafe value hvalue
    refine h.resetWeak hreset ?_ hfits
    by_cases hsame : this = other
    · exact hself hsame
    · exact all_referred_beside_of_weakAt hvalue hsame
  case weakMoveAssign this other =>
    obtain ⟨value, hvalue, s₁, hreset, hother⟩ := hstep
    refine (h.resetWeak hreset ?_ (hsafe.2 value hvalue)).resetWeakNull hother
    by_cases hsame : this = other
    · subst hsame
      cases hvalue.symm.trans (hsafe.1 rfl)
      exact all_null _
    · exact all_referred_beside_of_weakAt hvalue hsame
  case weakAssignShared this other =>
    obtain ⟨value, hvalue, hreset⟩ := hstep
    exact h.resetWeak hreset (all_referred_beside_of_sharedAt hvalue (isSome_weakAt_of_resetWeak hreset))
      (hsafe value hvalue)
  case weakDestroy this =>
    obtain ⟨s₁, hreset, rfl⟩ := hstep
    exact (h.resetWeakNull hreset).destroyed (getElem?_resetWeak hreset) rfl
  case destructReturns =>
    cases hdestructing : s.destructing with
    | nil => simp [hdestructing] at hstep
    | cons first rest =>
        simp only [hdestructing] at hstep
        exact (h.destructReturned hdestructing).resetOther hstep

/-! ## Runs -/

/-- **References are counted.** An object has been destructed once for every time it was allocated, but for the last
time while it has SharedPtrs; and deallocated likewise, while anything refers to it or its destructor is running. No
node was used after its `Deallocate`. -/
structure State.CountsReferences (s : State) : Prop where
  destruct : ∀ c < s.allocator.size,
    (s.allocator.nodes c).destructed + (if 0 < s.sharedPtrs c then 1 else 0) = (s.allocator.nodes c).allocated
  deallocate : ∀ c < s.allocator.size,
    (s.allocator.nodes c).deallocated + (if 0 < s.references c then 1 else 0) = (s.allocator.nodes c).allocated
  touched : s.allocator.touched = false
  asserted : s.allocator.asserted = false

/-- The object has not been destructed. -/
def State.alive (s : State) (value : PtrValue) : Bool :=
  match value.control with
  | some c => 0 < s.sharedPtrs c
  | none => false

/-- A SharedPtr that is made of a WeakPtr is null exactly when the object has been destructed, and a pointer that is
assigned to itself keeps its object. -/
def Operation.Keeps (s s' : State) : Operation → Prop
  | .sharedFromWeak other => ∀ value, s.weakAt other = some value →
      (s'.sharedAt s.pointers.length).map PtrValue.control = some (if s.alive value then value.control else none)
  | .sharedAssignWeak this other => ∀ value, s.weakAt other = some value →
      (s'.sharedAt this).map PtrValue.control = some (if s.alive value then value.control else none)
  | .sharedAssign this other | .sharedMoveAssign this other | .weakAssign this other | .weakMoveAssign this other =>
      this = other → s'.pointers[this]? = s.pointers[this]?
  | _ => True

theorem State.Counted.countsReferences (h : s.Counted []) : s.CountsReferences := by
  unfold State.Counted at h
  rw [List.append_nil] at h
  refine ⟨?_, ?_, h.touched, h.asserted⟩
  · intro c hc
    have hdestructed := (h.nodes c hc).destructed
    rw [count_shared_refs] at hdestructed
    rw [← hdestructed]
    by_cases hzero : s.sharedPtrs c = 0 <;> simp [hzero, Nat.pos_iff_ne_zero]
  · intro c hc
    have hdeallocated := (h.nodes c hc).deallocated
    rw [← references_eq] at hdeallocated
    rw [← hdeallocated]
    by_cases hzero : s.references c = 0 <;> simp [hzero, Nat.pos_iff_ne_zero]

theorem lockable_eq_alive (h : s.Counted []) (hvalue : s.weakAt j = some value) : s.lockable value = s.alive value := by
  rw [Bool.eq_iff_iff, lockable_iff h hvalue]
  unfold State.alive
  cases value.control <;> simp

theorem State.Counted.keeps {op : Operation} (h : s.Counted []) (hsafe : op.Safe s) (hstep : SharedPtr.step s op = some s') :
    op.Keeps s s' := by
  cases op <;> try trivial
  all_goals
    simp only [SharedPtr.step, Option.bind_eq_bind, Option.bind_eq_some_iff, Option.pure_def, Option.some.injEq] at hstep
  case sharedFromWeak other =>
    obtain ⟨value, hvalue, rfl⟩ := hstep
    intro value' hvalue'
    cases hvalue.symm.trans hvalue'
    rw [touchControl_eq h hvalue, lockable_eq_alive h hvalue]
    split <;> simp [State.sharedAt, State.constructShared, State.add, PtrValue.null]
  case sharedAssign this other =>
    obtain ⟨value, hvalue, hassign⟩ := hstep
    rintro rfl
    simp only [ne_eq, not_true_eq_false, if_false, Option.some.injEq] at hassign
    rw [hassign]
  case sharedMoveAssign this other =>
    rintro rfl
    have hnull := hsafe.1 rfl
    simp only [State.moveShared, hnull, Option.bind_eq_bind, Option.bind_some, PtrValue.null] at hstep
    rw [getElem?_resetShared hstep, sharedAt_eq_some.mp hnull]
  case sharedAssignWeak this other =>
    obtain ⟨value, hvalue, hreset⟩ := hstep
    intro value' hvalue'
    cases hvalue.symm.trans hvalue'
    have halive := (hsafe value hvalue).2
    rw [sharedAt_eq_some.mpr (getElem?_resetShared hreset)]
    unfold State.alive
    cases hcontrol : value.control with
    | none => simp [hcontrol]
    | some c =>
        have hpos : 0 < s.sharedPtrs c := halive c hcontrol
        simp [hcontrol, hpos]
  case weakAssign this other =>
    obtain ⟨value, hvalue, hreset⟩ := hstep
    rintro rfl
    rw [getElem?_resetWeak hreset, weakAt_eq_some.mp hvalue]
  case weakMoveAssign this other =>
    obtain ⟨value, hvalue, s₁, hreset, hother⟩ := hstep
    rintro rfl
    rw [getElem?_resetWeak hother, weakAt_eq_some.mp (hsafe.1 rfl)]

/-- No objects and no pointers. -/
def State.initial (maxSize : Nat) : State := { allocator := { maxSize := maxSize } }

theorem counted_initial (maxSize : Nat) : (State.initial maxSize).Counted [] := by
  refine ⟨?_, ?_, ?_, List.nodup_nil, rfl, rfl⟩
  · nofun
  · nofun
  · intro c
    simp [State.initial]

/-- **SharedPtr and WeakPtr count references** in every run of safe operations. -/
theorem countsReferences_of_run {maxSize : Nat} {ops : List Operation}
    (hsafe : Along step (fun s op => op.Safe s) (State.initial maxSize) ops)
    (hrun : run step (State.initial maxSize) ops = some s) :
    s.CountsReferences ∧ ∀ op s', op.Safe s → step s op = some s' → op.Keeps s s' := by
  have hcounted : s.Counted [] := run_invariant_along (fun s => s.Counted [])
    (fun _ _ _ hs hop hstep => hs.step hop hstep) hsafe hrun (counted_initial maxSize)
  exact ⟨hcounted.countsReferences, fun op s' hop hstep => hcounted.keeps hop hstep⟩

/-- The last SharedPtr goes while there is a WeakPtr. -/
def expiring : List Operation := [.allocate 8, .weakFromShared 0, .sharedDestroy 0, .destructReturns]

theorem countsReferences_of_run_expiring : ∃ s, run step (State.initial 1) expiring = some s ∧ s.CountsReferences ∧
    ∀ op s', op.Safe s → step s op = some s' → op.Keeps s s' := by
  refine ⟨_, rfl, @countsReferences_of_run _ 1 expiring ?_ rfl⟩
  refine along_cons rfl trivial (along_cons rfl ?_ (along_cons rfl trivial (along_cons rfl trivial trivial)))
  intro value hvalue c hc
  cases hvalue
  cases hc
  decide

/-- An object is revived and destructed again; a SharedPtr that is moved to itself loses its object; and a WeakPtr
that is assigned to itself uses its node after its `Deallocate`. -/
theorem not_countsReferences_of_run :
    (∃ s, run step (State.initial 1) (expiring ++ [.sharedNull, .sharedAssignWeak 2 1, .sharedDestroy 2]) = some s ∧
      ¬ s.CountsReferences) ∧
    (∃ s s', run step (State.initial 1) [.allocate 8] = some s ∧ step s (.sharedMoveAssign 0 0) = some s' ∧
      ¬ (Operation.sharedMoveAssign 0 0).Keeps s s') ∧
    ∃ s, run step (State.initial 1) (expiring ++ [.weakAssign 1 1]) = some s ∧ ¬ s.CountsReferences := by
  refine ⟨⟨_, rfl, ?_⟩, ⟨_, _, rfl, rfl, ?_⟩, ⟨_, rfl, ?_⟩⟩
  · intro h
    exact absurd (h.destruct 0 (by decide)) (by decide)
  · intro h
    exact absurd (h rfl) (by decide)
  · intro h
    exact absurd h.touched (by decide)

end EmbeddedInfra.SharedPtr
