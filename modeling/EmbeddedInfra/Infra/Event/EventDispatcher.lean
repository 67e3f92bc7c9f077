import Mathlib.Algebra.Order.BigOperators.Group.Finset
import EmbeddedInfra.Lib.EventSystem

set_option autoImplicit false

/-! # The event dispatcher

`infra::EventDispatcherWorkerImpl` and `infra::EventDispatcherWithWeakPtrWorker`. `Schedule` claims a slot of a ring by
a compare-exchange of the push index, fills it and then sets its flag; the reader executes the action in the slot at the
pop index when its flag is set, and clears the slot. A step is one access of an index, a slot or a flag. The calls of
`Schedule` take their steps in any order, and with the reader in between.
-/

namespace EmbeddedInfra.EventDispatcher

open EventSystem Function

variable {α : Type}

/-- An action, with the object of its WeakPtr. -/
structure Action (α : Type) where
  function : α
  object : Option Nat := none
deriving DecidableEq, Repr

structure Slot (α : Type) where
  first : Option (Action α) := none
  second : Bool := false
deriving DecidableEq, Repr

/-- Where a call of `Schedule` is, with its local variables: what it does next is the access that is named. -/
inductive Position where
  /-- the load of the push index -/
  | load
  | compareExchange (pushIndex : Nat)
  | storeAction (pushIndex : Nat)
  | assertFlag (pushIndex : Nat)
  | storeFlag (pushIndex : Nat)
  /-- the load of the pop index, and the comparison of the capacity with the least one -/
  | loadPopIndex (pushIndex : Nat)
  | compareMinCapacity (capacity : Nat)
  | copyMinCapacity
  | storeMinCapacity (value : Nat)
  | assertMinCapacity
  | returned
deriving DecidableEq, Repr

structure Call (α : Type) where
  action : Action α
  position : Position := .load
deriving DecidableEq, Repr

/-- Where `ExecuteAllActions` is. -/
inductive Reader where
  | testFlag
  | execute
  | clearAction
  | clearFlag
  | advance
deriving DecidableEq, Repr

/-- What has happened: an action was executed, and its function invoked or not; or an object was destructed. -/
inductive Entry (α : Type) where
  | execute (action : Option (Action α)) (invoked : Bool)
  | destruct (object : Nat)
deriving DecidableEq, Repr

/-- `calls` are the first `called` ones. The calls that have claimed a slot are in `claims`, in that order, and the
first `popped` of their slots have been passed by the pop index. -/
structure Dispatcher (α : Type) where
  size : Nat
  slots : Nat → Slot α := fun _ => {}
  pushIndex : Nat := 0
  popIndex : Nat := 0
  minCapacity : Nat
  calls : Nat → Option (Call α) := fun _ => none
  called : Nat := 0
  reader : Reader := .testFlag
  alive : Nat → Bool := fun _ => true
  claims : List Nat := []
  popped : Nat := 0
  log : List (Entry α) := []
  asserted : Bool := false

namespace Dispatcher

def initial (size : Nat) : Dispatcher α := { size := size, minCapacity := size }

def setSlot (s : Dispatcher α) (i : Nat) (slot : Slot α) : Dispatcher α :=
  { s with slots := update s.slots i slot }

def setPosition (s : Dispatcher α) (i : Nat) (call : Call α) (position : Position) : Dispatcher α :=
  { s with calls := update s.calls i (some { call with position := position }) }

/-- A compare-exchange may fail although the index is the expected one. -/
def compareExchange (s : Dispatcher α) (i : Nat) (call : Call α) (pushIndex : Nat) (spurious : Bool) : Dispatcher α :=
  if s.pushIndex = pushIndex && !spurious then
    { s.setPosition i call (.storeAction pushIndex) with
      pushIndex := (pushIndex + 1) % s.size
      claims := s.claims ++ [i] }
  else s.setPosition i call (.compareExchange s.pushIndex)

/-- The next access of a call of `Schedule`. -/
def scheduleStep (s : Dispatcher α) (i : Nat) (call : Call α) (spurious : Bool) : Dispatcher α :=
  match call.position with
  | .load => s.setPosition i call (.compareExchange s.pushIndex)
  | .compareExchange pushIndex => s.compareExchange i call pushIndex spurious
  | .storeAction pushIndex =>
      (s.setSlot pushIndex { s.slots pushIndex with first := some call.action }).setPosition i call (.assertFlag pushIndex)
  | .assertFlag pushIndex =>
      { s.setPosition i call (.storeFlag pushIndex) with asserted := s.asserted || (s.slots pushIndex).second }
  | .storeFlag pushIndex =>
      (s.setSlot pushIndex { s.slots pushIndex with second := true }).setPosition i call (.loadPopIndex pushIndex)
  | .loadPopIndex pushIndex =>
      s.setPosition i call (.compareMinCapacity ((s.size + s.popIndex - pushIndex - 1) % s.size + 1))
  -- `std::min` has references, and its result is read once more
  | .compareMinCapacity capacity =>
      s.setPosition i call (if capacity < s.minCapacity then .storeMinCapacity capacity else .copyMinCapacity)
  | .copyMinCapacity => s.setPosition i call (.storeMinCapacity s.minCapacity)
  | .storeMinCapacity value => { s.setPosition i call .assertMinCapacity with minCapacity := value }
  | .assertMinCapacity =>
      { s.setPosition i call .returned with asserted := s.asserted || decide (s.minCapacity < 1) }
  | .returned => s

/-- `ActionFunction::Execute` and `ActionWithWeakPtr::Execute` -/
def invokes (s : Dispatcher α) : Option (Action α) → Bool
  | some action => action.object.all s.alive
  | none => false

/-- The next access of `ExecuteAllActions`. When it finds no flag, it returns and is called again later. -/
def readerStep (s : Dispatcher α) : Dispatcher α :=
  match s.reader with
  | .testFlag => if (s.slots s.popIndex).second then { s with reader := .execute } else s
  | .execute =>
      { s with reader := .clearAction
               log := s.log ++ [.execute (s.slots s.popIndex).first (s.invokes (s.slots s.popIndex).first)] }
  | .clearAction => { s.setSlot s.popIndex { s.slots s.popIndex with first := none } with reader := .clearFlag }
  | .clearFlag => { s.setSlot s.popIndex { s.slots s.popIndex with second := false } with reader := .advance }
  | .advance => { s with reader := .testFlag, popIndex := (s.popIndex + 1) % s.size, popped := s.popped + 1 }

end Dispatcher

/-- A call of `Schedule` begins or goes on, the reader goes on, or the last SharedPtr to an object goes. -/
inductive Event (α : Type) where
  | schedule (action : Action α)
  | scheduleStep (call : Nat) (spurious : Bool)
  | readerStep
  | destruct (object : Nat)
deriving DecidableEq, Repr

def step (s : Dispatcher α) : Event α → Option (Dispatcher α)
  | .schedule action =>
      some { s with calls := update s.calls s.called (some { action := action }), called := s.called + 1 }
  | .scheduleStep i spurious => (s.calls i).map fun call => s.scheduleStep i call spurious
  | .readerStep => some s.readerStep
  | .destruct object =>
      some { s with alive := update s.alive object false, log := s.log ++ [.destruct object] }

/-! ## What is promised -/

namespace Dispatcher

/-- The slots that have been freed: the flag of the last one may be cleared before the pop index goes on. -/
def freed (s : Dispatcher α) : Nat := if s.reader = .advance then s.popped + 1 else s.popped

/-- The actions that have been executed. -/
def executed (s : Dispatcher α) : List (Option (Action α)) :=
  s.log.filterMap fun entry =>
    match entry with
    | .execute action _ => some action
    | .destruct _ => none

/-- The action of a call. -/
def actionOf (s : Dispatcher α) (i : Nat) : Option (Action α) := (s.calls i).map Call.action

def isIdle (s : Dispatcher α) : Bool := !(s.slots s.popIndex).second

/-- No call of `Schedule` is in progress. -/
def Quiet (s : Dispatcher α) : Prop := ∀ i call, s.calls i = some call → call.position = .returned

end Dispatcher

/-- The slot has been written and its flag has been set. -/
def Position.hasFilled : Position → Bool
  | .load | .compareExchange _ | .storeAction _ | .assertFlag _ | .storeFlag _ => false
  | _ => true

/-- **Every action is executed once**, in the order in which the slots were claimed, as it was scheduled and after its
slot has been written; and when the reader finds no flag while no call of `Schedule` is in progress, all of them have
been. An action with an object is invoked if and only if that has not been destructed before. -/
structure Dispatcher.Dispatches (s : Dispatcher α) : Prop where
  once : s.claims.Nodup
  order : s.executed = (s.claims.take s.executed.length).map s.actionOf
  written : ∀ k i call, k < s.executed.length → s.claims[k]? = some i → s.calls i = some call → call.position.hasFilled = true
  complete : s.reader = .testFlag → s.isIdle = true → s.Quiet →
    s.executed.length = s.claims.length ∧ ∀ i, i < s.called ↔ i ∈ s.claims
  alive : ∀ earlier action invoked, earlier ++ [.execute (some action) invoked] <+: s.log →
    (invoked = true ↔ ∀ object, action.object = some object → .destruct object ∉ earlier)
  asserted : s.asserted = false

/-- A slot is claimed only while there is one that is free. -/
def HasRoom (s : Dispatcher α) : Event α → Prop
  | .scheduleStep i spurious => ∀ call pushIndex, s.calls i = some call → call.position = .compareExchange pushIndex →
      s.pushIndex = pushIndex → spurious = false → s.claims.length - s.freed < s.size
  | _ => True

/-! ## The invariant -/

/-- A slot has been claimed. -/
def Position.hasClaimed : Position → Bool
  | .load | .compareExchange _ => false
  | _ => true

/-- What a call has put in its slot. -/
def Position.slot (action : Action α) : Position → Slot α
  | .load | .compareExchange _ | .storeAction _ => {}
  | .assertFlag _ | .storeFlag _ => { first := some action }
  | _ => { first := some action, second := true }

/-- The slot that a call has claimed and still needs, and the capacity that it has found. -/
def Position.Proper (slot : Nat) : Position → Prop
  | .storeAction i | .assertFlag i | .storeFlag i | .loadPopIndex i => i = slot
  | .compareMinCapacity capacity => 1 ≤ capacity
  | .storeMinCapacity value => 1 ≤ value
  | _ => True

namespace Dispatcher

/-- What is in the slot of a call, which the reader may be clearing. -/
def slotOf (s : Dispatcher α) (k : Nat) (call : Call α) : Slot α :=
  if s.reader = .clearFlag ∧ k = s.popped then { second := true } else call.position.slot call.action

/-- The slots that the reader has begun with. -/
def begun (s : Dispatcher α) : Nat := if s.reader = .testFlag then s.popped else s.popped + 1

/-- The slots whose actions have been executed. -/
def finished (s : Dispatcher α) : Nat := if s.reader = .testFlag ∨ s.reader = .execute then s.popped else s.popped + 1

/-- The indices. -/
structure Indexed (s : Dispatcher α) : Prop where
  size : 0 < s.size
  push : s.pushIndex = s.claims.length % s.size
  pop : s.popIndex = s.popped % s.size
  begun : s.begun ≤ s.claims.length
  room : s.claims.length ≤ s.freed + s.size

/-- The calls. -/
structure Called (s : Dispatcher α) : Prop where
  once : s.claims.Nodup
  called : ∀ i, (s.calls i).isSome = true ↔ i < s.called
  claimed : ∀ i, i ∈ s.claims ↔ ∃ call, s.calls i = some call ∧ call.position.hasClaimed = true
  proper : ∀ k i call, s.claims[k]? = some i → s.calls i = some call → call.position.Proper (k % s.size)
  filled : ∀ k i call, s.claims[k]? = some i → s.calls i = some call → k < s.begun → call.position.hasFilled = true

/-- The slots. -/
structure Stored (s : Dispatcher α) : Prop where
  inUse : ∀ k i call, s.claims[k]? = some i → s.calls i = some call → s.freed ≤ k → s.slots (k % s.size) = s.slotOf k call
  free : ∀ j < s.size, (∀ k, s.freed ≤ k → k < s.claims.length → k % s.size ≠ j) → s.slots j = {}

/-- What has happened. -/
structure Logged (s : Dispatcher α) : Prop where
  executed : s.executed = (s.claims.take s.finished).map s.actionOf
  dead : ∀ object, s.alive object = false ↔ .destruct object ∈ s.log
  alive : ∀ earlier action invoked, earlier ++ [.execute (some action) invoked] <+: s.log →
    (invoked = true ↔ ∀ object, action.object = some object → .destruct object ∉ earlier)

structure Inv (s : Dispatcher α) : Prop where
  indexed : s.Indexed
  called : s.Called
  stored : s.Stored
  logged : s.Logged
  minCapacity : 1 ≤ s.minCapacity
  asserted : s.asserted = false

end Dispatcher

open Dispatcher

variable {s s' : Dispatcher α} {i j k : Nat} {call : Call α} {position : Position}

theorem finished_le_begun (s : Dispatcher α) : s.finished ≤ s.begun := by
  unfold finished begun
  cases s.reader <;> simp

theorem freed_le_finished (s : Dispatcher α) : s.freed ≤ s.finished := by
  unfold freed finished
  cases s.reader <;> simp

/-- Slots in use are different for different claims. -/
theorem Dispatcher.Indexed.mod_inj (h : s.Indexed) (hk : s.freed ≤ k) (hk' : k < s.claims.length) (hj : s.freed ≤ j)
    (hj' : j < s.claims.length) (hmod : k % s.size = j % s.size) : k = j := by
  have hroom := h.room
  rcases Nat.lt_trichotomy k j with hlt | heq | hlt
  · have hzero := Nat.sub_mod_eq_zero_of_mod_eq hmod.symm
    rw [Nat.mod_eq_of_lt (by omega)] at hzero
    omega
  · exact heq
  · have hzero := Nat.sub_mod_eq_zero_of_mod_eq hmod
    rw [Nat.mod_eq_of_lt (by omega)] at hzero
    omega

/-- A call that has not claimed a slot is not among those that have. -/
theorem Dispatcher.Called.not_mem (h : s.Called) (hcall : s.calls i = some call) (hclaimed : call.position.hasClaimed = false) :
    i ∉ s.claims := by
  rw [h.claimed]
  rintro ⟨other, hother, hhas⟩
  cases hcall.symm.trans hother
  rw [hclaimed] at hhas
  cases hhas

/-- The claim of a call that has one. -/
theorem Dispatcher.Called.exists_claim (h : s.Called) (hcall : s.calls i = some call)
    (hclaimed : call.position.hasClaimed = true) : ∃ k : Nat, s.claims[k]? = some i :=
  List.mem_iff_getElem?.mp ((h.claimed i).mpr ⟨call, hcall, hclaimed⟩)

/-- No other claim is by the same call. -/
theorem Dispatcher.Called.claim_unique (h : s.Called) (hk : s.claims[k]? = some i) (hj : s.claims[j]? = some i) : k = j := by
  have hlt := (List.getElem?_eq_some_iff.mp hk).1
  exact (List.getElem?_inj hlt h.once).mp (hk.trans hj.symm)

/-! ## Calls of Schedule -/

theorem Dispatcher.Inv.schedule (h : s.Inv) (action : Action α) :
    ({ s with calls := update s.calls s.called (some { action := action }), called := s.called + 1 } :
      Dispatcher α).Inv := by
  have hnew : s.called ∉ s.claims := by
    rw [h.called.claimed]
    rintro ⟨call, hcall, -⟩
    have hlt := (h.called.called s.called).mp (by rw [hcall]; rfl)
    exact absurd hlt (lt_irrefl _)
  have hne : ∀ (k : Nat) (i : Nat), s.claims[k]? = some i → i ≠ s.called := by
    rintro k i hk rfl
    exact hnew (List.mem_of_getElem? hk)
  refine ⟨{ h.indexed with }, ⟨h.called.once, ?_, ?_, ?_, ?_⟩,
    ⟨?_, h.stored.free⟩, { h.logged with executed := ?_ }, h.minCapacity, h.asserted⟩
  · intro i
    by_cases hi : i = s.called
    · simp [hi]
    · have hcalled := h.called.called i
      simp only [update_of_ne hi, hcalled]
      omega
  · intro i
    by_cases hi : i = s.called
    · simp [hi, hnew, Position.hasClaimed]
    · simp only [update_of_ne hi]
      exact h.called.claimed i
  · intro k i call hk hcall
    simp only [update_of_ne (hne k i hk)] at hcall
    exact h.called.proper k i call hk hcall
  · intro k i call hk hcall
    simp only [update_of_ne (hne k i hk)] at hcall
    exact h.called.filled k i call hk hcall
  · intro k i call hk hcall
    simp only [update_of_ne (hne k i hk)] at hcall
    exact h.stored.inUse k i call hk hcall
  · refine h.logged.executed.trans (List.map_congr_left ?_)
    intro i hi
    obtain ⟨k, hk⟩ := List.mem_iff_getElem?.mp (List.mem_of_mem_take hi)
    simp [actionOf, update_of_ne (hne k i hk)]

theorem calls_setPosition {other : Call α}
    (hother : (s.setPosition i call position).calls j = some other) :
    (j = i ∧ other = { call with position := position }) ∨ (j ≠ i ∧ s.calls j = some other) := by
  by_cases hj : j = i
  · subst hj
    simp only [Dispatcher.setPosition, update_self, Option.some.injEq] at hother
    exact .inl ⟨rfl, hother.symm⟩
  · simp only [Dispatcher.setPosition, update_of_ne hj] at hother
    exact .inr ⟨hj, hother⟩

theorem isSome_calls_setPosition (hcall : s.calls i = some call) (j : Nat) :
    ((s.setPosition i call position).calls j).isSome = (s.calls j).isSome := by
  by_cases hj : j = i
  · subst hj
    simp [Dispatcher.setPosition, hcall]
  · simp [Dispatcher.setPosition, hj]

theorem actionOf_setPosition (hcall : s.calls i = some call) :
    (s.setPosition i call position).actionOf = s.actionOf := by
  funext j
  by_cases hj : j = i
  · subst hj
    simp [actionOf, Dispatcher.setPosition, hcall]
  · simp [actionOf, Dispatcher.setPosition, hj]

/-- A call goes on without changing its slot. -/
theorem Dispatcher.Inv.setPosition (h : s.Inv) (position : Position) (hcall : s.calls i = some call)
    (hclaimed : position.hasClaimed = call.position.hasClaimed) (hslot : position.slot call.action = call.position.slot call.action)
    (hfilled : call.position.hasFilled = true → position.hasFilled = true)
    (hproper : ∀ k, call.position.Proper (k % s.size) → position.Proper (k % s.size)) : (s.setPosition i call position).Inv := by
  refine ⟨{ h.indexed with }, ⟨h.called.once, ?_, ?_, ?_, ?_⟩,
    ⟨?_, h.stored.free⟩, { h.logged with executed := ?_ }, h.minCapacity, h.asserted⟩
  · intro j
    rw [isSome_calls_setPosition hcall]
    exact h.called.called j
  · intro j
    refine (h.called.claimed j).trans ?_
    by_cases hj : j = i
    · subst hj
      simp [Dispatcher.setPosition, hcall, hclaimed]
    · simp [Dispatcher.setPosition, hj]
  · intro k j other hk hother
    rcases calls_setPosition hother with ⟨rfl, rfl⟩ | ⟨-, hother⟩
    · exact hproper k (h.called.proper k j call hk hcall)
    · exact h.called.proper k j other hk hother
  · intro k j other hk hother hbegun
    rcases calls_setPosition hother with ⟨rfl, rfl⟩ | ⟨-, hother⟩
    · exact hfilled (h.called.filled k j call hk hcall hbegun)
    · exact h.called.filled k j other hk hother hbegun
  · intro k j other hk hother hfreed
    rcases calls_setPosition hother with ⟨rfl, rfl⟩ | ⟨-, hother⟩
    · refine (h.stored.inUse k j call hk hcall hfreed).trans ?_
      simp only [slotOf]
      rw [hslot]
      rfl
    · exact h.stored.inUse k j other hk hother hfreed
  · rw [actionOf_setPosition hcall]
    exact h.logged.executed

theorem Dispatcher.Indexed.freed_le (h : s.Indexed) : s.freed ≤ s.claims.length :=
  (freed_le_finished s).trans ((finished_le_begun s).trans h.begun)

/-- A slot is claimed. -/
theorem Dispatcher.Inv.claim (h : s.Inv) (hcall : s.calls i = some call) (hclaimed : call.position.hasClaimed = false)
    (hroom : s.claims.length - s.freed < s.size) :
    ({ s.setPosition i call (.storeAction s.pushIndex) with
        pushIndex := (s.pushIndex + 1) % s.size, claims := s.claims ++ [i] } : Dispatcher α).Inv := by
  have hnew := h.called.not_mem hcall hclaimed
  have hfreed := h.indexed.freed_le
  have hbegun := h.indexed.begun
  have hne : ∀ j, j ∈ s.claims → j ≠ i := by
    rintro j hj rfl
    exact hnew hj
  -- a claim is an old one, of another call, or the new one
  have hcases : ∀ (k : Nat) (j : Nat) (other : Call α), (s.claims ++ [i])[k]? = some j →
      (s.setPosition i call (.storeAction s.pushIndex)).calls j = some other →
      (s.claims[k]? = some j ∧ s.calls j = some other) ∨
        (k = s.claims.length ∧ other = { call with position := .storeAction s.pushIndex }) := by
    intro k j other hk hother
    rcases Nat.lt_trichotomy k s.claims.length with hlt | heq | hlt
    · rw [List.getElem?_append_left hlt] at hk
      simp only [Dispatcher.setPosition, update_of_ne (hne j (List.mem_of_getElem? hk))] at hother
      exact .inl ⟨hk, hother⟩
    · subst heq
      simp only [List.getElem?_concat_length, Option.some.injEq] at hk
      subst hk
      simp only [Dispatcher.setPosition, update_self, Option.some.injEq] at hother
      exact .inr ⟨rfl, hother.symm⟩
    · rw [List.getElem?_eq_none (by simp; omega)] at hk
      cases hk
  refine ⟨⟨h.indexed.size, ?_, h.indexed.pop, ?_, ?_⟩, ⟨?_, ?_, ?_, ?_, ?_⟩, ⟨?_, ?_⟩, { h.logged with executed := ?_ },
    h.minCapacity, h.asserted⟩
  · simp only [List.length_append, List.length_singleton]
    rw [h.indexed.push, Nat.mod_add_mod]
    rfl
  · simp only [List.length_append, List.length_singleton]
    exact le_trans hbegun (Nat.le_succ _)
  · show (s.claims ++ [i]).length ≤ s.freed + s.size
    rw [List.length_append, List.length_singleton]
    omega
  · refine List.nodup_append.mpr ⟨h.called.once, List.nodup_singleton i, ?_⟩
    intro j hj other hother
    rw [List.mem_singleton.mp hother]
    exact hne j hj
  · intro j
    refine Iff.trans ?_ (h.called.called j)
    rw [← isSome_calls_setPosition hcall]
  · intro j
    rw [List.mem_append, List.mem_singleton, h.called.claimed]
    by_cases hj : j = i
    · subst hj
      simp [Dispatcher.setPosition, Position.hasClaimed]
    · simp [Dispatcher.setPosition, hj]
  · intro k j other hk hother
    rcases hcases k j other hk hother with ⟨hk, hother⟩ | ⟨rfl, rfl⟩
    · exact h.called.proper k j other hk hother
    · exact h.indexed.push
  · intro k j other hk hother hlt
    rcases hcases k j other hk hother with ⟨hk, hother⟩ | ⟨rfl, rfl⟩
    · exact h.called.filled k j other hk hother hlt
    · exact absurd hlt (Nat.not_lt.mpr hbegun)
  · intro k j other hk hother hle
    rcases hcases k j other hk hother with ⟨hk, hother⟩ | ⟨rfl, rfl⟩
    · exact h.stored.inUse k j other hk hother hle
    · -- the slot is a free one
      have hfree : s.slots (s.claims.length % s.size) = {} := by
        refine h.stored.free _ (Nat.mod_lt _ h.indexed.size) ?_
        intro k hle hlt hmod
        have hzero := Nat.sub_mod_eq_zero_of_mod_eq hmod.symm
        rw [Nat.mod_eq_of_lt (by omega)] at hzero
        omega
      refine hfree.trans ?_
      have hreader : ¬ (s.reader = .clearFlag ∧ s.claims.length = s.popped) := by
        rintro ⟨hreader, hpopped⟩
        simp [begun, hreader] at hbegun
        omega
      exact (if_neg hreader).symm
  · intro j hj hother
    refine h.stored.free j hj ?_
    intro k hle hlt
    exact hother k hle (by rw [List.length_append]; exact Nat.lt_add_right _ hlt)
  · have hfinished : s.finished ≤ s.claims.length := (finished_le_begun s).trans hbegun
    show s.executed = ((s.claims ++ [i]).take s.finished).map _
    rw [List.take_append_of_le_length hfinished, h.logged.executed]
    exact congrArg (List.map · _) (actionOf_setPosition hcall).symm

/-- What a call finds in its slot until it has set the flag. -/
theorem Dispatcher.Inv.slot_eq (h : s.Inv) (hcall : s.calls i = some call) (hk : s.claims[k]? = some i)
    (hfilled : call.position.hasFilled = false) :
    s.begun ≤ k ∧ s.slots (k % s.size) = call.position.slot call.action := by
  have hbegun : s.begun ≤ k := by
    by_contra hlt
    have hhas := h.called.filled k i call hk hcall (Nat.lt_of_not_le hlt)
    rw [hfilled] at hhas
    cases hhas
  have hfreed : s.freed ≤ k := (freed_le_finished s).trans ((finished_le_begun s).trans hbegun)
  refine ⟨hbegun, (h.stored.inUse k i call hk hcall hfreed).trans (if_neg ?_)⟩
  rintro ⟨hreader, hpopped⟩
  simp [begun, hreader] at hbegun
  omega

/-- A call changes its slot. -/
theorem Dispatcher.Inv.fill (h : s.Inv) (position : Position) (hcall : s.calls i = some call) (hk : s.claims[k]? = some i)
    (hfilled : call.position.hasFilled = false) (hclaimed : position.hasClaimed = true)
    (hproper : position.Proper (k % s.size)) :
    ((s.setSlot (k % s.size) (position.slot call.action)).setPosition i call position).Inv := by
  obtain ⟨hbegun, -⟩ := h.slot_eq hcall hk hfilled
  have hlt : k < s.claims.length := (List.getElem?_eq_some_iff.mp hk).1
  have hfreed : s.freed ≤ k := (freed_le_finished s).trans ((finished_le_begun s).trans hbegun)
  have hcall' : (s.setSlot (k % s.size) (position.slot call.action)).calls i = some call := hcall
  refine ⟨{ h.indexed with }, ⟨h.called.once, ?_, ?_, ?_, ?_⟩,
    ⟨?_, ?_⟩, { h.logged with executed := ?_ }, h.minCapacity, h.asserted⟩
  · intro j
    rw [isSome_calls_setPosition hcall']
    exact h.called.called j
  · intro j
    refine (h.called.claimed j).trans ?_
    by_cases hj : j = i
    · subst hj
      have hmem := (h.called.claimed j).mp (List.mem_of_getElem? hk)
      simp only [Dispatcher.setPosition, update_self, hmem, true_iff]
      exact ⟨_, rfl, hclaimed⟩
    · simp [Dispatcher.setPosition, Dispatcher.setSlot, hj]
  · intro l j other hl hother
    rcases calls_setPosition hother with ⟨rfl, rfl⟩ | ⟨-, hother⟩
    · rw [h.called.claim_unique hl hk]
      exact hproper
    · exact h.called.proper l j other hl hother
  · intro l j other hl hother hlt'
    rcases calls_setPosition hother with ⟨rfl, rfl⟩ | ⟨-, hother⟩
    · rw [h.called.claim_unique hl hk] at hlt'
      exact absurd hlt' (Nat.not_lt.mpr hbegun)
    · exact h.called.filled l j other hl hother hlt'
  · intro l j other hl hother hle
    rcases calls_setPosition hother with ⟨rfl, rfl⟩ | ⟨hj, hother⟩
    · rw [h.called.claim_unique hl hk]
      have hreader : ¬ (s.reader = .clearFlag ∧ k = s.popped) := by
        rintro ⟨hreader, hpopped⟩
        simp [begun, hreader] at hbegun
        omega
      exact (update_self ..).trans (if_neg hreader).symm
    · -- another call has another slot
      have hne : l % s.size ≠ k % s.size := by
        intro hmod
        have hsame := h.indexed.mod_inj hle (List.getElem?_eq_some_iff.mp hl).1 hfreed hlt hmod
        subst hsame
        exact hj (Option.some.inj (hl.symm.trans hk))
      exact (update_of_ne hne ..).trans (h.stored.inUse l j other hl hother hle)
  · intro j hj hother
    have hne : j ≠ k % s.size := (hother k hfreed hlt).symm
    have hold := h.stored.free j hj hother
    simpa [Dispatcher.setPosition, Dispatcher.setSlot, hne] using hold
  · rw [actionOf_setPosition hcall']
    exact h.logged.executed

/-- The slot that a call has claimed and not filled yet, and what is in it. -/
theorem Dispatcher.Inv.exists_slot (h : s.Inv) (hcall : s.calls i = some call) (hclaimed : call.position.hasClaimed = true)
    (hfilled : call.position.hasFilled = false) : ∃ k : Nat, s.claims[k]? = some i ∧ call.position.Proper (k % s.size) ∧
      s.slots (k % s.size) = call.position.slot call.action := by
  obtain ⟨k, hk⟩ := h.called.exists_claim hcall hclaimed
  exact ⟨k, hk, h.called.proper k i call hk hcall, (h.slot_eq hcall hk hfilled).2⟩

/-- A call that has filled its slot goes on. -/
theorem Dispatcher.Inv.setPosition_of_filled (h : s.Inv) (position : Position) (hcall : s.calls i = some call)
    (hclaimed : call.position.hasClaimed = true) (hslot : position.slot call.action = call.position.slot call.action)
    (hhas : position.hasClaimed = true) (hfilled : position.hasFilled = true)
    (hproper : ∀ slot, call.position.Proper slot → position.Proper slot) : (s.setPosition i call position).Inv :=
  h.setPosition position hcall (hhas.trans hclaimed.symm) hslot (fun _ => hfilled) (fun _ => hproper _)

/-- The next access of a call of `Schedule`. -/
theorem Dispatcher.Inv.scheduleStep {spurious : Bool} (h : s.Inv) (hcall : s.calls i = some call)
    (hroom : HasRoom s (.scheduleStep i spurious)) : (s.scheduleStep i call spurious).Inv := by
  obtain ⟨action, position⟩ := call
  cases position with
  | load => exact h.setPosition (.compareExchange s.pushIndex) hcall rfl rfl nofun (fun _ _ => trivial)
  | compareExchange pushIndex =>
      simp only [Dispatcher.scheduleStep, Dispatcher.compareExchange]
      split
      case isTrue hexchange =>
        simp only [Bool.and_eq_true, decide_eq_true_eq, Bool.not_eq_true'] at hexchange
        obtain ⟨rfl, hspurious⟩ := hexchange
        exact h.claim hcall rfl (hroom _ _ hcall rfl rfl hspurious)
      case isFalse => exact h.setPosition (.compareExchange s.pushIndex) hcall rfl rfl nofun (fun _ _ => trivial)
  | storeAction pushIndex =>
      obtain ⟨k, hk, rfl, hslot⟩ := h.exists_slot hcall rfl rfl
      have hfill := h.fill (.assertFlag (k % s.size)) hcall hk rfl rfl rfl
      simp only [Dispatcher.scheduleStep, hslot]
      exact hfill
  | assertFlag pushIndex =>
      obtain ⟨k, -, rfl, hslot⟩ := h.exists_slot hcall rfl rfl
      have hset := h.setPosition (.storeFlag (k % s.size)) hcall rfl rfl nofun (fun _ hproper => hproper)
      simp only [Dispatcher.scheduleStep, hslot, Position.slot, Bool.or_false]
      exact hset
  | storeFlag pushIndex =>
      obtain ⟨k, hk, rfl, hslot⟩ := h.exists_slot hcall rfl rfl
      have hfill := h.fill (.loadPopIndex (k % s.size)) hcall hk rfl rfl rfl
      simp only [Dispatcher.scheduleStep, hslot]
      exact hfill
  | loadPopIndex pushIndex =>
      exact h.setPosition_of_filled (.compareMinCapacity ((s.size + s.popIndex - pushIndex - 1) % s.size + 1)) hcall rfl rfl rfl
        rfl (fun _ _ => Nat.le_add_left _ _)
  | compareMinCapacity capacity =>
      simp only [Dispatcher.scheduleStep]
      split
      · exact h.setPosition_of_filled (.storeMinCapacity capacity) hcall rfl rfl rfl rfl (fun _ hproper => hproper)
      · exact h.setPosition_of_filled .copyMinCapacity hcall rfl rfl rfl rfl (fun _ _ => trivial)
  | copyMinCapacity =>
      exact h.setPosition_of_filled (.storeMinCapacity s.minCapacity) hcall rfl rfl rfl rfl (fun _ _ => h.minCapacity)
  | storeMinCapacity value =>
      obtain ⟨k, hk⟩ := h.called.exists_claim hcall rfl
      have hvalue : 1 ≤ value := h.called.proper k i _ hk hcall
      obtain ⟨hindexed, hcalled, hstored, hlogged, -, hasserted⟩ :=
        h.setPosition_of_filled .assertMinCapacity hcall rfl rfl rfl rfl (fun _ _ => trivial)
      exact ⟨{ hindexed with }, { hcalled with }, { hstored with }, { hlogged with }, hvalue, hasserted⟩
  | assertMinCapacity =>
      have hset := h.setPosition_of_filled .returned hcall rfl rfl rfl rfl (fun _ _ => trivial)
      have hmin : decide (s.minCapacity < 1) = false := decide_eq_false (Nat.not_lt.mpr h.minCapacity)
      simp only [Dispatcher.scheduleStep, hmin, Bool.or_false]
      exact hset
  | returned => exact h

/-! ## The reader -/

/-- The calls that have claimed slots are known. -/
theorem Dispatcher.Called.exists_call (h : s.Called) (hk : k < s.claims.length) :
    ∃ i call, s.claims[k]? = some i ∧ s.calls i = some call := by
  have hmem := List.getElem_mem hk
  obtain ⟨call, hcall, -⟩ := (h.claimed _).mp hmem
  exact ⟨_, call, List.getElem?_eq_getElem hk, hcall⟩

theorem Position.slot_of_hasFilled {action : Action α} (h : position.hasFilled = true) :
    position.slot action = { first := some action, second := true } := by
  cases position <;> first | rfl | cases h

theorem Position.hasFilled_of_slot {action : Action α} (h : (position.slot action).second = true) :
    position.hasFilled = true := by
  cases position <;> first | rfl | cases h

/-- The slot at the pop index. -/
theorem Dispatcher.Inv.slots_popIndex (h : s.Inv) (hreader : s.reader ≠ .advance) (hk : s.claims[s.popped]? = some i)
    (hcall : s.calls i = some call) : s.slots s.popIndex = s.slotOf s.popped call := by
  rw [h.indexed.pop]
  exact h.stored.inUse s.popped i call hk hcall (by simp [freed, hreader])

/-- The flag at the pop index is that of a call that has set it. -/
theorem Dispatcher.Inv.exists_filled (h : s.Inv) (hreader : s.reader = .testFlag)
    (hflag : (s.slots s.popIndex).second = true) : ∃ i call, s.claims[s.popped]? = some i ∧ s.calls i = some call ∧
      call.position.hasFilled = true := by
  have hlt : s.popped < s.claims.length := by
    by_contra hle
    have hfree : s.slots (s.popped % s.size) = {} := by
      refine h.stored.free _ (Nat.mod_lt _ h.indexed.size) ?_
      intro k hfreed hk
      simp only [freed, hreader] at hfreed
      simp at hfreed
      omega
    rw [h.indexed.pop, hfree] at hflag
    cases hflag
  obtain ⟨i, call, hk, hcall⟩ := h.called.exists_call hlt
  have hslot := h.slots_popIndex (by simp [hreader]) hk hcall
  rw [hslot, slotOf, if_neg (by simp [hreader])] at hflag
  exact ⟨i, call, hk, hcall, Position.hasFilled_of_slot hflag⟩

/-- The call whose slot the reader has begun with. -/
theorem Dispatcher.Inv.exists_begun (h : s.Inv) (hreader : s.reader ≠ .testFlag) :
    ∃ i call, s.claims[s.popped]? = some i ∧ s.calls i = some call ∧ call.position.hasFilled = true := by
  have hbegun : s.begun = s.popped + 1 := if_neg hreader
  have hlt : s.popped < s.claims.length := by
    have hle := h.indexed.begun
    omega
  obtain ⟨i, call, hk, hcall⟩ := h.called.exists_call hlt
  exact ⟨i, call, hk, hcall, h.called.filled s.popped i call hk hcall (by omega)⟩

theorem Dispatcher.Inv.testFlag (h : s.Inv) (hreader : s.reader = .testFlag) (hflag : (s.slots s.popIndex).second = true) :
    ({ s with reader := .execute } : Dispatcher α).Inv := by
  obtain ⟨i, call, hk, hcall, hfilled⟩ := h.exists_filled hreader hflag
  have hlt : s.popped < s.claims.length := (List.getElem?_eq_some_iff.mp hk).1
  have hroom := h.indexed.room
  have hinUse := h.stored.inUse
  have hfree := h.stored.free
  have hexecuted := h.logged.executed
  have hbegun := h.called.filled
  simp only [freed, begun, finished, slotOf, hreader] at hroom hinUse hfree hexecuted hbegun
  refine ⟨{ h.indexed with begun := hlt, room := hroom },
    { h.called with filled := ?_ }, ⟨hinUse, hfree⟩,
    { h.logged with executed := hexecuted }, h.minCapacity, h.asserted⟩
  intro k j other hj hother hle
  rcases Nat.lt_succ_iff_lt_or_eq.mp hle with hlt | rfl
  · exact hbegun k j other hj hother hlt
  · cases hk.symm.trans hj
    cases hcall.symm.trans hother
    exact hfilled

theorem invokes_iff (h : ∀ object, s.alive object = false ↔ .destruct object ∈ s.log) (action : Action α) :
    s.invokes (some action) = true ↔ ∀ object, action.object = some object → .destruct object ∉ s.log := by
  cases hobject : action.object with
  | none => simp [invokes, hobject]
  | some object =>
      have halive := h object
      simp only [invokes, hobject, Option.all_some, Option.some.injEq, forall_eq', ← halive, Bool.not_eq_false]

theorem Dispatcher.Inv.execute (h : s.Inv) (hreader : s.reader = .execute) :
    ({ s with reader := .clearAction,
              log := s.log ++ [.execute (s.slots s.popIndex).first (s.invokes (s.slots s.popIndex).first)] } :
      Dispatcher α).Inv := by
  obtain ⟨i, call, hk, hcall, hfilled⟩ := h.exists_begun (by simp [hreader])
  have hslot := h.slots_popIndex (by simp [hreader]) hk hcall
  rw [slotOf, if_neg (by simp [hreader]), Position.slot_of_hasFilled hfilled] at hslot
  rw [hslot]
  have hbegun := h.indexed.begun
  have hroom := h.indexed.room
  have hinUse := h.stored.inUse
  have hfree := h.stored.free
  have hexecuted := h.logged.executed
  have hcalled := h.called.filled
  simp only [freed, begun, finished, slotOf, hreader] at hroom hinUse hfree hexecuted hbegun hcalled
  refine ⟨{ h.indexed with begun := hbegun, room := hroom },
    { h.called with filled := hcalled }, ⟨hinUse, hfree⟩, ⟨?_, ?_, ?_⟩,
    h.minCapacity, h.asserted⟩
  · have hlt : s.popped < s.claims.length := (List.getElem?_eq_some_iff.mp hk).1
    have hget : s.claims[s.popped] = i := (List.getElem?_eq_some_iff.mp hk).2
    have hnew : s.actionOf i = some call.action := by simp [actionOf, hcall]
    show (s.log ++ _).filterMap _ = (s.claims.take (s.popped + 1)).map s.actionOf
    rw [List.filterMap_append, List.take_succ_eq_append_getElem hlt, List.map_append, hget]
    simp only [List.map_cons, List.map_nil, hnew]
    exact congrArg (· ++ _) hexecuted
  · intro object
    simpa using h.logged.dead object
  · intro earlier action invoked hentry
    rcases List.prefix_concat_iff.mp hentry with hlast | hearlier
    · obtain ⟨rfl, hsame⟩ := List.append_inj' hlast rfl
      cases hsame
      exact invokes_iff h.logged.dead _
    · exact h.logged.alive earlier action invoked hearlier

/-- The reader changes its slot. -/
theorem slots_setSlot_popIndex (h : s.Indexed) (hreader : s.reader ≠ .advance) {slot : Slot α} (hk : k < s.claims.length)
    (hlt : s.popped < k) : (s.setSlot s.popIndex slot).slots (k % s.size) = s.slots (k % s.size) := by
  have hfreed : s.freed = s.popped := if_neg hreader
  refine update_of_ne ?_ ..
  intro hmod
  rw [h.pop] at hmod
  have hsame := h.mod_inj (by omega) hk (by omega) (hlt.trans hk) hmod
  omega

theorem Dispatcher.Inv.clearAction (h : s.Inv) (hreader : s.reader = .clearAction) :
    ({ s.setSlot s.popIndex { s.slots s.popIndex with first := none } with reader := .clearFlag } : Dispatcher α).Inv := by
  obtain ⟨i, call, hk, hcall, hfilled⟩ := h.exists_begun (by simp [hreader])
  have hlt : s.popped < s.claims.length := (List.getElem?_eq_some_iff.mp hk).1
  have hslot := h.slots_popIndex (by simp [hreader]) hk hcall
  rw [slotOf, if_neg (by simp [hreader]), Position.slot_of_hasFilled hfilled] at hslot
  rw [hslot]
  have hbegun := h.indexed.begun
  have hroom := h.indexed.room
  have hinUse := h.stored.inUse
  have hfree := h.stored.free
  have hexecuted := h.logged.executed
  have hcalled := h.called.filled
  simp only [freed, begun, finished, slotOf, hreader] at hroom hinUse hfree hexecuted hbegun hcalled
  refine ⟨{ h.indexed with begun := hbegun, room := hroom },
    { h.called with filled := hcalled }, ⟨?_, ?_⟩,
    { h.logged with executed := hexecuted }, h.minCapacity, h.asserted⟩
  · intro k j other hj hother hle
    rcases Nat.eq_or_lt_of_le hle with rfl | hlt'
    · show update s.slots s.popIndex _ (s.popped % s.size) = _
      rw [h.indexed.pop, update_self]
      exact (if_pos ⟨rfl, rfl⟩).symm
    · refine (slots_setSlot_popIndex h.indexed (by simp [hreader]) (List.getElem?_eq_some_iff.mp hj).1 hlt').trans ?_
      refine (hinUse k j other hj hother hle).trans ?_
      have hne : ¬ (Reader.clearFlag = .clearFlag ∧ k = s.popped) := fun hsame => Nat.ne_of_gt hlt' hsame.2
      exact (if_neg (by simp)).trans (if_neg hne).symm
  · intro j hj hother
    have hne : j ≠ s.popIndex := by
      rw [h.indexed.pop]
      exact (hother s.popped le_rfl hlt).symm
    exact (update_of_ne hne ..).trans (hfree j hj hother)

theorem Dispatcher.Inv.clearFlag (h : s.Inv) (hreader : s.reader = .clearFlag) :
    ({ s.setSlot s.popIndex { s.slots s.popIndex with second := false } with reader := .advance } : Dispatcher α).Inv := by
  obtain ⟨i, call, hk, hcall, hfilled⟩ := h.exists_begun (by simp [hreader])
  have hlt : s.popped < s.claims.length := (List.getElem?_eq_some_iff.mp hk).1
  have hslot := h.slots_popIndex (by simp [hreader]) hk hcall
  rw [slotOf, if_pos ⟨hreader, rfl⟩] at hslot
  rw [hslot]
  have hbegun := h.indexed.begun
  have hroom := h.indexed.room
  have hinUse := h.stored.inUse
  have hfree := h.stored.free
  have hexecuted := h.logged.executed
  have hcalled := h.called.filled
  simp only [freed, begun, finished, slotOf, hreader] at hroom hinUse hfree hexecuted hbegun hcalled
  refine ⟨{ h.indexed with begun := hbegun, room := ?_ },
    { h.called with filled := hcalled }, ⟨?_, ?_⟩,
    { h.logged with executed := hexecuted }, h.minCapacity, h.asserted⟩
  · refine hroom.trans (Nat.add_le_add_right ?_ _)
    exact Nat.le_succ _
  · intro k j other hj hother (hle : s.popped + 1 ≤ k)
    refine (slots_setSlot_popIndex h.indexed (by simp [hreader]) (List.getElem?_eq_some_iff.mp hj).1 hle).trans ?_
    refine (hinUse k j other hj hother (Nat.le_of_lt hle)).trans ?_
    exact (if_neg fun hpopped => Nat.ne_of_gt hle hpopped.2).trans (if_neg (by simp)).symm
  · intro j hj hother
    by_cases hne : j = s.popIndex
    · subst hne
      exact update_self ..
    · refine (update_of_ne hne ..).trans (hfree j hj ?_)
      intro k hle hk'
      rcases Nat.eq_or_lt_of_le hle with rfl | hlt'
      · rw [h.indexed.pop] at hne
        exact fun hmod => hne hmod.symm
      · exact hother k hlt' hk'

theorem Dispatcher.Inv.advance (h : s.Inv) (hreader : s.reader = .advance) :
    ({ s with reader := .testFlag, popIndex := (s.popIndex + 1) % s.size, popped := s.popped + 1 } : Dispatcher α).Inv := by
  have hbegun := h.indexed.begun
  have hroom := h.indexed.room
  have hinUse := h.stored.inUse
  have hfree := h.stored.free
  have hexecuted := h.logged.executed
  have hcalled := h.called.filled
  simp only [freed, begun, finished, slotOf, hreader] at hroom hinUse hfree hexecuted hbegun hcalled
  refine ⟨⟨h.indexed.size, h.indexed.push, ?_, hbegun, hroom⟩,
    { h.called with filled := hcalled }, ⟨hinUse, hfree⟩,
    { h.logged with executed := hexecuted }, h.minCapacity, h.asserted⟩
  simp only [h.indexed.pop, Nat.mod_add_mod]

/-- The next access of the reader. -/
theorem Dispatcher.Inv.readerStep (h : s.Inv) : s.readerStep.Inv := by
  cases hreader : s.reader with
  | testFlag =>
      simp only [Dispatcher.readerStep, hreader]
      split
      case isTrue hflag => exact h.testFlag hreader hflag
      case isFalse => exact h
  | execute =>
      simp only [Dispatcher.readerStep, hreader]
      exact h.execute hreader
  | clearAction =>
      simp only [Dispatcher.readerStep, hreader]
      exact h.clearAction hreader
  | clearFlag =>
      simp only [Dispatcher.readerStep, hreader]
      exact h.clearFlag hreader
  | advance =>
      simp only [Dispatcher.readerStep, hreader]
      exact h.advance hreader

/-- An object goes. -/
theorem Dispatcher.Inv.destruct (h : s.Inv) (object : Nat) :
    ({ s with alive := update s.alive object false, log := s.log ++ [.destruct object] } : Dispatcher α).Inv := by
  refine ⟨{ h.indexed with },
    { h.called with }, { h.stored with },
    ⟨?_, ?_, ?_⟩, h.minCapacity, h.asserted⟩
  · refine Eq.trans ?_ h.logged.executed
    simp [executed]
  · intro other
    by_cases hother : other = object
    · simp [hother]
    · simpa [hother] using h.logged.dead other
  · intro earlier action invoked hentry
    rcases List.prefix_concat_iff.mp hentry with hlast | hearlier
    · obtain ⟨-, hsame⟩ := List.append_inj' hlast rfl
      cases hsame
    · exact h.logged.alive earlier action invoked hearlier

/-- A step keeps the invariant. -/
theorem Dispatcher.Inv.step {event : Event α} (h : s.Inv) (hroom : HasRoom s event)
    (hstep : EventDispatcher.step s event = some s') : s'.Inv := by
  cases event with
  | schedule action =>
      cases hstep
      exact h.schedule action
  | scheduleStep i spurious =>
      obtain ⟨call, hcall, rfl⟩ := Option.map_eq_some_iff.mp hstep
      exact h.scheduleStep hcall hroom
  | readerStep =>
      cases hstep
      exact h.readerStep
  | destruct object =>
      cases hstep
      exact h.destruct object

theorem inv_initial {size : Nat} (hsize : 0 < size) : (initial size : Dispatcher α).Inv := by
  refine ⟨⟨hsize, ?_, ?_, le_rfl, Nat.zero_le _⟩, ⟨List.nodup_nil, ?_, ?_, nofun, nofun⟩, ⟨nofun, fun _ _ _ => rfl⟩,
    ⟨rfl, ?_, ?_⟩, hsize, rfl⟩
  · exact (Nat.zero_mod size).symm
  · exact (Nat.zero_mod size).symm
  · simp [initial]
  · simp [initial]
  · simp [initial]
  · intro earlier action invoked hentry
    have hlength := hentry.length_le
    simp [initial] at hlength

/-! ## What follows -/

theorem Dispatcher.Inv.length_executed (h : s.Inv) : s.executed.length = s.finished := by
  have hle := (finished_le_begun s).trans h.indexed.begun
  rw [h.logged.executed, List.length_map, List.length_take]
  omega

/-- When the calls that have claimed a slot have returned, one without a flag is one that has not been claimed. -/
theorem Dispatcher.Inv.popped_eq (h : s.Inv) (hreader : s.reader = .testFlag) (hidle : s.isIdle = true)
    (hreturned : ∀ i call, s.calls i = some call → call.position.hasClaimed = true → call.position = .returned) :
    s.popped = s.claims.length := by
  have hle := h.indexed.begun
  simp only [begun, hreader, if_true] at hle
  refine le_antisymm hle (Nat.le_of_not_lt ?_)
  intro hlt
  obtain ⟨i, call, hk, hcall⟩ := h.called.exists_call hlt
  obtain ⟨_, hcall', hclaimed⟩ := (h.called.claimed i).mp (List.mem_of_getElem? hk)
  cases hcall.symm.trans hcall'
  have hslot := h.slots_popIndex (by simp [hreader]) hk hcall
  rw [slotOf, if_neg (by simp [hreader]), hreturned i call hcall hclaimed] at hslot
  simp [isIdle, hslot, Position.slot] at hidle

theorem Dispatcher.Inv.dispatches (h : s.Inv) : s.Dispatches := by
  have hlength := h.length_executed
  refine ⟨h.called.once, ?_, ?_, ?_, h.logged.alive, h.asserted⟩
  · rw [hlength]
    exact h.logged.executed
  · intro k i call hlt hk hcall
    exact h.called.filled k i call hk hcall (Nat.lt_of_lt_of_le (hlength ▸ hlt) (finished_le_begun s))
  · intro hreader hidle hquiet
    constructor
    · rw [hlength, ← h.popped_eq hreader hidle fun i call hcall _ => hquiet i call hcall]
      exact if_pos (.inl hreader)
    · intro i
      rw [← h.called.called, h.called.claimed, Option.isSome_iff_exists]
      constructor
      · rintro ⟨call, hcall⟩
        exact ⟨call, hcall, by rw [hquiet i call hcall]; rfl⟩
      · rintro ⟨call, hcall, -⟩
        exact ⟨call, hcall⟩

/-! ## Reading until there is no flag -/

/-- What the reader has done for its slot. -/
def Reader.steps : Reader → Nat
  | .testFlag => 0
  | .execute => 1
  | .clearAction => 2
  | .clearFlag => 3
  | .advance => 4

/-- What it still has to do for the slots that are claimed. -/
def Dispatcher.remaining (s : Dispatcher α) : Nat := 5 * (s.claims.length - s.popped) - s.reader.steps

theorem readerStep_calls (s : Dispatcher α) : s.readerStep.calls = s.calls ∧ s.readerStep.called = s.called := by
  unfold Dispatcher.readerStep
  split <;> first | exact ⟨rfl, rfl⟩ | (split <;> exact ⟨rfl, rfl⟩)

theorem Dispatcher.Inv.remaining_readerStep (h : s.Inv) (hbusy : ¬ (s.reader = .testFlag ∧ s.isIdle = true)) :
    s.readerStep.remaining < s.remaining := by
  have hlt : s.popped < s.claims.length := by
    by_cases hreader : s.reader = .testFlag
    · have hflag : (s.slots s.popIndex).second = true := by simpa [hreader, isIdle] using hbusy
      obtain ⟨i, call, hk, -⟩ := h.exists_filled hreader hflag
      exact (List.getElem?_eq_some_iff.mp hk).1
    · obtain ⟨i, call, hk, -⟩ := h.exists_begun hreader
      exact (List.getElem?_eq_some_iff.mp hk).1
  unfold Dispatcher.readerStep remaining
  cases hreader : s.reader with
  | testFlag =>
      have hflag : (s.slots s.popIndex).second = true := by simpa [hreader, isIdle] using hbusy
      simp only [hflag, if_true, Reader.steps]
      omega
  | execute =>
      simp only [Reader.steps]
      omega
  | clearAction | clearFlag =>
      simp only [Reader.steps, Dispatcher.setSlot]
      omega
  | advance =>
      simp only [Reader.steps]
      omega

/-- The reader comes to a slot without a flag. -/
theorem Dispatcher.Inv.drains (h : s.Inv) (hquiet : s.Quiet) :
    ∃ n s', run EventDispatcher.step s (List.replicate n .readerStep) = some s' ∧ s'.Inv ∧ s'.Quiet ∧ s'.reader = .testFlag ∧ s'.isIdle = true := by
  induction hn : s.remaining using Nat.strong_induction_on generalizing s with
  | _ n ih =>
      by_cases hbusy : s.reader = .testFlag ∧ s.isIdle = true
      · exact ⟨0, s, rfl, h, hquiet, hbusy⟩
      · have hless := h.remaining_readerStep hbusy
        obtain ⟨m, s', hrun, hs'⟩ := ih _ (hn ▸ hless) h.readerStep (fun i call hcall => hquiet i call ((readerStep_calls s).1 ▸ hcall)) rfl
        exact ⟨m + 1, s', hrun, hs'⟩

/-- **The event dispatcher executes every action once and in order**, for all interleavings in which a slot is claimed
only while one is free; and without further calls the reader executes all that are there. -/
theorem dispatches_of_run {size : Nat} {events : List (Event α)} (hsize : 0 < size)
    (hroom : Along step HasRoom (initial size) events) (hrun : run step (initial size) events = some s) :
    s.Dispatches ∧ (s.Quiet → ∃ n s', run step s (List.replicate n .readerStep) = some s' ∧ s'.Dispatches ∧
      s'.reader = .testFlag ∧ s'.isIdle = true ∧ s'.executed.length = s'.claims.length ∧
      ∀ i, i < s'.called ↔ i ∈ s'.claims) := by
  have hinv : s.Inv := run_invariant_along Dispatcher.Inv (fun _ _ _ hs hevent hstep => hs.step hevent hstep) hroom hrun
    (inv_initial hsize)
  refine ⟨hinv.dispatches, ?_⟩
  intro hquiet
  obtain ⟨n, s', hread, hs', hquiet', hreader, hidle⟩ := hinv.drains hquiet
  obtain ⟨hall, hclaims⟩ := hs'.dispatches.complete hreader hidle hquiet'
  exact ⟨n, s', hread, hs'.dispatches, hreader, hidle, hall, hclaims⟩

/-- An interrupt schedules an action between the load of the push index and its compare-exchange, which then fails;
the reader executes the action of the interrupt. -/
def interrupted : List (Event Nat) :=
  [.schedule ⟨10, some 7⟩, .scheduleStep 0 false, .schedule ⟨20, none⟩, .scheduleStep 1 false, .scheduleStep 1 false,
    .scheduleStep 1 false, .scheduleStep 1 false, .scheduleStep 1 false, .scheduleStep 0 false, .scheduleStep 0 false,
    .destruct 7, .readerStep, .readerStep]

theorem hasRoom_of_lt {event : Event α} (h : s.claims.length - s.freed < s.size) : HasRoom s event := by
  cases event with
  | scheduleStep i spurious => exact fun _ _ _ _ _ _ => h
  | _ => trivial

theorem along_hasRoom_interrupted : Along step HasRoom (initial 3) interrupted := by
  refine along_cons rfl trivial (along_cons rfl (hasRoom_of_lt (by decide)) (along_cons rfl trivial ?_))
  refine along_cons rfl (hasRoom_of_lt (by decide)) (along_cons rfl (hasRoom_of_lt (by decide)) ?_)
  refine along_cons rfl (hasRoom_of_lt (by decide)) (along_cons rfl (hasRoom_of_lt (by decide)) ?_)
  refine along_cons rfl (hasRoom_of_lt (by decide)) (along_cons rfl (hasRoom_of_lt (by decide)) ?_)
  refine along_cons rfl (hasRoom_of_lt (by decide)) (along_cons rfl trivial ?_)
  exact along_cons rfl trivial (along_cons rfl trivial trivial)

theorem dispatches_of_run_interrupted : ∃ s, run step (initial 3) interrupted = some s ∧
    s.claims = [1, 0] ∧ s.executed = [some ⟨20, none⟩] ∧ s.Dispatches := by
  refine ⟨_, rfl, rfl, rfl, ?_⟩
  exact (dispatches_of_run (by decide : 0 < 3) along_hasRoom_interrupted rfl).1

/-! ## Finishing the calls -/

/-- What goes on: the reader, or a call of `Schedule` where there is room. -/
def GoesOn (s : Dispatcher α) (event : Event α) : Prop :=
  HasRoom s event ∧ (event = .readerStep ∨ ∃ i, event = .scheduleStep i false)

/-- The accesses that a call still makes once its compare-exchange succeeds. -/
def Position.left : Position → Nat
  | .load => 10
  | .compareExchange _ => 9
  | .storeAction _ => 8
  | .assertFlag _ => 7
  | .storeFlag _ => 6
  | .loadPopIndex _ => 5
  | .compareMinCapacity _ => 4
  | .copyMinCapacity => 3
  | .storeMinCapacity _ => 2
  | .assertMinCapacity => 1
  | .returned => 0

def Dispatcher.unfinished (s : Dispatcher α) : Nat :=
  ∑ i ∈ Finset.range s.called, (s.calls i).elim 0 fun call => call.position.left

/-- The calls of `s` and `s'` are the same, but the call `i` has less left. -/
structure Dispatcher.Moved (s s' : Dispatcher α) (i : Nat) (call : Call α) : Prop where
  called : s'.called = s.called
  calls : ∃ position, position.left < call.position.left ∧
    s'.calls = update s.calls i (some { call with position := position })

theorem moved_scheduleStep (hnext : call.position ≠ .returned)
    (hfresh : ∀ pushIndex, call.position = .compareExchange pushIndex → s.pushIndex = pushIndex) :
    Moved s (s.scheduleStep i call false) i call := by
  unfold Dispatcher.scheduleStep
  cases hposition : call.position with
  | compareExchange pushIndex =>
      simp only [Dispatcher.compareExchange, hfresh pushIndex hposition, decide_true, Bool.not_false, Bool.and_self, if_true]
      exact ⟨rfl, _, hposition ▸ Nat.lt_succ_self 8, rfl⟩
  | compareMinCapacity capacity =>
      dsimp only
      split
      · exact ⟨rfl, _, hposition ▸ (by decide : 2 < 4), rfl⟩
      · exact ⟨rfl, _, hposition ▸ Nat.lt_succ_self 3, rfl⟩
  | returned => exact absurd hposition hnext
  | _ => exact ⟨rfl, _, hposition ▸ Nat.lt_succ_self _, rfl⟩

theorem Dispatcher.Moved.unfinished_lt (h : Moved s s' i call) (hcall : s.calls i = some call) (hi : i < s.called) :
    s'.unfinished < s.unfinished := by
  obtain ⟨hcalled, position, hless, hcalls⟩ := h
  unfold Dispatcher.unfinished
  rw [hcalled, hcalls]
  refine Finset.sum_lt_sum (fun j _ => ?_) ⟨i, Finset.mem_range.mpr hi, ?_⟩
  · by_cases hj : j = i
    · subst hj
      simpa [hcall] using hless.le
    · simp [hj]
  · simpa [hcall] using hless

theorem Dispatcher.Moved.actionOf (h : Moved s s' i call) (hcall : s.calls i = some call) : s'.actionOf = s.actionOf := by
  obtain ⟨-, position, -, hcalls⟩ := h
  funext j
  by_cases hj : j = i
  · subst hj
    simp [Dispatcher.actionOf, hcalls, hcall]
  · simp [Dispatcher.actionOf, hcalls, hj]

theorem goesOn (h : s.Inv) (hcall : s.calls i = some call)
    (hroom : call.position.hasClaimed = false → s.claims.length - s.freed < s.size) :
    GoesOn s (.scheduleStep i false) ∧ (s.scheduleStep i call false).Inv := by
  have hasRoom : HasRoom s (.scheduleStep i false) := by
    intro other pushIndex hother hposition _ _
    cases hcall.symm.trans hother
    exact hroom (by rw [hposition]; rfl)
  exact ⟨⟨hasRoom, .inr ⟨i, rfl⟩⟩, h.scheduleStep hcall hasRoom⟩

/-- A call comes nearer to its end, if there is room for what it claims. -/
theorem moves (h : s.Inv) (hcall : s.calls i = some call) (hnext : call.position ≠ .returned)
    (hroom : call.position.hasClaimed = false → s.claims.length - s.freed < s.size) :
    ∃ s', Leads step GoesOn s s' ∧ s'.Inv ∧ Moved s s' i call := by
  obtain ⟨hgoes, hinv⟩ := goesOn h hcall hroom
  have hstep : step s (.scheduleStep i false) = some (s.scheduleStep i call false) := by
    simp [step, hcall]
  by_cases hfresh : ∀ pushIndex, call.position = .compareExchange pushIndex → s.pushIndex = pushIndex
  · exact ⟨_, Leads.refl.cons hgoes hstep, hinv, moved_scheduleStep hnext hfresh⟩
  · -- the compare-exchange fails, and the next one does not
    push Not at hfresh
    obtain ⟨pushIndex, hposition, hstale⟩ := hfresh
    have hfails : s.scheduleStep i call false = s.setPosition i call (.compareExchange s.pushIndex) := by
      simp [Dispatcher.scheduleStep, hposition, Dispatcher.compareExchange, hstale]
    let t := s.setPosition i call (.compareExchange s.pushIndex)
    let call' := { call with position := .compareExchange s.pushIndex }
    have hcall' : t.calls i = some call' := update_self ..
    have hstep' : step t (.scheduleStep i false) = some (t.scheduleStep i call' false) := by
      simp [step, hcall']
    have hroom' := hroom (by rw [hposition]; rfl)
    rw [hfails] at hstep hinv
    obtain ⟨hgoes', hinv'⟩ := goesOn hinv hcall' fun _ => hroom'
    obtain ⟨hcalled, position, hless, hcalls⟩ := @moved_scheduleStep _ t i call' nofun fun _ hsame =>
      Position.compareExchange.inj hsame
    refine ⟨_, (Leads.refl.cons hgoes' hstep').cons hgoes hstep, hinv', hcalled, position, hposition ▸ hless, ?_⟩
    rw [hcalls]
    exact update_idem ..

theorem actionOf_congr (h : s'.calls = s.calls) : s'.actionOf = s.actionOf := by
  unfold Dispatcher.actionOf
  rw [h]

theorem idles (h : s.Inv) : ∃ s', Leads step GoesOn s s' ∧
    (s'.Inv ∧ s'.calls = s.calls ∧ s'.called = s.called) ∧ s'.reader = .testFlag ∧ s'.isIdle = true := by
  refine leads_of_descent Dispatcher.remaining (fun t => t.Inv ∧ t.calls = s.calls ∧ t.called = s.called) _ ?_ ⟨h, rfl, rfl⟩
  rintro t ⟨ht, hcalls, hcalled⟩ hbusy
  obtain ⟨hcalls', hcalled'⟩ := readerStep_calls t
  have hgoes : GoesOn t .readerStep := ⟨trivial, .inl rfl⟩
  exact ⟨t.readerStep, Leads.refl.cons hgoes rfl,
    ⟨ht.readerStep, hcalls'.trans hcalls, hcalled'.trans hcalled⟩, ht.remaining_readerStep hbusy⟩

/-- When the reader waits, the calls that have claimed a slot can go on; without them all slots are free. -/
theorem exists_next (h : s.Inv) (hreader : s.reader = .testFlag) (hidle : s.isIdle = true)
    (hquiet : ¬ s.Quiet) : ∃ i call, s.calls i = some call ∧ call.position ≠ .returned ∧
      (call.position.hasClaimed = false → s.claims.length - s.freed < s.size) := by
  by_cases hreturned : ∀ i call, s.calls i = some call → call.position.hasClaimed = true → call.position = .returned
  · have hfree : s.claims.length - s.freed = 0 := by
      rw [← h.popped_eq hreader hidle hreturned, freed, hreader]
      simp
    simp only [Dispatcher.Quiet, not_forall] at hquiet
    obtain ⟨i, call, hcall, hnext⟩ := hquiet
    exact ⟨i, call, hcall, hnext, fun _ => hfree ▸ h.indexed.size⟩
  · push Not at hreturned
    obtain ⟨i, call, hcall, hclaimed, hnext⟩ := hreturned
    exact ⟨i, call, hcall, hnext, fun hc => absurd (hclaimed.symm.trans hc) nofun⟩

theorem finishes (h : s.Inv) : ∃ s', Leads step GoesOn s s' ∧
    (s'.Inv ∧ s'.called = s.called ∧ s'.actionOf = s.actionOf) ∧ s'.Quiet := by
  refine leads_of_descent Dispatcher.unfinished (fun t => t.Inv ∧ t.called = s.called ∧ t.actionOf = s.actionOf) _ ?_
    ⟨h, rfl, rfl⟩
  rintro t ⟨ht, hcalled, hactionOf⟩ hquiet
  obtain ⟨m, hread, ⟨hm, hcalls, hcalled'⟩, hreader, hidle⟩ := idles ht
  have hunfinished : m.unfinished = t.unfinished := by
    unfold Dispatcher.unfinished
    rw [hcalls, hcalled']
  obtain ⟨i, call, hcall, hnext, hroom⟩ := exists_next hm hreader hidle fun hc => hquiet fun i call hcall =>
    hc i call (hcalls ▸ hcall)
  obtain ⟨n, hleads, hn, hmoved⟩ := moves hm hcall hnext hroom
  have hless := hmoved.unfinished_lt hcall ((hm.called.called i).mp (by simp [hcall]))
  exact ⟨n, hread.trans hleads, ⟨hn, hmoved.called.trans (hcalled'.trans hcalled),
    (hmoved.actionOf hcall).trans ((actionOf_congr hcalls).trans hactionOf)⟩, hunfinished ▸ hless⟩

/-- **No action is stuck**: whatever has happened, the calls in progress and the reader can go on, and then every action
that was scheduled has been executed once. -/
theorem every_action_executed {size : Nat} {events : List (Event α)} (hsize : 0 < size)
    (hroom : Along step HasRoom (initial size) events) (hrun : run step (initial size) events = some s) :
    ∃ s', Leads step GoesOn s s' ∧ s'.executed.Perm ((List.range s.called).map s.actionOf) := by
  have hinv : s.Inv := run_invariant_along Dispatcher.Inv (fun _ _ _ hs hevent hstep => hs.step hevent hstep) hroom hrun
    (inv_initial hsize)
  obtain ⟨m, hleads, ⟨hm, hcalled, hactionOf⟩, hquiet⟩ := finishes hinv
  obtain ⟨s', hread, ⟨hs', hcalls, hcalled'⟩, hreader, hidle⟩ := idles hm
  obtain ⟨hall, hclaims⟩ := hs'.dispatches.complete hreader hidle fun i call hcall => hquiet i call (hcalls ▸ hcall)
  refine ⟨s', hleads.trans hread, ?_⟩
  rw [hs'.dispatches.order, hall, List.take_length, actionOf_congr hcalls, hactionOf]
  apply List.Perm.map
  refine (List.perm_ext_iff_of_nodup hs'.dispatches.once List.nodup_range).mpr fun i => ?_
  rw [← hclaims, hcalled', hcalled, List.mem_range]

theorem every_action_executed_interrupted :
    ∃ s, run step (initial 3) interrupted = some s ∧
      ∃ s', Leads step GoesOn s s' ∧ s'.executed.Perm ((List.range s.called).map s.actionOf) :=
  ⟨_, rfl, every_action_executed (by decide : 0 < 3) along_hasRoom_interrupted rfl⟩

end EmbeddedInfra.EventDispatcher
