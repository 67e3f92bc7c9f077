import EmbeddedInfra.Lib.WaitingList
import EmbeddedInfra.Lib.EventSystem

set_option autoImplicit false

/-! # The connection factory with a name resolver

`services::ConnectionFactoryWithNameResolverImpl` looks up the name of a client and connects to the
address. An `Action` in one of a limited number of slots does this for one client; other clients wait.

`World` says what the resolver and the factory below owe: a lookup that was asked for and not cancelled
gets one answer, and so does a connection attempt, after the call that asked for it has returned.
-/

namespace EmbeddedInfra.ConnectionFactoryWithNameResolver

/-- `ClientConnectionObserverFactory::ConnectFailReason` -/
inductive ConnectFailReason
  | refused
  | connectionAllocationFailed
  deriving DecidableEq, Repr

/-- `ClientConnectionObserverFactoryWithNameResolver::ConnectFailReason` -/
inductive ConnectFailReasonWithNameResolver
  | refused
  | connectionAllocationFailed
  | nameLookupFailed
  deriving DecidableEq, Repr

def convert : ConnectFailReason → ConnectFailReasonWithNameResolver
  | .refused => .refused
  | .connectionAllocationFailed => .connectionAllocationFailed

/-- A client and an address are values of arbitrary types. `id` is where the list has put the action. -/
structure Action (ι α : Type) where
  id : Nat
  clientConnectionFactory : ι
  address : Option α
  connecting : Bool

/-- The calls to the other components, and to the clients. -/
inductive Call (ι α : Type)
  | lookup (id : Nat) (client : ι)
  | cancelLookup (id : Nat)
  | connect (id : Nat) (address : α)
  | cancelConnect (id : Nat)
  | connectionEstablished (client : ι)
  | connectionFailed (client : ι) (reason : ConnectFailReasonWithNameResolver)

/-- `maxActions` is the number of slots. A new action gets the place `nextId`. -/
structure Factory (ι α : Type) where
  waitingActions : List ι
  actions : List (Action ι α)
  maxActions : Nat
  nextId : Nat

variable {ι α : Type} [DecidableEq ι]

namespace Factory

def create (maxActions : Nat) : Factory ι α where
  waitingActions := []
  actions := []
  maxActions := maxActions
  nextId := 0

/-- `CheckNameLookup`; the constructor of the action asks for the lookup. -/
def checkNameLookup (f : Factory ι α) : Factory ι α × List (Call ι α) :=
  match f.waitingActions with
  | [] => (f, [])
  | client :: rest =>
      if f.actions.length < f.maxActions then
        let action := { id := f.nextId, clientConnectionFactory := client, address := none, connecting := false }
        ({ f with waitingActions := rest, actions := f.actions ++ [action], nextId := f.nextId + 1 },
          [.lookup f.nextId client])
      else (f, [])

def connect (f : Factory ι α) (client : ι) : Factory ι α × List (Call ι α) :=
  { f with waitingActions := f.waitingActions ++ [client] }.checkNameLookup

/-- `Action::Remove`: the call that it makes if the action is for this client. -/
def remove (client : ι) (action : Action ι α) : Option (Call ι α) :=
  if client = action.clientConnectionFactory then
    some (if action.connecting then .cancelConnect action.id else .cancelLookup action.id)
  else none

def cancelConnect (f : Factory ι α) (client : ι) : Factory ι α × List (Call ι α) :=
  if client ∈ f.waitingActions then
    ({ f with waitingActions := f.waitingActions.erase client }, [])
  else (f, (f.actions.findSome? (remove client)).toList)

def actionIsDone (f : Factory ι α) (action : Action ι α) : Factory ι α × List (Call ι α) :=
  { f with actions := f.actions.filter (fun other => other.id ≠ action.id) }.checkNameLookup

/-- `Action::NameLookupDone` -/
def nameLookupDone (f : Factory ι α) (action : Action ι α) (address : α) : Factory ι α × List (Call ι α) :=
  let connecting := { action with address := some address, connecting := true }
  ({ f with actions := f.actions.map (fun other => if other.id = action.id then connecting else other) },
    [.connect action.id address])

/-- `Action::NameLookupFailed` -/
def nameLookupFailed (f : Factory ι α) (action : Action ι α) : Factory ι α × List (Call ι α) :=
  let (f, calls) := f.actionIsDone action
  (f, calls ++ [.connectionFailed action.clientConnectionFactory .nameLookupFailed])

/-- `Action::ConnectionEstablished` -/
def connectionEstablished (f : Factory ι α) (action : Action ι α) : Factory ι α × List (Call ι α) :=
  let (f, calls) := f.actionIsDone action
  (f, calls ++ [.connectionEstablished action.clientConnectionFactory])

/-- `Action::ConnectionFailed` -/
def connectionFailed (f : Factory ι α) (action : Action ι α) (reason : ConnectFailReason) :
    Factory ι α × List (Call ι α) :=
  let (f, calls) := f.actionIsDone action
  (f, calls ++ [.connectionFailed action.clientConnectionFactory (convert reason)])

end Factory

/-! ## Runs -/

/-- The factory with what the other components owe it, and what has happened so far: the requests in
their order, those that were started in their order, the clients that got a result, and those whose
request was cancelled. -/
structure World (ι α : Type) where
  factory : Factory ι α
  lookups : Finset Nat
  attempts : Finset Nat
  requested : List ι
  started : List ι
  results : List ι
  cancelled : List ι

inductive Event (ι α : Type)
  | connect (client : ι)
  | cancelConnect (client : ι)
  | nameLookupDone (id : Nat) (address : α)
  | nameLookupFailed (id : Nat)
  | connectionEstablished (id : Nat)
  | connectionFailed (id : Nat) (reason : ConnectFailReason)

namespace World

def create (maxActions : Nat) : World ι α where
  factory := .create maxActions
  lookups := ∅
  attempts := ∅
  requested := []
  started := []
  results := []
  cancelled := []

/-- What a call does to the other components and to the record. -/
def perform (w : World ι α) : Call ι α → World ι α
  | .lookup id client => { w with lookups := insert id w.lookups, started := w.started ++ [client] }
  | .cancelLookup id => { w with lookups := w.lookups.erase id }
  | .connect id _ => { w with attempts := insert id w.attempts }
  | .cancelConnect id => { w with attempts := w.attempts.erase id }
  | .connectionEstablished client => { w with results := client :: w.results }
  | .connectionFailed client _ => { w with results := client :: w.results }

def performAll (w : World ι α) (r : Factory ι α × List (Call ι α)) : World ι α :=
  r.2.foldl perform { w with factory := r.1 }

/-- The action of this place, if an answer that it waits for is owed. -/
def owed (w : World ι α) (owing : Finset Nat) (id : Nat) : Option (Action ι α) :=
  if id ∈ owing then w.factory.actions.find? (fun action => action.id = id) else none

/-- A client that waits is in a list, so that it cannot be connected once more. A client may connect
again after its request has been started. -/
def step (w : World ι α) : Event ι α → Option (World ι α)
  | .connect client =>
      if client ∈ w.factory.waitingActions then none
      else some ({ w with requested := w.requested ++ [client] }.performAll (w.factory.connect client))
  | .cancelConnect client =>
      let cancelled :=
        if client ∈ w.factory.waitingActions ∨ ∃ action ∈ w.factory.actions, action.clientConnectionFactory = client
        then client :: w.cancelled else w.cancelled
      some ({ w with cancelled := cancelled }.performAll (w.factory.cancelConnect client))
  | .nameLookupDone id address => do
      let action ← w.owed w.lookups id
      return { w with lookups := w.lookups.erase id }.performAll (w.factory.nameLookupDone action address)
  | .nameLookupFailed id => do
      let action ← w.owed w.lookups id
      return { w with lookups := w.lookups.erase id }.performAll (w.factory.nameLookupFailed action)
  | .connectionEstablished id => do
      let action ← w.owed w.attempts id
      return { w with attempts := w.attempts.erase id }.performAll (w.factory.connectionEstablished action)
  | .connectionFailed id reason => do
      let action ← w.owed w.attempts id
      return { w with attempts := w.attempts.erase id }.performAll (w.factory.connectionFailed action reason)

/-! ## The invariant -/

/-- What the factory is for: the slots are taken by the requests whose lookup or attempt is outstanding,
every request is in one place or has come to its end, and a client waits only when all slots are taken. -/
structure Good (w : World ι α) : Prop where
  lookups : ∀ id, id ∈ w.lookups ↔ ∃ action ∈ w.factory.actions, action.id = id ∧ action.connecting = false
  attempts : ∀ id, id ∈ w.attempts ↔ ∃ action ∈ w.factory.actions, action.id = id ∧ action.connecting = true
  slots : w.factory.actions.length ≤ w.factory.maxActions
  counted : ∀ client, w.requested.count client = w.results.count client + w.cancelled.count client
    + w.factory.waitingActions.count client + (w.factory.actions.map (·.clientConnectionFactory)).count client
  inOrder : (w.started ++ w.factory.waitingActions).Sublist w.requested
  waits : w.factory.waitingActions ≠ [] → w.factory.actions.length = w.factory.maxActions
  ended : w.lookups = ∅ → w.attempts = ∅ → 0 < w.factory.maxActions →
    ∀ client, w.requested.count client = w.results.count client + w.cancelled.count client

/-- The part of the invariant that a request that starts does not depend on, with the places of the
actions. -/
structure Placed (w : World ι α) : Prop where
  lookups : ∀ id, id ∈ w.lookups ↔ ∃ action ∈ w.factory.actions, action.id = id ∧ action.connecting = false
  attempts : ∀ id, id ∈ w.attempts ↔ ∃ action ∈ w.factory.actions, action.id = id ∧ action.connecting = true
  distinct : (w.factory.actions.map (·.id)).Nodup
  fresh : ∀ action ∈ w.factory.actions, action.id < w.factory.nextId
  slots : w.factory.actions.length ≤ w.factory.maxActions
  inOrder : (w.started ++ w.factory.waitingActions).Sublist w.requested

/-- How many requests of a client there are, wherever they are. -/
def total (w : World ι α) (client : ι) : Nat :=
  w.results.count client + w.cancelled.count client + w.factory.waitingActions.count client
    + (w.factory.actions.map (·.clientConnectionFactory)).count client

structure Inv (w : World ι α) : Prop extends Placed w where
  counted : ∀ client, w.requested.count client = w.total client
  waits : w.factory.waitingActions ≠ [] → w.factory.actions.length = w.factory.maxActions

variable {w : World ι α} {action : Action ι α} {before after : List (Action ι α)}
  {w' : World ι α}

theorem Inv.good (h : Inv w) : Good w := by
  refine { h with ended := ?_ }
  intro hl ha hmax client
  have hactions : w.factory.actions = [] := by
    apply List.eq_nil_iff_forall_not_mem.mpr
    intro action hm
    cases hc : action.connecting with
    | false =>
        have := (h.lookups action.id).mpr ⟨action, hm, rfl, hc⟩
        simp [hl] at this
    | true =>
        have := (h.attempts action.id).mpr ⟨action, hm, rfl, hc⟩
        simp [ha] at this
  have hwaiting : w.factory.waitingActions = [] := by
    by_contra hn
    have := h.waits hn
    simp [hactions] at this
    omega
  rw [h.counted, total, hactions, hwaiting]
  simp

theorem inv_create (maxActions : Nat) : Inv (create (ι := ι) (α := α) maxActions) := by
  refine ⟨⟨?_, ?_, List.nodup_nil, nofun, Nat.zero_le _, List.nil_sublist _⟩, fun _ => rfl, fun h => absurd rfl h⟩
  · simp [create, Factory.create]
  · simp [create, Factory.create]

/-- A free slot goes to the client that has waited longest. -/
theorem Placed.check (h : Placed w) (hcount : ∀ client, w.requested.count client = w.total client)
    (hroom : w.factory.waitingActions ≠ [] → w.factory.waitingActions.length ≤ 1
      ∨ w.factory.maxActions ≤ w.factory.actions.length + 1) :
    Inv (w.performAll w.factory.checkNameLookup) := by
  unfold Factory.checkNameLookup
  cases hw : w.factory.waitingActions with
  | nil =>
      refine ⟨h, hcount, ?_⟩
      intro hn
      exact absurd hw hn
  | cons client rest =>
      dsimp only
      split
      · next hlt =>
          obtain ⟨hl, ha, hd, hf, hs, ho⟩ := h
          refine ⟨⟨?_, ?_, ?_, ?_, ?_, ?_⟩, ?_, ?_⟩
          · intro id
            simp only [performAll, List.foldl, perform, Finset.mem_insert, hl, List.mem_append, List.mem_singleton,
              or_and_right, exists_or, exists_eq_left, and_true, or_comm, eq_comm]
          · intro id
            simp only [performAll, List.foldl, perform, ha, List.mem_append, List.mem_singleton, or_and_right,
              exists_or, exists_eq_left, Bool.false_eq_true, and_false, or_false]
          · simp only [performAll, List.foldl, perform, List.map_append, List.nodup_append]
            refine ⟨hd, by simp, ?_⟩
            intro id hid other hother
            obtain ⟨action, hm, rfl⟩ := List.mem_map.mp hid
            have := hf action hm
            simp at hother
            omega
          · intro action hm
            simp only [performAll, List.foldl, perform, List.mem_append, List.mem_singleton] at hm ⊢
            rcases hm with hm | rfl
            · have := hf action hm
              omega
            · exact Nat.lt_succ_self _
          · simp only [performAll, List.foldl, perform, List.length_append, List.length_singleton]
            omega
          · rw [hw] at ho
            simpa [performAll, perform] using ho
          · intro c
            have := hcount c
            simp only [total, hw, performAll, List.foldl, perform, List.map_append, List.count_append,
              List.count_cons, List.map_cons, List.map_nil, List.count_nil] at this ⊢
            omega
          · intro hn
            have := hroom (by simp [hw])
            simp only [performAll, List.foldl, perform, List.length_append, List.length_nil, hw,
              List.length_cons] at this hn ⊢
            have hrest : rest.length ≠ 0 := fun h0 => hn (List.length_eq_zero_iff.mp h0)
            omega
      · next hge =>
          refine ⟨h, hcount, ?_⟩
          intro _
          have := h.slots
          show w.factory.actions.length = w.factory.maxActions
          omega

omit [DecidableEq ι] in
/-- The action of a place is the only one there. -/
theorem Placed.split (h : Placed w) {owing : Finset Nat} {id : Nat}
    (ho : w.owed owing id = some action) :
    id ∈ owing ∧ action.id = id ∧ ∃ before after, w.factory.actions = before ++ action :: after
      ∧ ∀ other ∈ before ++ after, other.id ≠ action.id := by
  unfold owed at ho
  split at ho
  · next hid =>
      have hm := List.mem_of_find?_eq_some ho
      have hfound : action.id = id := by
        have := List.find?_some ho
        simpa using this
      obtain ⟨before, after, hsplit⟩ := List.append_of_mem hm
      refine ⟨hid, hfound, before, after, hsplit, ?_⟩
      have hd := h.distinct
      rw [hsplit, List.map_append, List.map_cons, List.nodup_append, List.nodup_cons] at hd
      obtain ⟨-, ⟨hafter, -⟩, hbefore⟩ := hd
      intro other hother he
      rcases List.mem_append.mp hother with hother | hother
      · exact hbefore other.id (List.mem_map_of_mem hother) action.id List.mem_cons_self he
      · exact hafter (he ▸ List.mem_map_of_mem hother)
  · cases ho

omit [DecidableEq ι] in
/-- An action waits for one answer only. -/
theorem Placed.exclusive (h : Placed w) (hsplit : w.factory.actions = before ++ action :: after)
    (hne : ∀ other ∈ before ++ after, other.id ≠ action.id) (hl : action.id ∈ w.lookups) :
    action.id ∉ w.attempts := by
  have unique {other : Action ι α} (hm : other ∈ w.factory.actions) (he : other.id = action.id) : other = action := by
    rw [hsplit, List.mem_append, List.mem_cons] at hm
    rcases hm with hm | rfl | hm
    · exact absurd he (hne other (List.mem_append_left _ hm))
    · rfl
    · exact absurd he (hne other (List.mem_append_right _ hm))
  intro ha
  obtain ⟨first, hm, he, hwaiting⟩ := (h.lookups action.id).mp hl
  obtain ⟨second, hm', he', hconnecting⟩ := (h.attempts action.id).mp ha
  rw [unique hm he] at hwaiting
  rw [unique hm' he', hwaiting] at hconnecting
  cases hconnecting

omit [DecidableEq ι] in
/-- The next client starts before the result is given; neither depends on the other. -/
theorem performAll_result {call : Call ι α} {client : ι}
    (hcall : ∀ w : World ι α, w.perform call = { w with results := client :: w.results }) :
    w.performAll (w.factory.checkNameLookup.1, w.factory.checkNameLookup.2 ++ [call])
      = { w with results := client :: w.results }.performAll w.factory.checkNameLookup := by
  simp only [performAll, List.foldl_append, List.foldl, hcall]
  unfold Factory.checkNameLookup
  cases w.factory.waitingActions with
  | nil => rfl
  | cons front rest =>
      dsimp only
      split <;> rfl

/-- An action that has got its last answer leaves its slot, and its client has a result. -/
theorem Inv.leave (h : Inv w) (hsplit : w.factory.actions = before ++ action :: after)
    (hne : ∀ other ∈ before ++ after, other.id ≠ action.id) {lookups attempts : Finset Nat}
    (hl : ∀ id, id ∈ lookups ↔ id ∈ w.lookups ∧ id ≠ action.id)
    (ha : ∀ id, id ∈ attempts ↔ id ∈ w.attempts ∧ id ≠ action.id) {call : Call ι α}
    (hcall : ∀ w : World ι α, w.perform call = { w with results := action.clientConnectionFactory :: w.results }) :
    Inv ({ w with lookups := lookups, attempts := attempts }.performAll
      ((w.factory.actionIsDone action).1, (w.factory.actionIsDone action).2 ++ [call])) := by
  have hfilter : w.factory.actions.filter (fun other => other.id ≠ action.id) = before ++ after := by
    rw [hsplit, List.filter_append, List.filter_cons_of_neg (by simp)]
    rw [← List.filter_append, List.filter_eq_self]
    intro other hm
    simpa using hne other hm
  have hmem (other : Action ι α) : other ∈ w.factory.actions ↔ other = action ∨ other ∈ before ++ after := by
    rw [hsplit]
    simp only [List.mem_append, List.mem_cons]
    tauto
  let w₁ : World ι α := { w with
    factory := { w.factory with actions := before ++ after }
    lookups := lookups
    attempts := attempts }
  have hworld : { w with lookups := lookups, attempts := attempts }.performAll
      ((w.factory.actionIsDone action).1, (w.factory.actionIsDone action).2 ++ [call])
      = w₁.performAll (w₁.factory.checkNameLookup.1, w₁.factory.checkNameLookup.2 ++ [call]) := by
    rw [Factory.actionIsDone, hfilter]
    rfl
  rw [hworld, performAll_result hcall]
  have hlen : w.factory.actions.length = (before ++ after).length + 1 := by
    rw [hsplit]
    simp only [List.length_append, List.length_cons]
    omega
  apply Placed.check
  · refine ⟨?_, ?_, ?_, ?_, ?_, ?_⟩
    · intro id
      show id ∈ lookups ↔ ∃ other ∈ before ++ after, _
      rw [hl, h.lookups]
      grind
    · intro id
      show id ∈ attempts ↔ ∃ other ∈ before ++ after, _
      rw [ha, h.attempts]
      grind
    · have hd := h.distinct
      rw [hsplit] at hd
      refine hd.sublist (List.Sublist.map _ ?_)
      exact (List.Sublist.refl before).append (List.sublist_cons_self action after)
    · intro other hm
      exact h.fresh other ((hmem other).mpr (.inr hm))
    · have := h.slots
      show (before ++ after).length ≤ w.factory.maxActions
      omega
    · exact h.inOrder
  · intro client
    have hc := h.counted client
    rw [total, hsplit] at hc
    show w.requested.count client = List.count client (action.clientConnectionFactory :: w.results)
      + w.cancelled.count client + w.factory.waitingActions.count client
      + ((before ++ after).map (·.clientConnectionFactory)).count client
    simp only [List.map_append, List.map_cons, List.count_append, List.count_cons] at hc ⊢
    omega
  · intro hn
    have := h.waits hn
    right
    show w.factory.maxActions ≤ (before ++ after).length + 1
    omega

/-- Only requests that wait are cancelled. -/
def CancelsWaiting (w : World ι α) : Event ι α → Prop
  | .cancelConnect client => client ∈ w.factory.waitingActions
      ∨ ∀ action ∈ w.factory.actions, action.clientConnectionFactory ≠ client
  | _ => True

theorem Inv.connect (h : Inv w) (client : ι) :
    Inv ({ w with requested := w.requested ++ [client] }.performAll (w.factory.connect client)) := by
  let w₁ : World ι α := { w with
    factory := { w.factory with waitingActions := w.factory.waitingActions ++ [client] }
    requested := w.requested ++ [client] }
  show Inv (w₁.performAll w₁.factory.checkNameLookup)
  apply Placed.check
  · refine { h with inOrder := ?_ }
    show (w.started ++ (w.factory.waitingActions ++ [client])).Sublist (w.requested ++ [client])
    rw [← List.append_assoc]
    exact h.inOrder.append (List.Sublist.refl _)
  · intro c
    have := h.counted c
    simp only [total, w₁, List.count_append] at this ⊢
    omega
  · intro _
    by_cases hw : w.factory.waitingActions = []
    · left
      simp [w₁, hw]
    · right
      have := h.waits hw
      show w.factory.maxActions ≤ w.factory.actions.length + 1
      omega

/-- A client that waits leaves the list. -/
theorem Inv.cancelConnect (h : Inv w) {client : ι} (hc : w.CancelsWaiting (.cancelConnect client : Event ι α))
    (hstep : w.step (.cancelConnect client) = some w') : Inv w' := by
  rw [step, Option.some.injEq] at hstep
  subst hstep
  by_cases hw : client ∈ w.factory.waitingActions
  · rw [if_pos (.inl hw), Factory.cancelConnect, if_pos hw]
    refine ⟨{ h with inOrder := ?_ }, ?_, ?_⟩
    · exact WaitingList.sublist_cancel h.inOrder
    · intro c
      have hcount := h.counted c
      have hmoved := WaitingList.count_cancel hw w.cancelled c
      simp only [total, performAll, List.foldl] at hcount ⊢
      omega
    · intro _
      exact h.waits (List.ne_nil_of_mem hw)
  · have hnone := hc.resolve_left hw
    have hfind : w.factory.actions.findSome? (Factory.remove client) = none := by
      rw [List.findSome?_eq_none_iff]
      intro action hm
      exact if_neg (fun he => hnone action hm he.symm)
    have hn : ¬ (client ∈ w.factory.waitingActions
        ∨ ∃ action ∈ w.factory.actions, action.clientConnectionFactory = client) := by
      rintro (hm | ⟨action, hm, he⟩)
      · exact hw hm
      · exact hnone action hm he
    rw [if_neg hn, Factory.cancelConnect, if_neg hw, hfind]
    exact h

/-- An action that has an address connects to it. -/
theorem Inv.nameLookupDone (h : Inv w) {address : α}
    (hid : action.id ∈ w.lookups) (hsplit : w.factory.actions = before ++ action :: after)
    (hne : ∀ other ∈ before ++ after, other.id ≠ action.id) :
    Inv ({ w with lookups := w.lookups.erase action.id }.performAll
      (w.factory.nameLookupDone action address)) := by
  let connecting : Action ι α := { action with address := some address, connecting := true }
  have hmap : w.factory.actions.map (fun other => if other.id = action.id then connecting else other)
      = before ++ connecting :: after := by
    have hkeep {l : List (Action ι α)} (hl : ∀ other ∈ l, other.id ≠ action.id) :
        l.map (fun other => if other.id = action.id then connecting else other) = l := by
      calc l.map (fun other => if other.id = action.id then connecting else other)
          = l.map id := List.map_congr_left (fun other hm => if_neg (hl other hm))
        _ = l := List.map_id l
    rw [hsplit, List.map_append, List.map_cons, if_pos rfl]
    rw [hkeep (fun other hm => hne other (List.mem_append_left _ hm))]
    rw [hkeep (fun other hm => hne other (List.mem_append_right _ hm))]
  let w₁ : World ι α := { w with
    factory := { w.factory with actions := before ++ connecting :: after }
    lookups := w.lookups.erase action.id
    attempts := insert action.id w.attempts }
  have hworld : { w with lookups := w.lookups.erase action.id }.performAll (w.factory.nameLookupDone action address)
      = w₁ := by
    rw [Factory.nameLookupDone, hmap]
    rfl
  have hmem (other : Action ι α) : other ∈ w.factory.actions ↔ other = action ∨ other ∈ before ++ after := by
    rw [hsplit]
    simp only [List.mem_append, List.mem_cons]
    tauto
  have hmem₁ (other : Action ι α) : other ∈ w₁.factory.actions ↔ other = connecting ∨ other ∈ before ++ after := by
    simp only [w₁, List.mem_append, List.mem_cons]
    tauto
  have hwait : action.connecting = false := by
    obtain ⟨other, hm, he, hc⟩ := (h.lookups action.id).mp hid
    rcases (hmem other).mp hm with rfl | hm
    · exact hc
    · exact absurd he (hne other hm)
  have hids : w₁.factory.actions.map (·.id) = w.factory.actions.map (·.id) := by
    simp [w₁, hsplit, connecting]
  have hclients : w₁.factory.actions.map (·.clientConnectionFactory)
      = w.factory.actions.map (·.clientConnectionFactory) := by
    simp [w₁, hsplit, connecting]
  have hlen : w₁.factory.actions.length = w.factory.actions.length := by
    simp [w₁, hsplit]
  rw [hworld]
  refine ⟨⟨?_, ?_, ?_, ?_, ?_, h.inOrder⟩, ?_, ?_⟩
  · intro id
    show id ∈ w.lookups.erase action.id ↔ _
    rw [Finset.mem_erase, h.lookups]
    simp only [hmem, hmem₁]
    grind
  · intro id
    show id ∈ insert action.id w.attempts ↔ _
    rw [Finset.mem_insert, h.attempts]
    simp only [hmem, hmem₁, or_and_right, exists_or, exists_eq_left, hwait, Bool.false_eq_true, and_false, false_or]
    exact or_congr ⟨fun he => ⟨he.symm, rfl⟩, fun he => he.1.symm⟩ Iff.rfl
  · rw [hids]
    exact h.distinct
  · intro other hm
    have hm : other.id ∈ w₁.factory.actions.map (·.id) := List.mem_map_of_mem hm
    rw [hids] at hm
    obtain ⟨other', hm', he⟩ := List.mem_map.mp hm
    rw [← he]
    exact h.fresh other' hm'
  · rw [hlen]
    exact h.slots
  · intro client
    rw [total, hclients]
    exact h.counted client
  · intro hn
    rw [hlen]
    exact h.waits hn

theorem Inv.step (h : Inv w) {e : Event ι α} (hc : w.CancelsWaiting e)
    (hstep : w.step e = some w') : Inv w' := by
  have erased (s : Finset Nat) (i id : Nat) : id ∈ s.erase i ↔ id ∈ s ∧ id ≠ i := by
    rw [Finset.mem_erase, and_comm]
  have absent {owing : Finset Nat} {action : Action ι α} (hn : action.id ∉ owing) (id : Nat) :
      id ∈ owing ↔ id ∈ owing ∧ id ≠ action.id := by
    constructor
    · intro hid
      refine ⟨hid, ?_⟩
      rintro rfl
      exact hn hid
    · exact fun hid => hid.1
  cases e with
  | connect client =>
      rw [World.step] at hstep
      split at hstep
      · cases hstep
      · cases hstep
        exact h.connect client
  | cancelConnect client => exact h.cancelConnect hc hstep
  | nameLookupDone id address =>
      obtain ⟨action, ho, hw⟩ := Option.bind_eq_some_iff.mp hstep
      obtain ⟨hid, rfl, before, after, hsplit, hne⟩ := h.split ho
      cases hw
      exact h.nameLookupDone hid hsplit hne
  | nameLookupFailed id =>
      obtain ⟨action, ho, hw⟩ := Option.bind_eq_some_iff.mp hstep
      obtain ⟨hid, rfl, before, after, hsplit, hne⟩ := h.split ho
      cases hw
      exact h.leave hsplit hne (erased w.lookups _) (absent (h.exclusive hsplit hne hid)) (fun _ => rfl)
  | connectionEstablished id | connectionFailed id reason =>
      obtain ⟨action, ho, hw⟩ := Option.bind_eq_some_iff.mp hstep
      obtain ⟨hid, rfl, before, after, hsplit, hne⟩ := h.split ho
      cases hw
      exact h.leave hsplit hne (absent (fun hl => h.exclusive hsplit hne hl hid)) (erased w.attempts _)
        (fun _ => rfl)

/-- A request that has been started stays in its slot when it is cancelled, with nothing outstanding. -/
theorem not_good_of_started {e : Event ι α} (hc : ¬ w.CancelsWaiting e)
    (hstep : w.step e = some w') : ¬ Good w' := by
  cases e with
  | cancelConnect client =>
      obtain ⟨hw, hn⟩ := not_or.mp hc
      rw [step, Option.some.injEq] at hstep
      rw [Factory.cancelConnect, if_neg hw] at hstep
      intro hgood
      -- the action that the call belongs to
      cases hfind : w.factory.actions.findSome? (Factory.remove client) with
      | none =>
          rw [List.findSome?_eq_none_iff] at hfind
          apply hn
          intro action hm he
          have := hfind action hm
          rw [Factory.remove, if_pos he.symm] at this
          cases this
      | some call =>
          obtain ⟨action, hm, hcall⟩ := List.exists_of_findSome?_eq_some hfind
          rw [hfind] at hstep
          unfold Factory.remove at hcall
          split at hcall
          · cases hcall
            cases hconnecting : action.connecting with
            | false =>
                rw [hconnecting] at hstep
                subst hstep
                have hl := (hgood.lookups action.id).mpr ⟨action, hm, rfl, hconnecting⟩
                exact Finset.notMem_erase action.id w.lookups hl
            | true =>
                rw [hconnecting] at hstep
                subst hstep
                have ha := (hgood.attempts action.id).mpr ⟨action, hm, rfl, hconnecting⟩
                exact Finset.notMem_erase action.id w.attempts ha
          · cases hcall
  | _ => exact absurd trivial hc

/-- **The factory keeps its promises in a run if and only if only waiting requests are cancelled in it.**
A request that is cancelled while its name is looked up or its connection is attempted stays in its
slot for good. -/
theorem good_iff_cancelsWaiting (maxActions : Nat) (events : List (Event ι α)) (w : World ι α)
    (h : EventSystem.run step (create maxActions) events = some w) :
    EventSystem.Always step Good (create maxActions) events
      ↔ EventSystem.Along step CancelsWaiting (create maxActions) events :=
  EventSystem.always_iff_along Inv (fun _ hw => hw.good) (fun _ _ _ hw hc hs => hw.step hc hs)
    (fun _ _ _ _ hc hs => not_good_of_started hc hs) (inv_create maxActions) h

/-- With one slot, the second client waits for good after the first has been cancelled. -/
theorem not_good_of_cancelConnect : ¬ ∀ (maxActions : Nat) (events : List (Event Nat Nat)) (w : World Nat Nat),
    EventSystem.run step (create maxActions) events = some w → Good w := by
  intro hall
  have h := hall 1 [.connect 5, .cancelConnect 5, .connect 6] _ rfl
  have hended := h.ended (by decide) (by decide) (by decide) 6
  revert hended
  decide

/-- A waiting client is cancelled; the other one gets its connection. -/
theorem good_iff_cancelsWaiting_run : ∃ w : World Nat Nat,
    EventSystem.Always step Good (create 1)
      [.connect 5, .connect 6, .cancelConnect 6, .nameLookupDone 0 80, .connectionEstablished 0]
    ∧ EventSystem.run step (create 1)
      [.connect 5, .connect 6, .cancelConnect 6, .nameLookupDone 0 80, .connectionEstablished 0] = some w
    ∧ w.results = [5] := by
  refine ⟨_, (good_iff_cancelsWaiting 1 _ _ rfl).mpr ?_, rfl, rfl⟩
  refine EventSystem.along_cons rfl trivial (EventSystem.along_cons rfl trivial ?_)
  refine EventSystem.along_cons rfl (.inl (by decide)) ?_
  exact EventSystem.along_cons rfl trivial (EventSystem.along_cons rfl trivial trivial)

end World

end EmbeddedInfra.ConnectionFactoryWithNameResolver
