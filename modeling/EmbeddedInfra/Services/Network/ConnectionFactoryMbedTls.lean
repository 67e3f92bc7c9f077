import EmbeddedInfra.Lib.WaitingList
import EmbeddedInfra.Lib.EventSystem

set_option autoImplicit false

/-! # The connection factory of mbed TLS

`services::ConnectionFactoryMbedTls` connects through another factory. A `ConnectionMbedTlsConnector` in one
of a limited number of slots is the client of that factory on behalf of one client of its own; other
clients wait.

A connector calls its client before it is removed, so that the client can connect or cancel in between:
a report of the factory below consists of the call of the client and of the return from it.
-/

namespace EmbeddedInfra.ConnectionFactoryMbedTls

/-- `ClientConnectionObserverFactory::ConnectFailReason` -/
inductive ConnectFailReason
  | refused
  | connectionAllocationFailed
  deriving DecidableEq, Repr

/-- `ConnectionMbedTlsConnector`; `id` is where the list has put it. -/
structure Connector (ι : Type) where
  id : Nat
  clientFactory : ι
  deriving DecidableEq, Repr

/-- The calls to the factory below, and to the clients. -/
inductive Call (ι : Type)
  | connect (id : Nat) (client : ι)
  | connectionEstablished (client : ι)
  | connectionFailed (client : ι) (reason : ConnectFailReason)

/-- `maxConnectors` is the size of the list of connectors. A new connector gets the place `nextId`. -/
structure Factory (ι : Type) where
  waitingConnects : List ι
  connectors : List (Connector ι)
  maxConnectors : Nat
  nextId : Nat

variable {ι : Type} [DecidableEq ι]

namespace Connector

/-- `ConnectionEstablished`: the call of the client; `allocated` tells whether there is memory for the
connection. -/
def connectionEstablished (connector : Connector ι) (allocated : Bool) : Call ι :=
  if allocated then .connectionEstablished connector.clientFactory
  else .connectionFailed connector.clientFactory .connectionAllocationFailed

/-- `ConnectionFailed`: the call of the client. -/
def connectionFailed (connector : Connector ι) (reason : ConnectFailReason) : Call ι :=
  .connectionFailed connector.clientFactory reason

end Connector

namespace Factory

def create (maxConnectors : Nat) : Factory ι where
  waitingConnects := []
  connectors := []
  maxConnectors := maxConnectors
  nextId := 0

/-- `TryConnect`; the constructor of the connector connects to the factory below. -/
def tryConnect (f : Factory ι) : Factory ι × List (Call ι) :=
  match f.waitingConnects with
  | [] => (f, [])
  | client :: rest =>
      if f.connectors.length < f.maxConnectors then
        ({ f with
            waitingConnects := rest
            connectors := f.connectors ++ [{ id := f.nextId, clientFactory := client }]
            nextId := f.nextId + 1 },
          [.connect f.nextId client])
      else (f, [])

def connect (f : Factory ι) (client : ι) : Factory ι × List (Call ι) :=
  { f with waitingConnects := f.waitingConnects ++ [client] }.tryConnect

/-- `CancelConnect`; it aborts when the client neither waits nor has a connector. -/
def cancelConnect (f : Factory ι) (client : ι) : Option (Factory ι × List (Call ι)) :=
  if client ∈ f.waitingConnects then
    some ({ f with waitingConnects := f.waitingConnects.erase client }, [])
  else if ∃ connector ∈ f.connectors, connector.clientFactory = client then
    some ({ f with connectors := f.connectors.eraseP fun connector => connector.clientFactory = client }, [])
  else none

def remove (f : Factory ι) (id : Nat) : Factory ι × List (Call ι) :=
  { f with connectors := f.connectors.filter fun connector => connector.id ≠ id }.tryConnect

end Factory

/-! ## Runs -/

/-- The factory with what the factory below owes it, and what has happened so far: the requests in their
order, those that were started in their order, the clients that got a result, and those that cancelled.
`reporting` is the connector that is calling its client. -/
structure World (ι : Type) where
  factory : Factory ι
  attempts : Finset Nat
  reporting : Option Nat
  requested : List ι
  started : List ι
  results : List ι
  cancelled : List ι

inductive Event (ι : Type)
  | connect (client : ι)
  | cancelConnect (client : ι)
  | connectionEstablished (id : Nat) (allocated : Bool)
  | connectionFailed (id : Nat) (reason : ConnectFailReason)
  /-- The client returns from the call, and the connector is removed. -/
  | returned

namespace World

def create (maxConnectors : Nat) : World ι where
  factory := .create maxConnectors
  attempts := ∅
  reporting := none
  requested := []
  started := []
  results := []
  cancelled := []

/-- What a call does to the factory below and to the record. -/
def perform (w : World ι) : Call ι → World ι
  | .connect id client => { w with attempts := insert id w.attempts, started := w.started ++ [client] }
  | .connectionEstablished client => { w with results := client :: w.results }
  | .connectionFailed client _ => { w with results := client :: w.results }

def performAll (w : World ι) (r : Factory ι × List (Call ι)) : World ι :=
  r.2.foldl perform { w with factory := r.1 }

/-- The connectors that wait for the factory below. -/
def connecting (w : World ι) : List (Connector ι) :=
  w.factory.connectors.filter fun connector => w.reporting ≠ some connector.id

/-- The factory below reports to a connector. It does so in an event of its own, not inside a call. -/
def report (w : World ι) (id : Nat) (call : Connector ι → Call ι) : Option (World ι) :=
  if id ∈ w.attempts ∧ w.reporting = none then
    (w.factory.connectors.find? fun connector => connector.id = id).map fun connector =>
      { w with attempts := w.attempts.erase id, reporting := some id }.perform (call connector)
  else none

/-- A client that waits is in a list, so that it cannot be connected once more; a client that is called
is not connecting any more. -/
def step (w : World ι) : Event ι → Option (World ι)
  | .connect client =>
      if client ∈ w.factory.waitingConnects then none
      else some ({ w with requested := w.requested ++ [client] }.performAll (w.factory.connect client))
  | .cancelConnect client =>
      if client ∈ w.factory.waitingConnects ∨ ∃ connector ∈ w.connecting, connector.clientFactory = client then
        (w.factory.cancelConnect client).map { w with cancelled := client :: w.cancelled }.performAll
      else none
  | .connectionEstablished id allocated => w.report id fun connector => connector.connectionEstablished allocated
  | .connectionFailed id reason => w.report id fun connector => connector.connectionFailed reason
  | .returned => w.reporting.map fun id => { w with reporting := none }.performAll (w.factory.remove id)

/-- What the factory is for: the factory below reports to connectors that are there, every request is in
one place or has come to its end, requests are started in order, and a client waits only when all
connectors are in use. -/
structure Good (w : World ι) : Prop where
  reports : ∀ id ∈ w.attempts, ∃ connector ∈ w.factory.connectors, connector.id = id
  slots : w.factory.connectors.length ≤ w.factory.maxConnectors
  counted : ∀ client, w.requested.count client = w.results.count client + w.cancelled.count client
    + w.factory.waitingConnects.count client + (w.connecting.map (·.clientFactory)).count client
  inOrder : (w.started ++ w.factory.waitingConnects).Sublist w.requested
  waits : w.factory.waitingConnects ≠ [] → w.factory.connectors.length = w.factory.maxConnectors
  ended : w.attempts = ∅ → w.reporting = none → 0 < w.factory.maxConnectors →
    ∀ client, w.requested.count client = w.results.count client + w.cancelled.count client

/-- Only clients that wait are cancelled. -/
def CancelsWaiting (w : World ι) : Event ι → Prop
  | .cancelConnect client => client ∈ w.factory.waitingConnects
  | _ => True

instance (w : World ι) : DecidablePred w.CancelsWaiting
  | .cancelConnect client => inferInstanceAs (Decidable (client ∈ w.factory.waitingConnects))
  | .connect _ => inferInstanceAs (Decidable True)
  | .connectionEstablished _ _ => inferInstanceAs (Decidable True)
  | .connectionFailed _ _ => inferInstanceAs (Decidable True)
  | .returned => inferInstanceAs (Decidable True)

/-! ## The invariant -/

/-- The part of the invariant that a request that starts does not depend on, with the places of the
connectors. -/
structure Placed (w : World ι) : Prop where
  attempts : ∀ id, id ∈ w.attempts ↔ id ∈ w.connecting.map (·.id)
  distinct : (w.factory.connectors.map (·.id)).Nodup
  fresh : ∀ connector ∈ w.factory.connectors, connector.id < w.factory.nextId
  reported : ∀ id ∈ w.reporting, id < w.factory.nextId
  slots : w.factory.connectors.length ≤ w.factory.maxConnectors
  counted : ∀ client, w.requested.count client = w.results.count client + w.cancelled.count client
    + w.factory.waitingConnects.count client + (w.connecting.map (·.clientFactory)).count client
  inOrder : (w.started ++ w.factory.waitingConnects).Sublist w.requested

structure Inv (w : World ι) : Prop extends Placed w where
  waits : w.factory.waitingConnects ≠ [] → w.factory.connectors.length = w.factory.maxConnectors

variable {w : World ι}

omit [DecidableEq ι] in
theorem connecting_of_idle (h : w.reporting = none) : w.connecting = w.factory.connectors := by
  simp [connecting, h]

theorem Inv.good (h : Inv w) : Good w where
  reports := by
    intro id hid
    obtain ⟨connector, hm, rfl⟩ := List.mem_map.mp ((h.attempts id).mp hid)
    exact ⟨connector, List.mem_of_mem_filter hm, rfl⟩
  slots := h.slots
  counted := h.counted
  inOrder := h.inOrder
  waits := h.waits
  ended := by
    intro hattempts hidle hmax client
    have hconnecting : w.connecting = [] := by
      apply List.eq_nil_iff_forall_not_mem.mpr
      intro connector hm
      have hid := (h.attempts connector.id).mpr (List.mem_map_of_mem hm)
      simp [hattempts] at hid
    have hwaiting : w.factory.waitingConnects = [] := by
      by_contra hn
      have := h.waits hn
      rw [← connecting_of_idle hidle, hconnecting, List.length_nil] at this
      omega
    rw [h.counted, hconnecting, hwaiting]
    simp

theorem inv_create (maxConnectors : Nat) : Inv (create maxConnectors : World ι) := by
  constructor
  case waits => exact fun hn => absurd rfl hn
  constructor
  case attempts => simp [create, connecting, Factory.create]
  case distinct => exact List.nodup_nil
  case fresh => simp [create, Factory.create]
  case reported => simp [create]
  case slots => exact Nat.zero_le _
  case counted => exact fun _ => rfl
  case inOrder => exact List.nil_sublist _

/-- The world after a connector has been created for the client at the front. -/
def startNext (w : World ι) (client : ι) (rest : List ι) : World ι :=
  { w with
    factory := { w.factory with
      waitingConnects := rest
      connectors := w.factory.connectors ++ [{ id := w.factory.nextId, clientFactory := client }]
      nextId := w.factory.nextId + 1 }
    attempts := insert w.factory.nextId w.attempts
    started := w.started ++ [client] }

/-- A connector that is created waits for the factory below. -/
theorem Placed.connecting_started (h : Placed w) (client : ι) (rest : List ι) :
    (w.startNext client rest).connecting = w.connecting ++ [{ id := w.factory.nextId, clientFactory := client }] := by
  have hnew : w.reporting ≠ some w.factory.nextId := by
    intro he
    exact absurd (h.reported _ he) (Nat.lt_irrefl _)
  rw [connecting, startNext, List.filter_append, List.filter_cons_of_pos (by simpa using hnew), List.filter_nil]
  rfl

theorem Placed.startNext (h : Placed w) {client : ι} {rest : List ι} (hw : w.factory.waitingConnects = client :: rest)
    (hroom : w.factory.connectors.length < w.factory.maxConnectors) : Placed (w.startNext client rest) := by
  have hconnecting := h.connecting_started client rest
  constructor
  case attempts =>
    intro id
    rw [hconnecting, List.map_append, List.mem_append, ← h.attempts]
    simp [World.startNext, or_comm]
  case distinct =>
    simp only [World.startNext, List.map_append, List.map_cons, List.map_nil]
    refine List.Nodup.append h.distinct (List.nodup_singleton _) ?_
    intro id hid hnew
    obtain ⟨connector, hm, rfl⟩ := List.mem_map.mp hid
    have := h.fresh connector hm
    rw [List.mem_singleton] at hnew
    omega
  case fresh =>
    intro connector hm
    rcases List.mem_append.mp hm with hm | hm
    · exact (h.fresh connector hm).trans (Nat.lt_succ_self _)
    · rw [List.mem_singleton.mp hm]
      exact Nat.lt_succ_self _
  case reported =>
    intro id hid
    exact (h.reported id hid).trans (Nat.lt_succ_self _)
  case slots =>
    simp only [World.startNext, List.length_append, List.length_singleton]
    omega
  case counted =>
    intro other
    have hcount := h.counted other
    rw [hw] at hcount
    rw [hconnecting]
    simp only [World.startNext, List.map_append, List.count_append, List.count_cons, List.map_cons, List.map_nil,
      List.count_nil] at hcount ⊢
    omega
  case inOrder =>
    have horder := h.inOrder
    rw [hw] at horder
    simpa [World.startNext] using horder

/-- A free slot goes to the client that has waited longest. -/
theorem Placed.tryConnect (h : Placed w)
    (hroom : w.factory.waitingConnects.length ≤ 1 ∨ w.factory.maxConnectors ≤ w.factory.connectors.length + 1) :
    Inv (w.performAll w.factory.tryConnect) := by
  unfold Factory.tryConnect
  cases hw : w.factory.waitingConnects with
  | nil => exact ⟨h, fun hn => absurd hw hn⟩
  | cons client rest =>
      dsimp only
      split
      next hlt =>
          refine ⟨h.startNext hw hlt, ?_⟩
          intro hn
          have hrest : rest.length ≠ 0 := fun h0 => hn (List.length_eq_zero_iff.mp h0)
          rw [hw, List.length_cons] at hroom
          simp only [performAll, List.foldl, perform, List.length_append, List.length_singleton]
          omega
      next hge =>
          refine ⟨h, ?_⟩
          intro _
          have := h.slots
          show w.factory.connectors.length = w.factory.maxConnectors
          omega

/-! ## The events -/

theorem Inv.connect (h : Inv w) (client : ι) :
    Inv ({ w with requested := w.requested ++ [client] }.performAll (w.factory.connect client)) := by
  let w₁ : World ι := { w with
    factory := { w.factory with waitingConnects := w.factory.waitingConnects ++ [client] }
    requested := w.requested ++ [client] }
  have hplaced : Placed w₁ := by
    refine { h with counted := ?_, inOrder := ?_ }
    · intro other
      have := h.counted other
      simp only [w₁, List.count_append]
      show _ = _ + (w.connecting.map (·.clientFactory)).count other
      omega
    · show (w.started ++ (w.factory.waitingConnects ++ [client])).Sublist (w.requested ++ [client])
      rw [← List.append_assoc]
      exact h.inOrder.append (List.Sublist.refl _)
  -- only the new client waits, or there was no free slot before
  refine hplaced.tryConnect ?_
  by_cases hw : w.factory.waitingConnects = []
  · left
    simp [w₁, hw]
  · right
    have := h.waits hw
    show w.factory.maxConnectors ≤ w.factory.connectors.length + 1
    omega

/-- A client that waits leaves the list. -/
theorem Inv.cancelConnect (h : Inv w) {client : ι} (hw : client ∈ w.factory.waitingConnects) {w' : World ι}
    (hstep : w.step (.cancelConnect client) = some w') : Inv w' := by
  rw [step, if_pos (.inl hw), Factory.cancelConnect, if_pos hw, Option.map_some, Option.some.injEq] at hstep
  subst hstep
  refine { h with counted := ?_, inOrder := ?_, waits := fun _ => h.waits (List.ne_nil_of_mem hw) }
  · intro other
    have hcount := h.counted other
    have hmoved := WaitingList.count_cancel hw w.cancelled other
    simp only [performAll, List.foldl]
    show _ = _ + (w.connecting.map (·.clientFactory)).count other
    omega
  · exact WaitingList.sublist_cancel h.inOrder

/-- A connector is the only one with its place. -/
theorem Placed.perm (h : Placed w) {connector : Connector ι} (hm : connector ∈ w.factory.connectors) :
    w.factory.connectors.Perm
      (connector :: w.factory.connectors.filter fun other => some connector.id ≠ some other.id) := by
  obtain ⟨before, after, hsplit⟩ := List.append_of_mem hm
  have hd := h.distinct
  rw [hsplit, List.map_append, List.map_cons, List.nodup_middle, ← List.map_append, List.nodup_cons] at hd
  have hothers : (before ++ after).filter (fun other => some connector.id ≠ some other.id) = before ++ after := by
    rw [List.filter_eq_self]
    intro other hother
    simp only [ne_eq, Option.some.injEq, decide_not, Bool.not_eq_true', decide_eq_false_iff_not]
    intro he
    exact hd.1 (he ▸ List.mem_map_of_mem hother)
  rw [hsplit]
  refine List.perm_middle.trans (List.Perm.cons connector ?_)
  rw [List.filter_append, List.filter_cons_of_neg (by simp), ← List.filter_append, hothers]

theorem Inv.report (h : Inv w) {id : Nat} {call : Connector ι → Call ι} {w' : World ι}
    (hcall : ∀ (connector : Connector ι) (w : World ι),
      w.perform (call connector) = { w with results := connector.clientFactory :: w.results })
    (hstep : w.report id call = some w') : Inv w' := by
  unfold World.report at hstep
  split at hstep
  next hreport =>
      obtain ⟨connector, hfind, rfl⟩ := Option.map_eq_some_iff.mp hstep
      have hm := List.mem_of_find?_eq_some hfind
      have hid : connector.id = id := by
        have := List.find?_some hfind
        simpa using this
      subst hid
      rw [hcall]
      -- the connector that reports is no longer connecting: its client has its result
      have hidle := connecting_of_idle hreport.2
      have hperm := h.perm hm
      refine { h with attempts := ?_, reported := ?_, counted := ?_ }
      · intro id
        have hattempts := h.attempts id
        rw [hidle, (hperm.map _).mem_iff, List.map_cons, List.mem_cons] at hattempts
        simp only [Finset.mem_erase]
        rw [hattempts]
        constructor
        · rintro ⟨hne, he | hother⟩
          · exact absurd he hne
          · exact hother
        · intro hother
          refine ⟨?_, .inr hother⟩
          rintro rfl
          obtain ⟨other, hother, he⟩ := List.mem_map.mp hother
          have := List.of_mem_filter hother
          simp [he] at this
      · intro id hid
        cases hid
        exact h.fresh connector hm
      · intro client
        have hcount := h.counted client
        rw [hidle, (hperm.map _).count_eq, List.map_cons, List.count_cons] at hcount
        show w.requested.count client = List.count client (connector.clientFactory :: w.results)
          + w.cancelled.count client + w.factory.waitingConnects.count client
          + ((w.factory.connectors.filter fun other => some connector.id ≠ some other.id).map
            (·.clientFactory)).count client
        rw [List.count_cons]
        omega
  next => cases hstep

/-- At most one connector is removed. -/
theorem Placed.length_le (h : Placed w) (id : Nat) : w.factory.connectors.length
    ≤ (w.factory.connectors.filter fun connector => connector.id ≠ id).length + 1 := by
  by_cases hm : ∃ connector ∈ w.factory.connectors, connector.id = id
  · obtain ⟨connector, hm, rfl⟩ := hm
    have hlength := (h.perm hm).length_eq
    simp only [ne_eq, Option.some.injEq, List.length_cons] at hlength
    simp only [ne_eq, eq_comm (b := connector.id)]
    omega
  · have hall : w.factory.connectors.filter (fun connector => connector.id ≠ id) = w.factory.connectors := by
      rw [List.filter_eq_self]
      intro connector hc
      simpa using fun he => hm ⟨connector, hc, he⟩
    rw [hall]
    exact Nat.le_succ _

/-- A connector that has called its client leaves its slot. -/
theorem Inv.returned (h : Inv w) {id : Nat} (hid : w.reporting = some id) :
    Inv ({ w with reporting := none }.performAll (w.factory.remove id)) := by
  let w₁ : World ι := { w with
    factory := { w.factory with connectors := w.factory.connectors.filter fun connector => connector.id ≠ id }
    reporting := none }
  have hconnecting : w₁.connecting = w.connecting := by
    rw [connecting_of_idle rfl]
    simp only [w₁, connecting, hid, ne_eq, Option.some.injEq, eq_comm]
  have hplaced : Placed w₁ := by
    refine { h with attempts := ?_, distinct := ?_, fresh := ?_, reported := ?_, slots := ?_, counted := ?_ }
    · rw [hconnecting]
      exact h.attempts
    · exact h.distinct.sublist (List.filter_sublist.map _)
    · intro connector hm
      exact h.fresh connector (List.mem_of_mem_filter hm)
    · intro _ hn
      cases hn
    · exact (List.length_filter_le _ _).trans h.slots
    · rw [hconnecting]
      exact h.counted
  -- no client waits, or all slots were in use and at most one is free now
  refine hplaced.tryConnect ?_
  by_cases hw : w.factory.waitingConnects = []
  · left
    show w.factory.waitingConnects.length ≤ 1
    simp [hw]
  · right
    exact (h.waits hw).symm.trans_le (h.length_le id)

theorem Inv.step (h : Inv w) {e : Event ι} (hc : w.CancelsWaiting e) {w' : World ι} (hstep : w.step e = some w') :
    Inv w' := by
  cases e with
  | connect client =>
      rw [World.step] at hstep
      split at hstep
      · cases hstep
      · cases hstep
        exact h.connect client
  | cancelConnect client => exact h.cancelConnect hc hstep
  | connectionEstablished id allocated =>
      refine h.report ?_ hstep
      intro connector w
      cases allocated <;> rfl
  | connectionFailed id reason => exact h.report (fun _ _ => rfl) hstep
  | returned =>
      obtain ⟨id, hid, rfl⟩ := Option.map_eq_some_iff.mp hstep
      exact h.returned hid

/-- A connector that is cancelled is removed, and the factory below does not know it. -/
theorem Inv.not_good (h : Inv w) {e : Event ι} (hc : ¬ w.CancelsWaiting e) {w' : World ι}
    (hstep : w.step e = some w') : ¬ Good w' := by
  cases e with
  | cancelConnect client =>
      have hw : client ∉ w.factory.waitingConnects := hc
      rw [World.step] at hstep
      split at hstep
      next hpossible =>
          obtain ⟨connector, hconnecting, hclient⟩ := hpossible.resolve_left hw
          have hm := List.mem_of_mem_filter hconnecting
          rw [Factory.cancelConnect, if_neg hw, if_pos ⟨connector, hm, hclient⟩, Option.map_some, Option.some.injEq]
            at hstep
          subst hstep
          obtain ⟨removed, before, after, -, hremoved, hsplit, herase⟩ :=
            List.exists_of_eraseP (p := fun c => decide (c.clientFactory = client)) hm (by simpa using hclient)
          intro hgood
          by_cases hreporting : w.reporting = some removed.id
          · -- the connector that is calling its client goes, and the one that is connecting stays
            have hsame : (before ++ after).filter (fun c => w.reporting ≠ some c.id) = w.connecting := by
              rw [connecting, hsplit, List.filter_append, List.filter_append,
                List.filter_cons_of_neg (by simpa using hreporting)]
            have hbefore := h.counted client
            have hafter : w.requested.count client = w.results.count client + List.count client (client :: w.cancelled)
                + w.factory.waitingConnects.count client
                + (((w.factory.connectors.eraseP fun c => c.clientFactory = client).filter
                  fun c => w.reporting ≠ some c.id).map (·.clientFactory)).count client := hgood.counted client
            rw [herase, hsame, List.count_cons_self] at hafter
            omega
          · -- the factory below still has a report for the connector that goes
            have hwaits : removed.id ∈ w.attempts := by
              rw [h.attempts]
              refine List.mem_map_of_mem (List.mem_filter.mpr ⟨?_, by simpa using hreporting⟩)
              rw [hsplit]
              exact List.mem_append_right _ List.mem_cons_self
            obtain ⟨other, hother, he⟩ := hgood.reports removed.id hwaits
            have hd := h.distinct
            rw [hsplit, List.map_append, List.map_cons, List.nodup_middle, ← List.map_append, List.nodup_cons] at hd
            have hother : other ∈ before ++ after := herase ▸ hother
            exact hd.1 (he ▸ List.mem_map_of_mem hother)
      next => cases hstep
  | _ => exact absurd trivial hc

/-- **The factory keeps its promises in a run if and only if only waiting clients are cancelled in it.** A
client that is cancelled while it is connecting loses its connector, to which the factory below still
reports, and no other client gets its slot. -/
theorem good_iff_no_connecting_cancelled (maxConnectors : Nat) (events : List (Event ι)) (w : World ι)
    (h : EventSystem.run step (create maxConnectors) events = some w) :
    EventSystem.Always step Good (create maxConnectors) events
      ↔ EventSystem.Along step CancelsWaiting (create maxConnectors) events :=
  EventSystem.always_iff_along Inv (fun _ hw => hw.good) (fun _ _ _ hw hc hs => hw.step hc hs)
    (fun _ _ _ hw hc hs => hw.not_good hc hs) (inv_create maxConnectors) h

/-- The first of two clients is cancelled while it is connecting: the other one waits though there is no
connector, and the factory below has a report for the connector that was removed. -/
theorem not_good_of_connecting_cancelled :
    ¬ ∀ (maxConnectors : Nat) (events : List (Event Nat)) (w : World Nat),
      EventSystem.run step (create maxConnectors) events = some w → Good w := by
  intro hall
  have h := hall 1 [.connect 5, .connect 6, .cancelConnect 5] _ rfl
  have hwaits := h.waits (by decide)
  revert hwaits
  decide

/-- A client that waits is cancelled, and another one connects again inside the call that tells it that there
was no memory. -/
theorem good_iff_no_connecting_cancelled_run : ∃ w : World Nat,
    EventSystem.run step (create 1) [.connect 5, .connect 6, .connect 7, .cancelConnect 6, .connectionEstablished 0 false,
      .connect 5, .returned, .connectionEstablished 1 true, .returned, .connectionFailed 2 .refused, .returned] = some w
    ∧ EventSystem.Always step Good (create 1) [.connect 5, .connect 6, .connect 7, .cancelConnect 6,
      .connectionEstablished 0 false, .connect 5, .returned, .connectionEstablished 1 true, .returned,
      .connectionFailed 2 .refused, .returned]
    ∧ w.started = [5, 7, 5] ∧ w.results = [5, 7, 5] := by
  refine ⟨_, rfl, (good_iff_no_connecting_cancelled 1 _ _ rfl).mpr ?_, rfl, rfl⟩
  repeat refine EventSystem.along_cons rfl (by decide) ?_
  trivial

end World

end EmbeddedInfra.ConnectionFactoryMbedTls
