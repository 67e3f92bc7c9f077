import EmbeddedInfra.Lib.WaitingList
import EmbeddedInfra.Lib.EventSystem

set_option autoImplicit false

/-! # The HTTP client connector

`services::HttpClientConnectorImpl` has room for one client. It connects for one factory at a time;
the others wait until the attempt has failed or the client is gone. A factory may connect and cancel
from inside the callback that gives it its result.
-/

namespace EmbeddedInfra.HttpClientConnector

inductive ConnectFailReason
  | refused
  | connectionAllocationFailed
  | nameLookupFailed
  deriving DecidableEq, Repr

/-- The callback that a factory got. -/
inductive Outcome
  | established
  | failed (reason : ConnectFailReason)
  deriving DecidableEq, Repr

/-- `client` is a shared optional, `allocatable` when nobody has a pointer to the client. `attempts` are
the connections that the connector has asked the factory below it for, whose results are still to
come. The last members record what has happened: the requests and the attempts in their order, the
results, and the requests that were cancelled before they had one. -/
structure Connector (ι : Type) where
  clientObserverFactory : Option ι
  waitingClientObserverFactories : List ι
  allocatable : Bool
  attempts : Nat
  requested : List ι
  started : List ι
  results : List (ι × Outcome)
  cancelled : List ι

/-- What a factory may do from inside a callback. -/
inductive Operation (ι : Type)
  | connect (factory : ι)
  | cancelConnect (factory : ι)
  deriving DecidableEq

variable {ι : Type} [DecidableEq ι]

namespace Connector

def create : Connector ι where
  clientObserverFactory := none
  waitingClientObserverFactories := []
  allocatable := true
  attempts := 0
  requested := []
  started := []
  results := []
  cancelled := []

def tryConnectWaiting (c : Connector ι) : Connector ι :=
  match c.clientObserverFactory, c.waitingClientObserverFactories with
  | none, front :: rest =>
      if c.allocatable then
        { c with
          clientObserverFactory := some front
          waitingClientObserverFactories := rest
          attempts := c.attempts + 1
          started := c.started ++ [front] }
      else c
  | _, _ => c

/-- A factory that waits is in a list, so that it cannot be connected once more. -/
def connect (c : Connector ι) (factory : ι) : Option (Connector ι) :=
  if factory ∈ c.waitingClientObserverFactories then none
  else some ({ c with
    waitingClientObserverFactories := c.waitingClientObserverFactories ++ [factory]
    requested := c.requested ++ [factory] }).tryConnectWaiting

/-- The factory below forgets its attempt, if there is one. A factory that neither connects nor waits
cannot be cancelled. -/
def cancelConnect (c : Connector ι) (factory : ι) : Option (Connector ι) :=
  if c.clientObserverFactory = some factory then
    some ({ c with
      clientObserverFactory := none
      attempts := c.attempts - 1
      cancelled := if c.attempts = 0 then c.cancelled else factory :: c.cancelled }).tryConnectWaiting
  else if factory ∈ c.waitingClientObserverFactories then
    some ({ c with
      waitingClientObserverFactories := c.waitingClientObserverFactories.erase factory
      cancelled := factory :: c.cancelled }).tryConnectWaiting
  else none

def perform (c : Connector ι) : Operation ι → Option (Connector ι)
  | .connect factory => c.connect factory
  | .cancelConnect factory => c.cancelConnect factory

/-- The last pointer to the client is gone: `onAllocatable`. -/
def deallocate (c : Connector ι) : Connector ι := { c with allocatable := true }.tryConnectWaiting

/-- The factory performs the operations in its callback, and accepts the client with an observer or not.
If not, the client goes when the pointer to it leaves its scope. -/
def connectionEstablished (c : Connector ι) (inside : List (Operation ι)) (accepted : Bool) :
    Option (Connector ι) :=
  match c.clientObserverFactory, c.allocatable with
  | some factory, true => do
      let c := { c with allocatable := false, results := (factory, .established) :: c.results }
      let c ← EventSystem.run perform c inside
      let c := { c with clientObserverFactory := none }
      return if accepted then c else c.deallocate
  | _, _ => none

def connectionFailed (c : Connector ι) (reason : ConnectFailReason) (inside : List (Operation ι)) :
    Option (Connector ι) :=
  match c.clientObserverFactory with
  | some factory => do
      let c := { c with results := (factory, .failed reason) :: c.results }
      let c ← EventSystem.run perform c inside
      return { c with clientObserverFactory := none }.tryConnectWaiting
  | none => none

end Connector

/-! ## Runs -/

inductive Event (ι : Type)
  | connect (factory : ι)
  | cancelConnect (factory : ι)
  | connectionEstablished (inside : List (Operation ι)) (accepted : Bool)
  | connectionFailed (reason : ConnectFailReason) (inside : List (Operation ι))
  | clientReleased

namespace Connector

/-- The factory below gives one result for each attempt. -/
def step (c : Connector ι) : Event ι → Option (Connector ι)
  | .connect factory => c.connect factory
  | .cancelConnect factory => c.cancelConnect factory
  | .connectionEstablished inside accepted =>
      if c.attempts = 0 then none
      else { c with attempts := c.attempts - 1 }.connectionEstablished inside accepted
  | .connectionFailed reason inside =>
      if c.attempts = 0 then none
      else { c with attempts := c.attempts - 1 }.connectionFailed reason inside
  | .clientReleased => if c.allocatable then none else some c.deallocate

/-- What the connector is for. -/
structure Good (c : Connector ι) : Prop where
  single : c.attempts + (if c.allocatable then 0 else 1) ≤ 1
  expected : 0 < c.attempts → c.clientObserverFactory.isSome ∧ c.allocatable = true
  inOrder : (c.started ++ c.waitingClientObserverFactories).Sublist c.requested
  counted : ∀ factory, c.requested.count factory = (c.results.map Prod.fst).count factory
    + c.cancelled.count factory + c.waitingClientObserverFactories.count factory
    + c.clientObserverFactory.toList.count factory
  progress : ¬ (c.attempts = 0 ∧ c.allocatable = true ∧ c.waitingClientObserverFactories ≠ [])

/-- The requests of a list that are left after the operations. -/
def remaining : List ι → List (Operation ι) → List ι
  | requests, [] => requests
  | requests, .connect factory :: rest => remaining (requests ++ [factory]) rest
  | requests, .cancelConnect factory :: rest => remaining (requests.erase factory) rest

/-- If the callback for a failed attempt cancels the factory that it is for, no request is left when it
returns. -/
def LeavesNone (c : Connector ι) : Event ι → Prop
  | .connectionFailed _ inside => ∀ factory, c.clientObserverFactory = some factory →
      .cancelConnect factory ∈ inside →
      remaining (factory :: c.waitingClientObserverFactories) inside = []
  | _ => True

/-! ## The invariant -/

/-- The requests that have come to no end yet, in the order in which they are served. -/
def requests (c : Connector ι) : List ι := c.clientObserverFactory.toList ++ c.waitingClientObserverFactories

/-- What holds before a waiting factory is looked for. -/
structure Ready (c : Connector ι) : Prop where
  attempts_eq : c.attempts = c.clientObserverFactory.toList.length
  allocatable : c.clientObserverFactory.isSome → c.allocatable = true
  inOrder : (c.started ++ c.waitingClientObserverFactories).Sublist c.requested
  counted : ∀ factory, c.requested.count factory = (c.results.map Prod.fst).count factory
    + c.cancelled.count factory + c.requests.count factory

structure Inv (c : Connector ι) : Prop extends Ready c where
  progress : c.clientObserverFactory = none → c.allocatable = true → c.waitingClientObserverFactories = []

variable {c c' : Connector ι} {factory : ι} {op : Operation ι} {inside : List (Operation ι)}

theorem Inv.good (h : Inv c) : Good c := by
  have hattempts := h.attempts_eq
  refine ⟨?_, ?_, h.inOrder, ?_, ?_⟩
  · cases hc : c.clientObserverFactory with
    | none =>
        rw [hc] at hattempts
        split <;> simp_all
    | some factory =>
        rw [hc] at hattempts
        rw [h.allocatable (by rw [hc]; rfl)]
        simp_all
  · intro hpos
    cases hc : c.clientObserverFactory with
    | none => simp [hattempts, hc] at hpos
    | some factory => exact ⟨rfl, h.allocatable (by rw [hc]; rfl)⟩
  · intro factory
    rw [h.counted, requests, List.count_append]
    omega
  · rintro ⟨hzero, halloc, hwaiting⟩
    cases hc : c.clientObserverFactory with
    | none => exact hwaiting (h.progress hc halloc)
    | some factory => simp [hattempts, hc] at hzero

theorem inv_create : Inv (create : Connector ι) :=
  ⟨⟨rfl, nofun, List.Sublist.refl _, fun _ => rfl⟩, fun _ _ => rfl⟩

/-- A waiting factory is served when the connector is free. -/
theorem Ready.tryConnectWaiting (h : Ready c) : Inv c.tryConnectWaiting ∧ c.tryConnectWaiting.requests = c.requests := by
  unfold Connector.tryConnectWaiting
  split
  · next front rest hnone hwaiting =>
      split
      · next halloc =>
          refine ⟨⟨⟨?_, fun _ => halloc, ?_, ?_⟩, nofun⟩, ?_⟩
          · have := h.attempts_eq
            rw [hnone] at this
            simp [this]
          · have := h.inOrder
            rw [hwaiting] at this
            simpa using this
          · intro factory
            rw [h.counted factory]
            simp [requests, hnone, hwaiting]
          · simp [requests, hnone, hwaiting]
      · next halloc => exact ⟨⟨h, fun _ ha => absurd ha halloc⟩, rfl⟩
  · next hother =>
      refine ⟨⟨h, ?_⟩, rfl⟩
      intro hnone _
      cases hw : c.waitingClientObserverFactories with
      | nil => rfl
      | cons front rest => exact absurd hw (hother front rest hnone)

theorem Inv.connect (h : Inv c) (hc : c.connect factory = some c') :
    Inv c' ∧ c'.requests = c.requests ++ [factory] := by
  unfold Connector.connect at hc
  split at hc
  · cases hc
  · cases hc
    have hready : Ready { c with
        waitingClientObserverFactories := c.waitingClientObserverFactories ++ [factory]
        requested := c.requested ++ [factory] } := by
      refine ⟨h.attempts_eq, h.allocatable, ?_, ?_⟩
      · show (c.started ++ (c.waitingClientObserverFactories ++ [factory])).Sublist (c.requested ++ [factory])
        rw [← List.append_assoc]
        exact h.inOrder.append (List.Sublist.refl _)
      · intro other
        have := h.counted other
        simp only [requests, List.count_append] at this ⊢
        omega
    obtain ⟨hinv, hrequests⟩ := hready.tryConnectWaiting
    refine ⟨hinv, hrequests.trans ?_⟩
    simp [requests]

theorem Inv.cancelConnect (h : Inv c) (hc : c.cancelConnect factory = some c') :
    Inv c' ∧ c'.requests = c.requests.erase factory := by
  unfold Connector.cancelConnect at hc
  split at hc
  · next hcurrent =>
      cases hc
      have hone : c.attempts = 1 := by
        rw [h.attempts_eq, hcurrent]
        rfl
      have hready : Ready { c with
          clientObserverFactory := none
          attempts := c.attempts - 1
          cancelled := if c.attempts = 0 then c.cancelled else factory :: c.cancelled } := by
        refine ⟨?_, nofun, h.inOrder, ?_⟩
        · simp [hone]
        · intro other
          have := h.counted other
          simp only [requests, hcurrent, hone, Option.toList, List.count_append, List.count_cons, List.count_nil,
            one_ne_zero, if_false, List.nil_append] at this ⊢
          omega
      obtain ⟨hinv, hrequests⟩ := hready.tryConnectWaiting
      refine ⟨hinv, hrequests.trans ?_⟩
      simp [requests, hcurrent]
  · next hcurrent =>
      split at hc
      · next hmem =>
          cases hc
          have hne : ∀ other ∈ c.clientObserverFactory.toList, other ≠ factory := by
            intro other hm he
            apply hcurrent
            rw [← he]
            exact Option.mem_toList.mp hm
          have hready : Ready { c with
              waitingClientObserverFactories := c.waitingClientObserverFactories.erase factory
              cancelled := factory :: c.cancelled } := by
            refine ⟨h.attempts_eq, h.allocatable, ?_, ?_⟩
            · exact WaitingList.sublist_cancel h.inOrder
            · intro other
              have hcount := h.counted other
              have hmoved := WaitingList.count_cancel hmem c.cancelled other
              simp only [requests, List.count_append] at hcount ⊢
              omega
          obtain ⟨hinv, hrequests⟩ := hready.tryConnectWaiting
          refine ⟨hinv, hrequests.trans ?_⟩
          have hnot : factory ∉ c.clientObserverFactory.toList := fun hm => hne factory hm rfl
          simp only [requests]
          rw [List.erase_append_right _ hnot]
      · cases hc

theorem Inv.perform (h : Inv c) (hc : c.perform op = some c') :
    Inv c' ∧ c'.requests = remaining c.requests [op] := by
  cases op with
  | connect factory => exact h.connect hc
  | cancelConnect factory => exact h.cancelConnect hc

theorem Inv.run (h : Inv c) (hc : EventSystem.run Connector.perform c inside = some c') :
    Inv c' ∧ c'.requests = remaining c.requests inside := by
  induction inside generalizing c with
  | nil =>
      cases hc
      exact ⟨h, rfl⟩
  | cons op rest ih =>
      obtain ⟨m, hm, hrest⟩ := EventSystem.run_cons.mp hc
      obtain ⟨hinv, hrequests⟩ := h.perform hm
      obtain ⟨hinv', hrequests'⟩ := ih hinv hrest
      refine ⟨hinv', hrequests'.trans ?_⟩
      rw [hrequests]
      cases op <;> rfl

/-! ## Inside a callback -/

/-- The factory that has got its result is still the current one, or has been replaced by nobody. -/
structure Answered (c : Connector ι) : Prop where
  attempts_eq : c.attempts = 0
  inOrder : (c.started ++ c.waitingClientObserverFactories).Sublist c.requested
  counted : ∀ factory, c.requested.count factory = (c.results.map Prod.fst).count factory
    + c.cancelled.count factory + c.waitingClientObserverFactories.count factory

omit [DecidableEq ι] in
theorem tryConnectWaiting_of_isSome (h : c.clientObserverFactory = some factory) :
    c.tryConnectWaiting = c := by
  unfold Connector.tryConnectWaiting
  split
  · next hnone _ =>
      rw [h] at hnone
      cases hnone
  · rfl

omit [DecidableEq ι] in
theorem tryConnectWaiting_of_not_allocatable (h : c.allocatable = false) : c.tryConnectWaiting = c := by
  unfold Connector.tryConnectWaiting
  split
  · simp [h]
  · rfl

theorem Answered.push (h : Answered c) (factory : ι) : Answered { c with
    waitingClientObserverFactories := c.waitingClientObserverFactories ++ [factory]
    requested := c.requested ++ [factory] } := by
  refine ⟨h.attempts_eq, ?_, ?_⟩
  · show (c.started ++ (c.waitingClientObserverFactories ++ [factory])).Sublist (c.requested ++ [factory])
    rw [← List.append_assoc]
    exact h.inOrder.append (List.Sublist.refl _)
  · intro other
    have := h.counted other
    simp only [List.count_append] at this ⊢
    omega

theorem Answered.erase (h : Answered c) (hm : factory ∈ c.waitingClientObserverFactories) :
    Answered { c with
      waitingClientObserverFactories := c.waitingClientObserverFactories.erase factory
      cancelled := factory :: c.cancelled } := by
  refine ⟨h.attempts_eq, ?_, ?_⟩
  · exact WaitingList.sublist_cancel h.inOrder
  · intro other
    have hcount := h.counted other
    have hmoved := WaitingList.count_cancel hm c.cancelled other
    dsimp only
    omega

/-- Without a current factory the connector is in order again. -/
theorem Answered.ready (h : Answered c) : Ready { c with clientObserverFactory := none } := by
  refine ⟨h.attempts_eq, nofun, h.inOrder, ?_⟩
  intro factory
  have := h.counted factory
  simpa [requests] using this

/-- While the client exists, nobody is served. -/
theorem Answered.perform_of_not_allocatable (h : Answered c) (ha : c.allocatable = false)
    (hc : c.perform op = some c') : Answered c' ∧ c'.allocatable = false := by
  cases op with
  | connect factory =>
      rw [Connector.perform, Connector.connect] at hc
      split at hc
      · cases hc
      · rw [tryConnectWaiting_of_not_allocatable (by exact ha)] at hc
        cases hc
        exact ⟨h.push factory, ha⟩
  | cancelConnect factory =>
      rw [Connector.perform, Connector.cancelConnect] at hc
      split at hc
      · rw [tryConnectWaiting_of_not_allocatable (by exact ha), h.attempts_eq] at hc
        cases hc
        exact ⟨⟨rfl, h.inOrder, h.counted⟩, ha⟩
      · split at hc
        · next hm =>
            rw [tryConnectWaiting_of_not_allocatable (by exact ha)] at hc
            cases hc
            exact ⟨h.erase hm, ha⟩
        · cases hc

/-- In the callback for a failed attempt nobody is served either, before the factory cancels itself. -/
theorem Answered.run_failed (h : Answered c) {failed : ι} (hcurrent : c.clientObserverFactory = some failed)
    (ha : c.allocatable = true) (hc : EventSystem.run perform c inside = some c') :
    (.cancelConnect failed ∉ inside → Answered c' ∧ c'.allocatable = true)
    ∧ (.cancelConnect failed ∈ inside →
      Inv c' ∧ c'.requests = remaining (failed :: c.waitingClientObserverFactories) inside) := by
  induction inside generalizing c with
  | nil =>
      cases hc
      exact ⟨fun _ => ⟨h, ha⟩, nofun⟩
  | cons op rest ih =>
      obtain ⟨m, hm, hrest⟩ := EventSystem.run_cons.mp hc
      cases op with
      | connect factory =>
          rw [Connector.perform, Connector.connect] at hm
          split at hm
          · cases hm
          · rw [tryConnectWaiting_of_isSome (by exact hcurrent)] at hm
            cases hm
            have := ih (h.push factory) hcurrent ha hrest
            simpa [remaining] using this
      | cancelConnect factory =>
          by_cases he : factory = failed
          · subst he
            rw [Connector.perform, Connector.cancelConnect, if_pos hcurrent, h.attempts_eq] at hm
            cases hm
            refine ⟨fun hn => absurd List.mem_cons_self hn, fun _ => ?_⟩
            obtain ⟨hinv, hrequests⟩ := h.ready.tryConnectWaiting
            have hstate : { c with clientObserverFactory := none, attempts := 0 - 1, cancelled := c.cancelled }
                = { c with clientObserverFactory := none } := by
              have := h.attempts_eq
              cases c
              cases this
              rfl
            simp only [if_true, hstate] at hrest
            obtain ⟨hinv', hrequests'⟩ := hinv.run hrest
            refine ⟨hinv', hrequests'.trans ?_⟩
            rw [hrequests]
            simp [remaining, requests]
          · have hne : ¬ c.clientObserverFactory = some factory := by
              rw [hcurrent]
              exact fun hs => he (Option.some.inj hs).symm
            rw [Connector.perform, Connector.cancelConnect, if_neg hne] at hm
            split at hm
            · next hmem =>
                rw [tryConnectWaiting_of_isSome (by exact hcurrent)] at hm
                cases hm
                have := ih (h.erase hmem) hcurrent ha hrest
                simpa [remaining, he, Ne.symm he] using this
            · cases hm

omit [DecidableEq ι] in
theorem tryConnectWaiting_allocatable : c.tryConnectWaiting.allocatable = c.allocatable := by
  unfold Connector.tryConnectWaiting
  split
  · split <;> rfl
  · rfl

theorem perform_allocatable (hc : c.perform op = some c') : c'.allocatable = c.allocatable := by
  cases op with
  | connect factory =>
      rw [Connector.perform, Connector.connect] at hc
      split at hc
      · cases hc
      · cases hc
        exact tryConnectWaiting_allocatable
  | cancelConnect factory =>
      rw [Connector.perform, Connector.cancelConnect] at hc
      split at hc
      · cases hc
        exact tryConnectWaiting_allocatable
      · split at hc
        · cases hc
          exact tryConnectWaiting_allocatable
        · cases hc

theorem run_allocatable (hc : EventSystem.run perform c inside = some c') :
    c'.allocatable = c.allocatable :=
  EventSystem.run_invariant (fun m => m.allocatable = c.allocatable)
    (fun _ _ _ hm hop => (perform_allocatable hop).trans hm) hc rfl

/-! ## The events -/

/-- An attempt whose result comes is the one for the current factory, which has no result yet. -/
theorem Inv.expected (h : Inv c) (hpos : c.attempts ≠ 0) :
    ∃ factory, c.clientObserverFactory = some factory ∧ c.allocatable = true ∧
      ∀ outcome, Answered { c with
        clientObserverFactory := some factory
        attempts := c.attempts - 1
        results := (factory, outcome) :: c.results } := by
  have hattempts := h.attempts_eq
  cases hcurrent : c.clientObserverFactory with
  | none =>
      rw [hcurrent] at hattempts
      exact absurd hattempts hpos
  | some factory =>
      refine ⟨factory, rfl, h.allocatable (by rw [hcurrent]; rfl), ?_⟩
      intro outcome
      rw [hcurrent] at hattempts
      refine ⟨?_, h.inOrder, ?_⟩
      · simp [hattempts]
      · intro other
        have := h.counted other
        simp only [requests, hcurrent, Option.toList, List.count_append, List.count_cons, List.count_nil,
          List.map_cons] at this ⊢
        omega

theorem Inv.connectionEstablished (h : Inv c) (hpos : c.attempts ≠ 0) {accepted : Bool}
    (hc : { c with attempts := c.attempts - 1 }.connectionEstablished inside accepted = some c') : Inv c' := by
  obtain ⟨factory, hcurrent, halloc, hanswered⟩ := h.expected hpos
  simp only [Connector.connectionEstablished, hcurrent, halloc] at hc
  obtain ⟨m, hm, hc⟩ := Option.bind_eq_some_iff.mp hc
  have hfirst := hanswered .established
  have hrun : Answered m ∧ m.allocatable = false :=
    EventSystem.run_invariant (fun m => Answered m ∧ m.allocatable = false)
      (fun _ _ _ hs hop => hs.1.perform_of_not_allocatable hs.2 hop) hm
      ⟨{ hfirst with }, rfl⟩
  obtain ⟨hm, hnot⟩ := hrun
  cases accepted with
  | true =>
      cases hc
      refine ⟨hm.ready, ?_⟩
      intro _ ha
      exact absurd (hnot.symm.trans ha) Bool.false_ne_true
  | false =>
      cases hc
      have hready : Ready { m with clientObserverFactory := none, allocatable := true } :=
        { hm.ready with allocatable := nofun }
      exact hready.tryConnectWaiting.1

theorem Inv.connectionFailed (h : Inv c) (hpos : c.attempts ≠ 0) {reason : ConnectFailReason}
    (hleaves : c.LeavesNone (.connectionFailed reason inside))
    (hc : { c with attempts := c.attempts - 1 }.connectionFailed reason inside = some c') : Inv c' := by
  obtain ⟨factory, hcurrent, halloc, hanswered⟩ := h.expected hpos
  simp only [Connector.connectionFailed, hcurrent] at hc
  obtain ⟨m, hm, hc⟩ := Option.bind_eq_some_iff.mp hc
  cases hc
  obtain ⟨hkept, hcancelled⟩ := (hanswered (.failed reason)).run_failed rfl halloc hm
  by_cases hmem : .cancelConnect factory ∈ inside
  · obtain ⟨hinv, hrequests⟩ := hcancelled hmem
    have hempty : m.requests = [] := hrequests.trans (hleaves factory hcurrent hmem)
    have hnone : m.clientObserverFactory = none := by
      have := (List.append_eq_nil_iff.mp hempty).1
      simpa using this
    have hsame : { m with clientObserverFactory := none } = m := by
      cases m
      cases hnone
      rfl
    rw [hsame]
    exact hinv.toReady.tryConnectWaiting.1
  · exact (hkept hmem).1.ready.tryConnectWaiting.1

theorem Inv.deallocate (h : Inv c) (ha : c.allocatable = false) : Inv c.deallocate := by
  have hnone : c.clientObserverFactory.isSome → False := by
    intro hs
    exact absurd (ha.symm.trans (h.allocatable hs)) Bool.false_ne_true
  have hready : Ready { c with allocatable := true } :=
    { h with allocatable := fun _ => rfl }
  exact hready.tryConnectWaiting.1

theorem Inv.step (h : Inv c) {e : Event ι} (hleaves : c.LeavesNone e) (hc : c.step e = some c') : Inv c' := by
  cases e with
  | connect factory => exact (h.connect hc).1
  | cancelConnect factory => exact (h.cancelConnect hc).1
  | connectionEstablished inside accepted =>
      rw [Connector.step] at hc
      split at hc
      · cases hc
      · next hpos => exact h.connectionEstablished hpos hc
  | connectionFailed reason inside =>
      rw [Connector.step] at hc
      split at hc
      · cases hc
      · next hpos => exact h.connectionFailed hpos hleaves hc
  | clientReleased =>
      rw [Connector.step] at hc
      split at hc
      · cases hc
      · next ha =>
          cases hc
          exact h.deallocate (Bool.eq_false_iff.mpr ha)

/-- A factory that has been served from inside the callback is forgotten when the callback returns. -/
theorem Inv.not_good (h : Inv c) {e : Event ι} (hleaves : ¬ c.LeavesNone e) (hc : c.step e = some c') : ¬ Good c' := by
  cases e with
  | connectionFailed reason inside =>
      rw [Connector.step] at hc
      split at hc
      · cases hc
      · next hpos =>
          obtain ⟨factory, hcurrent, halloc, hanswered⟩ := h.expected hpos
          simp only [Connector.connectionFailed, hcurrent] at hc
          obtain ⟨m, hm, hc⟩ := Option.bind_eq_some_iff.mp hc
          cases hc
          obtain ⟨-, hcancelled⟩ := (hanswered (.failed reason)).run_failed rfl halloc hm
          unfold LeavesNone at hleaves
          push Not at hleaves
          obtain ⟨other, hother, hmem, hleft⟩ := hleaves
          cases hcurrent.symm.trans hother
          obtain ⟨hinv, hrequests⟩ := hcancelled hmem
          have halloc' : m.allocatable = true := (run_allocatable hm).trans halloc
          -- somebody is served at the end of the callback
          obtain ⟨served, hserved⟩ : ∃ served, m.clientObserverFactory = some served := by
            cases hs : m.clientObserverFactory with
            | some served => exact ⟨served, rfl⟩
            | none =>
                have hwaiting := hinv.progress hs halloc'
                refine absurd ?_ hleft
                rw [← hrequests, requests, hs, hwaiting]
                rfl
          have hone : m.attempts = 1 := by
            rw [hinv.attempts_eq, hserved]
            rfl
          intro hgood
          cases hw : m.waitingClientObserverFactories with
          | nil =>
              have hcount := hgood.counted served
              have hcount' := hinv.counted served
              simp [Connector.tryConnectWaiting, hw] at hcount
              simp [requests, hserved, hw] at hcount'
              omega
          | cons front rest =>
              have hsingle := hgood.single
              simp [Connector.tryConnectWaiting, hw, halloc', hone] at hsingle
  | _ => exact absurd trivial hleaves

/-- **The connector serves its factories in a run if and only if no callback for a failed attempt, after
cancelling its own factory, leaves another one to be served.** The connector forgets the factory that
is served from inside the callback. -/
theorem good_iff_leavesNone (events : List (Event ι)) (c : Connector ι)
    (h : EventSystem.run step create events = some c) :
    EventSystem.Always step Good create events ↔ EventSystem.Along step LeavesNone create events :=
  EventSystem.always_iff_along Inv (fun _ hc => hc.good) (fun _ _ _ hc hl hs => hc.step hl hs)
    (fun _ _ _ hc hl hs => hc.not_good hl hs) inv_create h

/-- Factory 6 waits while 5 connects; 5 cancels itself when its attempt fails. The attempt for 6 goes
on, without its factory. -/
theorem not_good_of_cancel_inside : ¬ ∀ (events : List (Event Nat)) (c : Connector Nat),
    EventSystem.run step create events = some c → Good c := by
  intro hall
  have h := hall [.connect 5, .connect 6, .connectionFailed .refused [.cancelConnect 5]] _ rfl
  have hexpected := (h.expected (by decide)).1
  revert hexpected
  decide

/-- Factory 5 connects again when its attempt fails, and 6 is served before it. -/
theorem good_iff_leavesNone_run : ∃ c : Connector Nat,
    EventSystem.Always step Good create
      [.connect 5, .connect 6, .connectionFailed .refused [.connect 5], .connectionEstablished [] true]
    ∧ EventSystem.run step create
      [.connect 5, .connect 6, .connectionFailed .refused [.connect 5], .connectionEstablished [] true] = some c
    ∧ c.waitingClientObserverFactories = [5] ∧ c.results = [(6, .established), (5, .failed .refused)] := by
  refine ⟨_, (good_iff_leavesNone _ _ rfl).mpr ?_, rfl, rfl, rfl⟩
  refine EventSystem.along_cons rfl trivial (EventSystem.along_cons rfl trivial (EventSystem.along_cons rfl ?_ ?_))
  · intro factory hcurrent hmem
    cases hcurrent
    revert hmem
    decide
  · exact EventSystem.along_cons rfl trivial trivial

end Connector

end EmbeddedInfra.HttpClientConnector
