import EmbeddedInfra.Protobuf.EchoRuns

set_option autoImplicit false

/-! # Calls that nobody handles

A peer with another interface definition may call methods that are not known here. The generated `Handle` does
nothing for these, and `ExecuteMethod` nothing for a service that is not attached; nobody reads the argument then,
and the next call is read from its first byte. Echo stays in step when such calls are for services that are not
attached and have no argument.
-/

namespace EmbeddedInfra.Echo

open Streams Proto EventSystem

/-! ## The generated services -/

/-- The case of the switch in `Handle`. -/
def EchoService.method? (service : EchoService) (methodId : UInt32) : Option EchoMethod :=
  service.methods.find? fun method => method.methodId = methodId

/-- The method that a call is for. -/
def method? (services : List EchoService) (serviceId methodId : UInt32) : Option EchoMethod :=
  (services.find? fun service => service.serviceId = serviceId).bind fun service => service.method? methodId

/-- `HandleBody`: the argument is read when the method has a parameter. -/
def handleBody (services : List EchoService) (serviceId methodId : UInt32) (argument : StreamReader) :
    Option StreamReader :=
  match (method? services serviceId methodId).bind EchoMethod.parameter with
  | some parameter => (parameter.deserialize parameter.default argument).map Prod.snd
  | none => some argument

/-- Services with generated handlers. -/
def generatedHandlers (services : List EchoService) (during : Nat → List UInt32) : Handlers where
  handle := handleBody services
  during := during

def serviceIds (services : List EchoService) : List UInt32 := services.map EchoService.serviceId

/-- A handler consumes the call: there is a method for it, which reads the whole argument. -/
structure Handles (services : List EchoService) (call : Call) : Prop where
  method : (method? services call.serviceId call.methodId).isSome = true
  reads : (generatedHandlers services fun _ => []).ReadsArgument call

/-- The condition on a call that nobody handles. -/
def PassesUnread (services : List EchoService) (call : Call) : Prop :=
  call.serviceId ∉ serviceIds services ∧ call.argument = []

variable {services : List EchoService} {during : Nat → List UInt32} {calls : List Call}

theorem mem_serviceIds_of_method? {serviceId methodId : UInt32} (h : (method? services serviceId methodId).isSome = true) :
    serviceId ∈ serviceIds services := by
  rw [method?, Option.isSome_bind] at h
  cases hfind : services.find? fun service => service.serviceId = serviceId with
  | none => simp [hfind] at h
  | some service =>
      have hid : service.serviceId = serviceId := by simpa using List.find?_some hfind
      rw [← hid]
      exact List.mem_map_of_mem (List.mem_of_find?_eq_some hfind)

open Classical in
/-- The calls that a handler consumes. -/
noncomputable def handledCalls (services : List EchoService) (calls : List Call) : List Call :=
  calls.filter fun call => Handles services call

theorem consumes_of_unread (hcalls : ∀ call ∈ calls, call.WellFormed)
    (hunread : ∀ call ∈ calls, ¬ Handles services call → PassesUnread services call) :
    ∀ call ∈ calls, (generatedHandlers services during).Consumes (serviceIds services) call := by
  intro call hcall
  refine ⟨hcalls call hcall, ?_⟩
  by_cases hhandles : Handles services call
  · exact .inl ⟨mem_serviceIds_of_method? hhandles.method, hhandles.reads⟩
  · exact .inr (hunread call hcall hhandles)

/-- The calls for attached services are those that are consumed. -/
theorem filter_eq_handledCalls (hunread : ∀ call ∈ calls, ¬ Handles services call → PassesUnread services call) :
    (calls.filter fun call => call.serviceId ∈ serviceIds services) = handledCalls services calls := by
  apply List.filter_congr
  intro call hcall
  rw [decide_eq_decide]
  constructor
  · intro hattached
    by_contra hhandles
    exact (hunread call hcall hhandles).1 hattached
  · intro hhandles
    exact mem_serviceIds_of_method? hhandles.method

theorem handledCalls_append (first second : List Call) :
    handledCalls services (first ++ second) = handledCalls services first ++ handledCalls services second :=
  List.filter_append ..

theorem handledCalls_handledCalls (calls : List Call) :
    handledCalls services (handledCalls services calls) = handledCalls services calls := by
  rw [handledCalls, List.filter_eq_self]
  intro call hcall
  exact (List.mem_filter.mp hcall).2

/-! ## Runs -/

/-- Every method that was called is done, and nothing is scheduled. -/
def Receiver.AtRest (s : Receiver) : Prop := s.scheduled = 0 ∧ ∀ id, inProgress s.log id = false

/-- When all bytes have come in and everything is done, no call waits. -/
theorem Receiver.Delivers.waiting_nil {s : Receiver} {handled passed waiting : List Call} {arrived : List UInt8}
    (h : s.Delivers handled passed waiting arrived) (harrived : arrived = encodeCalls (passed ++ waiting))
    (hrest : s.AtRest) : waiting = [] := by
  have hreceived : s.received = encodeCalls waiting := by
    have hbytes := h.arrived
    rw [harrived, encodeCalls_append] at hbytes
    exact (List.append_cancel_left hbytes).symm
  cases waiting with
  | nil => rfl
  | cons call later =>
      have hcomplete : call.encode <+: s.received := by
        rw [hreceived, encodeCalls, List.flatMap_cons]
        exact List.prefix_append _ _
      rcases h.waits call later rfl hcomplete with hscheduled | ⟨-, hprogress⟩
      · exact absurd hrest.1 (Nat.ne_of_gt hscheduled)
      · rw [hrest.2] at hprogress
        cases hprogress

/-- The calls, and the bytes of them that come in during a run that ends in a state. -/
structure Serves (services : List EchoService) (calls : List Call) (during : Nat → List UInt32)
    (events : List ReceiverEvent) (s : Receiver) : Prop where
  bytes : events.flatMap ReceiverEvent.bytes <+: encodeCalls calls
  fits : Along (Receiver.step (generatedHandlers services during)) FitsReceived (Receiver.initial (serviceIds services)) events
  run : run (Receiver.step (generatedHandlers services during)) (Receiver.initial (serviceIds services)) events = some s

theorem Serves.delivers {events : List ReceiverEvent} {s : Receiver} (h : Serves services calls during events s)
    (hcalls : ∀ call ∈ calls, call.WellFormed)
    (hunread : ∀ call ∈ calls, ¬ Handles services call → PassesUnread services call) :
    ∃ passed waiting, calls = passed ++ waiting ∧
      s.Delivers (handledCalls services passed) passed waiting (events.flatMap ReceiverEvent.bytes) := by
  obtain ⟨future, hinv⟩ := inv_of_run (consumes_of_unread hcalls hunread) h.bytes h.fits h.run
  obtain ⟨passed, waiting, hsplit, harrived, haccounts, hsettled⟩ := hinv.accounts
  refine ⟨passed, waiting, hsplit, ?_⟩
  have hdelivers := delivers_of_accounts harrived haccounts hsettled
  rwa [filter_eq_handledCalls fun call hcall => hunread call (hsplit ▸ List.mem_append_left _ hcall)] at hdelivers

/-- What has been handled is a first part of what can be, and all of it in the end. -/
theorem Serves.handled {events : List ReceiverEvent} {s : Receiver} (h : Serves services calls during events s)
    (hcalls : ∀ call ∈ calls, call.WellFormed)
    (hunread : ∀ call ∈ calls, ¬ Handles services call → PassesUnread services call) :
    s.handled <+: handledCalls services calls ∧
      (events.flatMap ReceiverEvent.bytes = encodeCalls calls → s.AtRest → s.handled = handledCalls services calls) := by
  obtain ⟨passed, waiting, hsplit, hdelivers⟩ := h.delivers hcalls hunread
  rw [hdelivers.handled, hsplit, handledCalls_append]
  refine ⟨List.prefix_append _ _, ?_⟩
  intro harrived hrest
  rw [hdelivers.waiting_nil harrived hrest, handledCalls, handledCalls, List.filter_nil, List.append_nil]

/-- **Echo stays in step** when the calls that nobody handles are for services that are not attached and have no
argument: the other calls are handled as in a run over these alone. -/
theorem inStep_of_run {events : List ReceiverEvent} {s : Receiver} (h : Serves services calls during events s)
    (hcalls : ∀ call ∈ calls, call.WellFormed)
    (hunread : ∀ call ∈ calls, ¬ Handles services call → PassesUnread services call) :
    (∃ passed waiting, calls = passed ++ waiting ∧
      s.Delivers (handledCalls services passed) passed waiting (events.flatMap ReceiverEvent.bytes)) ∧
    ∀ during' events' s', Serves services (handledCalls services calls) during' events' s' →
      (s.handled <+: s'.handled ∨ s'.handled <+: s.handled) ∧
      (events.flatMap ReceiverEvent.bytes = encodeCalls calls → s.AtRest →
        events'.flatMap ReceiverEvent.bytes = encodeCalls (handledCalls services calls) → s'.AtRest →
        s.handled = s'.handled) := by
  refine ⟨h.delivers hcalls hunread, ?_⟩
  intro during' events' s' h'
  obtain ⟨hfirst, hall⟩ := h.handled hcalls hunread
  have hothers : ∀ call ∈ handledCalls services calls, call ∈ calls ∧ Handles services call := by
    intro call hcall
    have hmem := List.mem_filter.mp hcall
    exact ⟨hmem.1, by simpa using hmem.2⟩
  obtain ⟨hfirst', hall'⟩ := h'.handled (fun call hcall => hcalls call (hothers call hcall).1)
    (fun call hcall hno => absurd (hothers call hcall).2 hno)
  rw [handledCalls_handledCalls] at hfirst' hall'
  refine ⟨List.prefix_or_prefix_of_prefix hfirst hfirst', ?_⟩
  intro harrived hrest harrived' hrest'
  rw [hall harrived hrest, hall' harrived' hrest']

/-- A service with one method, which has no parameter. -/
def pingServices : List EchoService := [⟨"Service", 1, [⟨"ping", 1, none⟩]⟩]

theorem handles_ping : Handles pingServices ⟨1, 1, []⟩ := by
  refine ⟨rfl, ?_⟩
  intro lengths rest _ _
  exact ⟨0 :: lengths, rfl⟩

/-- The call of an unknown service comes before one that is handled. -/
def unknownService : List Call := [⟨2, 7, []⟩, ⟨1, 1, []⟩]

def unknownServiceEvents : List ReceiverEvent := [.dataReceived [2, 0x3a], .dataReceived [0, 1, 0x0a, 0], .methodDone 1]

def unknownServiceHandled : Receiver :=
  { services := [⟨1, false⟩], log := [.handle ⟨1, 1, []⟩, .methodDone 1] }

theorem serves_unknownService :
    Serves pingServices unknownService (fun _ => []) unknownServiceEvents unknownServiceHandled := by
  refine ⟨by decide, ?_, by decide⟩
  refine ⟨by unfold FitsReceived; decide, ?_⟩
  intro s hs
  cases hs
  refine ⟨by unfold FitsReceived; decide, ?_⟩
  intro s hs
  cases hs
  exact ⟨by unfold FitsReceived; decide, fun _ _ => trivial⟩

theorem unknownServiceHandled_atRest : unknownServiceHandled.AtRest := by
  refine ⟨rfl, ?_⟩
  intro id
  by_cases hid : 1 = id <;> simp [unknownServiceHandled, inProgress, Entry.progress, hid]

theorem handledCalls_unknownService : handledCalls pingServices unknownService = [⟨1, 1, []⟩] := by
  have hunknown : ¬ Handles pingServices ⟨2, 7, []⟩ := fun h => absurd h.1 (by decide)
  simp [handledCalls, unknownService, hunknown, handles_ping]

/-- The other call arrives alone. -/
theorem serves_ping :
    Serves pingServices (handledCalls pingServices unknownService) (fun _ => [])
      [.dataReceived [1, 0x0a, 0], .methodDone 1] unknownServiceHandled := by
  rw [handledCalls_unknownService]
  refine ⟨by decide, ⟨by unfold FitsReceived; decide, ?_⟩, by decide⟩
  intro s hs
  cases hs
  exact ⟨by unfold FitsReceived; decide, fun _ _ => trivial⟩

theorem inStep_of_run_unknownService :
    (∃ passed waiting, unknownService = passed ++ waiting ∧
      unknownServiceHandled.Delivers (handledCalls pingServices passed) passed waiting
        (unknownServiceEvents.flatMap ReceiverEvent.bytes)) ∧
    ∃ s', Serves pingServices (handledCalls pingServices unknownService) (fun _ => [])
        [.dataReceived [1, 0x0a, 0], .methodDone 1] s' ∧
      unknownServiceHandled.handled = s'.handled := by
  have hinStep := inStep_of_run serves_unknownService (by
    intro call hcall
    simp only [unknownService, List.mem_cons, List.not_mem_nil, or_false] at hcall
    rcases hcall with rfl | rfl <;> exact ⟨by decide, by decide⟩) (by
    intro call hcall hno
    simp only [unknownService, List.mem_cons, List.not_mem_nil, or_false] at hcall
    rcases hcall with rfl | rfl
    · exact ⟨by decide, rfl⟩
    · exact absurd handles_ping hno)
  refine ⟨hinStep.1, unknownServiceHandled, serves_ping, ?_⟩
  refine (hinStep.2 _ _ _ serves_ping).2 (by decide) unknownServiceHandled_atRest ?_ unknownServiceHandled_atRest
  rw [handledCalls_unknownService]
  decide

/-- The argument of a call that nobody handles is itself read as a call, and handled. -/
theorem not_inStep_of_run_argument :
    ¬ ∀ (services : List EchoService) (calls : List Call) (during : Nat → List UInt32) (events : List ReceiverEvent)
        (s : Receiver), Serves services calls during events s → (∀ call ∈ calls, call.WellFormed) →
      ∃ passed waiting, calls = passed ++ waiting ∧
        s.Delivers (handledCalls services passed) passed waiting (events.flatMap ReceiverEvent.bytes) := by
  intro hall
  have hserves : Serves pingServices [⟨2, 1, [1, 0x0a, 0]⟩] (fun _ => []) [.dataReceived [2, 0x0a, 3, 1, 0x0a, 0]]
      { services := [⟨1, true⟩], log := [.handle ⟨1, 1, []⟩] } :=
    ⟨by decide, ⟨by unfold FitsReceived; decide, fun _ _ => trivial⟩, by decide⟩
  obtain ⟨passed, waiting, hcalls, hdelivers⟩ := hall _ _ _ _ _ hserves (by
    intro call hcall
    rw [List.mem_singleton.mp hcall]
    exact ⟨by decide, by decide⟩)
  -- the call that was handled is none of those that were sent
  have hmem : (⟨1, 1, []⟩ : Call) ∈ handledCalls pingServices passed := by
    rw [← hdelivers.handled]
    exact List.mem_cons_self
  have hsent : (⟨1, 1, []⟩ : Call) ∈ [(⟨2, 1, [1, 0x0a, 0]⟩ : Call)] := by
    rw [hcalls]
    exact List.mem_append_left _ (List.mem_filter.mp hmem).1
  exact absurd hsent (by decide)

end EmbeddedInfra.Echo
