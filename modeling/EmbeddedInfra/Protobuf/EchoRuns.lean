import EmbeddedInfra.Protobuf.Echo

set_option autoImplicit false

/-! # Runs of the receiving half of Echo

Calls come in over any number of events, in parts of any size. The calls that have come in are those that
have been read, in their order, and those that wait (`Accounts`); the first one that waits has not come in
completely, or its service is busy, or a call of `DataReceived` is scheduled. A call to a service that is not
attached is passed over, which leaves Echo in step only when it has no argument.
-/

namespace EmbeddedInfra.Echo

open Streams Proto EventSystem ReceiverEvent

/-! ## What the log says -/

/-- The call that is handled. -/
def Entry.call? : Entry → Option Call
  | .handle call => some call
  | .methodDone _ => none

/-- The calls that have been handled, in their order. -/
def Receiver.handled (s : Receiver) : List Call := s.log.filterMap Entry.call?

/-- Whether a service has a call in progress after an entry. -/
def Entry.progress (serviceId : UInt32) (before : Bool) : Entry → Bool
  | .handle call => if call.serviceId = serviceId then true else before
  | .methodDone id => if id = serviceId then false else before

/-- A call of the service has been handled and is not done. -/
def inProgress (log : List Entry) (serviceId : UInt32) : Bool :=
  log.foldl (Entry.progress serviceId) false

/-- No call is handled while an earlier one of the same service is in progress. -/
def Alternates (log : List Entry) : Prop :=
  ∀ earlier call, earlier ++ [.handle call] <+: log → inProgress earlier call.serviceId = false

theorem inProgress_append (log : List Entry) (entry : Entry) (serviceId : UInt32) :
    inProgress (log ++ [entry]) serviceId = entry.progress serviceId (inProgress log serviceId) := by
  simp [inProgress]

theorem Alternates.append {log : List Entry} {entry : Entry} (h : Alternates log)
    (hentry : ∀ call, entry = .handle call → inProgress log call.serviceId = false) : Alternates (log ++ [entry]) := by
  intro earlier call hp
  rcases List.prefix_concat_iff.mp hp with heq | hp
  · obtain ⟨rfl, hlast⟩ := List.append_inj' heq rfl
    exact hentry call (List.singleton_injective hlast).symm
  · exact h earlier call hp

/-! ## What Echo promises -/

/-- **Calls are delivered once and in order.** Of the calls that have come in, some have been passed, and of these
`handled` have been handled, in their order; the others wait. No call has been handled while an earlier one of its
service was in progress, or before it had come in completely, and a call that has come in waits only for its own
service, or for a `DataReceived` that is scheduled. -/
structure Receiver.Delivers (s : Receiver) (handled passed waiting : List Call) (arrived : List UInt8) : Prop where
  handled : s.handled = handled
  arrived : arrived = encodeCalls passed ++ s.received
  waits : ∀ call rest, waiting = call :: rest → call.encode <+: s.received →
    0 < s.scheduled ∨ (s.serviceBusy = some call.serviceId ∧ inProgress s.log call.serviceId = true)
  alternates : Alternates s.log
  aborted : s.aborted = false

/-! ## The invariant -/

/-- The call leaves nothing unread: its handler reads the argument, or there is no service and no argument. -/
def Handlers.Consumes (h : Handlers) (attached : List UInt32) (call : Call) : Prop :=
  call.WellFormed ∧ ((call.serviceId ∈ attached ∧ h.ReadsArgument call) ∨ (call.serviceId ∉ attached ∧ call.argument = []))

/-- The calls that have been passed and those that wait; `future` has not come in yet. -/
structure Accounts (attached : List UInt32) (passed waiting : List Call) (future : List UInt8) (s : Receiver) : Prop where
  ids : s.services.map Service.serviceId = attached
  flags : ∀ service ∈ s.services, service.inProgress = inProgress s.log service.serviceId
  handled : s.handled = passed.filter fun call => call.serviceId ∈ attached
  alternates : Alternates s.log
  bytes : s.received ++ future = encodeCalls waiting
  size : s.received.length < 2 ^ 32
  aborted : s.aborted = false
  busy : ∀ id ∈ s.serviceBusy, inProgress s.log id = true ∧
    ∃ call rest, waiting = call :: rest ∧ call.serviceId = id ∧ call.encode <+: s.received

/-- Nothing is left to do before something happens. -/
def Settled (waiting : List Call) (s : Receiver) : Prop :=
  s.serviceBusy = none → ∀ call rest, waiting = call :: rest → ¬ call.encode <+: s.received

variable {h : Handlers} {attached : List UInt32} {passed waiting : List Call} {future : List UInt8} {s : Receiver}

/-! ## MethodDone -/

theorem methodDone_log (s : Receiver) (id : UInt32) : (s.methodDone id).log = s.log ++ [.methodDone id] := by
  rw [Receiver.methodDone]
  split <;> rfl

theorem methodDone_received (s : Receiver) (id : UInt32) : (s.methodDone id).received = s.received := by
  rw [Receiver.methodDone]
  split <;> rfl

theorem methodDone_services (s : Receiver) (id : UInt32) : (s.methodDone id).services =
    s.services.map fun service => if service.serviceId = id then { service with inProgress := false } else service := by
  rw [Receiver.methodDone]
  split <;> rfl

theorem Accounts.methodDone (hs : Accounts attached passed waiting future s) (id : UInt32) :
    Accounts attached passed waiting future (s.methodDone id) := by
  constructor
  · rw [methodDone_services, ← hs.ids, List.map_map]
    apply List.map_congr_left
    intro service _
    show (if service.serviceId = id then _ else service : Service).serviceId = service.serviceId
    split <;> rfl
  · rw [methodDone_services, methodDone_log]
    intro service hservice
    obtain ⟨before, hbefore, rfl⟩ := List.mem_map.mp hservice
    have hflag := hs.flags before hbefore
    rw [inProgress_append, Entry.progress]
    by_cases hid : before.serviceId = id
    · simp [hid]
    · simp [hid, hflag, Ne.symm hid]
  · rw [Receiver.handled, methodDone_log, List.filterMap_append, ← hs.handled]
    simp [Receiver.handled, Entry.call?]
  · rw [methodDone_log]
    exact hs.alternates.append (by nofun)
  · rw [methodDone_received]
    exact hs.bytes
  · rw [methodDone_received]
    exact hs.size
  · rw [Receiver.methodDone]
    split <;> exact hs.aborted
  · intro id' hid'
    have hother : id' ≠ id ∧ s.serviceBusy = some id' := by
      rw [Receiver.methodDone] at hid'
      split at hid'
      · cases hid'
      case isFalse hnot =>
        refine ⟨?_, hid'⟩
        rintro rfl
        exact hnot hid'
    obtain ⟨hbusy, hcall⟩ := hs.busy id' hother.2
    rw [methodDone_log, methodDone_received, inProgress_append, Entry.progress, if_neg (Ne.symm hother.1)]
    exact ⟨hbusy, hcall⟩

/-- While no service is busy, `MethodDone` only changes flags. -/
theorem foldl_methodDone {passed waiting : List Call} (hs : Accounts attached passed waiting future s)
    (hbusy : s.serviceBusy = none) (dones : List UInt32) :
    Accounts attached passed waiting future (dones.foldl Receiver.methodDone s) ∧
      (dones.foldl Receiver.methodDone s).serviceBusy = none ∧
      (dones.foldl Receiver.methodDone s).received = s.received ∧
      (dones.foldl Receiver.methodDone s).scheduled = s.scheduled := by
  induction dones generalizing s with
  | nil => exact ⟨hs, hbusy, rfl, rfl⟩
  | cons id dones ih =>
      have hfree : (s.methodDone id).serviceBusy = none ∧ (s.methodDone id).scheduled = s.scheduled := by
        simp [Receiver.methodDone, hbusy]
      obtain ⟨haccounts, hnone, hreceived, hscheduled⟩ := ih (hs.methodDone id) hfree.1
      exact ⟨haccounts, hnone, hreceived.trans (methodDone_received s id), hscheduled.trans hfree.2⟩

/-! ## One turn of the loop -/

theorem argumentBytes_eq {lengths : List Nat} {argument rest : List UInt8}
    (hcovers : StreamReader.Covers lengths (argument ++ rest) argument.length)
    (hsize : (argument ++ rest).length < 2 ^ 32) :
    Receiver.argumentBytes { lengths := argument.length :: lengths, remaining := argument ++ rest } = argument := by
  rw [Receiver.argumentBytes, StreamReader.available_cons hcovers hsize, List.take_left]

section Turn

variable {call : Call} {later : List Call} (hs : Accounts attached passed (call :: later) future s)
  (hcomplete : call.encode <+: s.received)
include hs hcomplete

/-- What remains when a call has been taken off. -/
theorem Accounts.rest : ∃ rest, s.received = call.encode ++ rest ∧ rest ++ future = encodeCalls later := by
  obtain ⟨rest, hrest⟩ := hcomplete
  refine ⟨rest, hrest.symm, ?_⟩
  have hbytes := hs.bytes
  rw [← hrest, encodeCalls, List.flatMap_cons, List.append_assoc] at hbytes
  exact List.append_cancel_left hbytes

end Turn

/-- A call is passed: its bytes are acknowledged. -/
theorem Accounts.pass {call : Call} {later : List Call} {rest : List UInt8}
    (hs : Accounts attached passed (call :: later) future s) (hreceived : s.received = call.encode ++ rest)
    (hrest : rest ++ future = encodeCalls later) (hbusy : s.serviceBusy = none) (hother : call.serviceId ∉ attached) :
    Accounts attached (passed ++ [call]) later future { s with received := rest } := by
  have hsize := hs.size
  rw [hreceived, List.length_append] at hsize
  refine ⟨hs.ids, hs.flags, ?_, hs.alternates, hrest, by show rest.length < _; omega, hs.aborted, by simp [hbusy]⟩
  rw [List.filter_append, ← hs.handled]
  simp [hother, Receiver.handled]

/-- A call is handled. -/
theorem Accounts.handle {call : Call} {later : List Call} {rest : List UInt8}
    (hs : Accounts attached passed (call :: later) future s) (hreceived : s.received = call.encode ++ rest)
    (hrest : rest ++ future = encodeCalls later) (hbusy : s.serviceBusy = none) (hid : call.serviceId ∈ attached)
    (hfree : inProgress s.log call.serviceId = false) :
    Accounts attached (passed ++ [call]) later future
      { s with services := s.services.map fun service =>
                 if service.serviceId = call.serviceId then { service with inProgress := true } else service
               log := s.log ++ [.handle call]
               received := rest } := by
  have hsize := hs.size
  rw [hreceived, List.length_append] at hsize
  refine ⟨?_, ?_, ?_, hs.alternates.append ?_, hrest, by show rest.length < _; omega, hs.aborted, by simp [hbusy]⟩
  · rw [← hs.ids, List.map_map]
    apply List.map_congr_left
    intro service _
    show (if service.serviceId = call.serviceId then _ else service : Service).serviceId = service.serviceId
    split <;> rfl
  · intro service hservice
    obtain ⟨before, hbefore, rfl⟩ := List.mem_map.mp hservice
    have hflag := hs.flags before hbefore
    rw [inProgress_append, Entry.progress]
    by_cases hsame : before.serviceId = call.serviceId
    · simp [hsame]
    · simp [hsame, hflag, Ne.symm hsame]
  · rw [List.filter_append, ← hs.handled]
    simp [hid, Receiver.handled, Entry.call?]
  · intro other hother
    cases hother
    exact hfree

theorem foldl_methodDone_received (dones : List UInt32) (s : Receiver) (received : List UInt8) :
    dones.foldl Receiver.methodDone { s with received := received } =
      { dones.foldl Receiver.methodDone s with received := received } := by
  induction dones generalizing s with
  | nil => rfl
  | cons id dones ih =>
      have hstep : Receiver.methodDone { s with received := received } id =
          { s.methodDone id with received := received } := by
        simp only [Receiver.methodDone]
        split <;> rfl
      rw [List.foldl_cons, List.foldl_cons, hstep, ih]

/-- What the loop does with a call that has come in: its service is busy, or the call is passed and the loop goes
on with the rest. -/
theorem dataReceivedFrom_complete {call : Call} {later : List Call} (turns : Nat)
    (hs : Accounts attached passed (call :: later) future s) (hconsumes : h.Consumes attached call)
    (hbusy : s.serviceBusy = none) (hcomplete : call.encode <+: s.received) :
    (call.serviceId ∈ attached ∧ inProgress s.log call.serviceId = true ∧
      Receiver.dataReceivedFrom h (turns + 1) s = { s with serviceBusy := some call.serviceId }) ∨
    ∃ s₁, Accounts attached (passed ++ [call]) later future s₁ ∧ s₁.serviceBusy = none ∧ s₁.scheduled = s.scheduled ∧
      s₁.received.length < s.received.length ∧
      Receiver.dataReceivedFrom h (turns + 1) s =
        if s₁.received.isEmpty then s₁ else Receiver.dataReceivedFrom h turns s₁ := by
  obtain ⟨hcall, hargument⟩ := hconsumes
  obtain ⟨rest, hreceived, hrest⟩ := hs.rest hcomplete
  have hsize := hs.size
  rw [hreceived] at hsize
  obtain ⟨lengths, hparse, hcovers⟩ := parseCall_encode hcall hsize
  have hshort : rest.length < s.received.length := by
    have hpos := length_varIntBytes call.serviceId.toNat
    rw [hreceived, List.length_append, Call.encode, List.length_append]
    omega
  have hrestSize : (call.argument ++ rest).length < 2 ^ 32 := by
    have hle := length_payload_le call.methodId (.bytes call.argument)
    simp only [Value.payload] at hle
    simp only [Call.encode, List.length_append] at hsize ⊢
    omega
  rw [Receiver.dataReceivedFrom, hbusy, hreceived, hparse]
  simp only [Option.isSome_none, Bool.false_eq_true, if_false]
  cases hfind : s.services.find? fun service => service.serviceId = call.serviceId with
  | none =>
      have hother : call.serviceId ∉ attached := by
        rw [← hs.ids]
        intro hmem
        obtain ⟨service, hservice, hid⟩ := List.mem_map.mp hmem
        simpa [hid] using List.find?_eq_none.mp hfind service hservice
      have hnone : call.argument = [] := by
        rcases hargument with ⟨hid, -⟩ | ⟨-, hnone⟩
        · exact absurd hid hother
        · exact hnone
      refine .inr ⟨{ s with received := rest }, hs.pass hreceived hrest hbusy hother, hbusy, rfl, ?_, ?_⟩
      · exact hreceived ▸ hshort
      · simp [Receiver.executeMethod, hfind, hbusy, hnone]
  | some service =>
      have hservice := List.mem_of_find?_eq_some hfind
      have hid : service.serviceId = call.serviceId := by simpa using List.find?_some hfind
      have hattached : call.serviceId ∈ attached := by
        rw [← hs.ids, ← hid]
        exact List.mem_map_of_mem hservice
      have hreads : h.ReadsArgument call := by
        rcases hargument with ⟨-, hreads⟩ | ⟨hother, -⟩
        · exact hreads
        · exact absurd hattached hother
      have hflag := hs.flags service hservice
      rw [hid] at hflag
      cases hprogress : inProgress s.log call.serviceId with
      | true =>
          rw [hprogress] at hflag
          refine .inl ⟨hattached, rfl, ?_⟩
          simp [Receiver.executeMethod, hfind, hflag, hreceived]
      | false =>
          rw [hprogress] at hflag
          obtain ⟨lengths', hhandle⟩ := hreads lengths rest hcovers hrestSize
          have hhandled := hs.handle hreceived hrest hbusy hattached hprogress
          obtain ⟨haccounts, hfree, hrest', hscheduled⟩ :=
            foldl_methodDone hhandled hbusy (h.during (s.log.countP Entry.isHandle))
          refine .inr ⟨_, haccounts, hfree, hscheduled, ?_, ?_⟩
          · rw [hrest', ← hreceived]
            exact hshort
          · -- the bytes are acknowledged after the handler, but that makes no difference to `MethodDone`
            have hack := foldl_methodDone_received (h.during (s.log.countP Entry.isHandle))
              { s with services := s.services.map fun service =>
                         if service.serviceId = call.serviceId then { service with inProgress := true } else service
                       log := s.log ++ [.handle call] } rest
            simp only [hack] at hfree ⊢
            simp [Receiver.executeMethod, hfind, hflag, argumentBytes_eq hcovers hrestSize, hhandle, hfree]

/-! ## The loop -/

/-- A call that has not come in is left alone. -/
theorem dataReceivedFrom_incomplete {turns : Nat} (hs : Accounts attached passed waiting future s)
    (hcalls : ∀ call ∈ waiting, call.WellFormed)
    (hincomplete : ∀ call rest, waiting = call :: rest → ¬ call.encode <+: s.received) :
    Receiver.dataReceivedFrom h (turns + 1) s = s := by
  have hparse : parseCall s.received = .incomplete := by
    have hbytes := hs.bytes
    cases waiting with
    | nil =>
        rw [(List.append_eq_nil_iff.mp hbytes).1]
        exact parseCall_nil
    | cons call later =>
        rw [encodeCalls, List.flatMap_cons] at hbytes
        have hnot := hincomplete call later rfl
        have hshort : s.received.length < call.encode.length := by
          by_contra hlong
          exact hnot (List.prefix_of_prefix_length_le ⟨_, rfl⟩ ⟨future, hbytes⟩ (Nat.not_lt.mp hlong))
        have htake : s.received = call.encode.take s.received.length := by
          have hfirst := congrArg (List.take s.received.length) hbytes
          rwa [List.take_left, List.take_append_of_le_length (le_of_lt hshort)] at hfirst
        rw [htake]
        exact parseCall_truncated (hcalls call List.mem_cons_self) hshort hs.size
  rw [Receiver.dataReceivedFrom, hparse]
  split <;> rfl

theorem encode_ne_nil (call : Call) : call.encode ≠ [] := by
  have hpos := length_varIntBytes call.serviceId.toNat
  intro hnil
  have hlength := congrArg List.length hnil
  rw [Call.encode, List.length_append, List.length_nil] at hlength
  omega

/-- **The loop passes the calls that have come in**, until one has not or its service is busy. -/
theorem dataReceivedFrom_spec (turns : Nat) (hs : Accounts attached passed waiting future s)
    (hcalls : ∀ call ∈ waiting, h.Consumes attached call) (hturns : s.received.length < turns) :
    ∃ more waiting', waiting = more ++ waiting' ∧
      Accounts attached (passed ++ more) waiting' future (Receiver.dataReceivedFrom h turns s) ∧
      Settled waiting' (Receiver.dataReceivedFrom h turns s) ∧
      (Receiver.dataReceivedFrom h turns s).scheduled = s.scheduled := by
  induction turns generalizing s passed waiting with
  | zero => omega
  | succ turns ih =>
      cases hbusy : s.serviceBusy with
      | some id =>
          have hsame : Receiver.dataReceivedFrom h (turns + 1) s = s := by
            rw [Receiver.dataReceivedFrom, hbusy]
            rfl
          rw [hsame]
          exact ⟨[], waiting, rfl, by simpa using hs, by simp [Settled, hbusy], rfl⟩
      | none =>
          by_cases hincomplete : ∀ call rest, waiting = call :: rest → ¬ call.encode <+: s.received
          · rw [dataReceivedFrom_incomplete hs (fun call hcall => (hcalls call hcall).1) hincomplete]
            exact ⟨[], waiting, rfl, by simpa using hs, fun _ => hincomplete, rfl⟩
          · push Not at hincomplete
            obtain ⟨call, later, rfl, hcomplete⟩ := hincomplete
            rcases dataReceivedFrom_complete turns hs (hcalls call List.mem_cons_self) hbusy hcomplete with
              ⟨hattached, hprogress, hresult⟩ | ⟨s₁, hs₁, hbusy₁, hscheduled₁, hshort, hresult⟩
            · rw [hresult]
              refine ⟨[], call :: later, rfl, ?_, by simp [Settled], rfl⟩
              rw [List.append_nil]
              refine { hs with busy := ?_ }
              intro id hid
              cases hid
              exact ⟨hprogress, call, later, rfl, rfl, hcomplete⟩
            · rw [hresult]
              by_cases hempty : s₁.received = []
              · refine ⟨[call], later, rfl, ?_, ?_, ?_⟩ <;> rw [if_pos (by simpa using hempty)]
                · exact hs₁
                · intro _ next rest _ hnext
                  rw [hempty, List.prefix_nil] at hnext
                  exact absurd hnext (encode_ne_nil next)
                · exact hscheduled₁
              · rw [if_neg (by simpa using hempty)]
                obtain ⟨more, waiting', hmore, haccounts, hsettled, hscheduled⟩ :=
                  ih hs₁ (fun call hcall => hcalls call (List.mem_cons_of_mem _ hcall)) (by omega)
                refine ⟨call :: more, waiting', by rw [hmore]; rfl, ?_, hsettled, hscheduled.trans hscheduled₁⟩
                rwa [List.append_assoc] at haccounts

theorem isPrefix_handled_dataReceivedFrom (turns : Nat) (hs : Accounts attached passed waiting future s)
    (hcalls : ∀ call ∈ waiting, h.Consumes attached call) (hturns : s.received.length < turns) :
    s.handled <+: (Receiver.dataReceivedFrom h turns s).handled := by
  obtain ⟨more, waiting', -, haccounts, -⟩ := dataReceivedFrom_spec turns hs hcalls hturns
  rw [hs.handled, haccounts.handled, List.filter_append]
  exact List.prefix_append _ _

/-- **A call that was left for its service is handled after `MethodDone`**, by the call of `DataReceived` that this
schedules. -/
theorem Accounts.deferred {id : UInt32} (hs : Accounts attached passed waiting future s)
    (hcalls : ∀ call ∈ waiting, h.Consumes attached call) (hbusy : s.serviceBusy = some id) :
    ∃ call rest s', waiting = call :: rest ∧
      run (Receiver.step h) s [.methodDone id, .scheduledDataReceived] = some s' ∧
      (passed ++ [call]).filter (fun call => call.serviceId ∈ attached) <+: s'.handled := by
  obtain ⟨-, call, later, rfl, rfl, hcomplete⟩ := hs.busy id hbusy
  have hfree : (s.methodDone call.serviceId).serviceBusy = none := by simp [Receiver.methodDone, hbusy]
  have hscheduled : (s.methodDone call.serviceId).scheduled = s.scheduled + 1 := by simp [Receiver.methodDone, hbusy]
  have hdone := hs.methodDone call.serviceId
  -- the state in which `DataReceived` is called
  have hready : Accounts attached passed (call :: later) future
      { s.methodDone call.serviceId with scheduled := s.scheduled } :=
    { hdone with }
  refine ⟨call, later, Receiver.dataReceived h { s.methodDone call.serviceId with scheduled := s.scheduled }, rfl,
    by simp [run, Receiver.step, hscheduled], ?_⟩
  have hcomplete' : call.encode <+: (s.methodDone call.serviceId).received := by
    rw [methodDone_received]
    exact hcomplete
  rcases dataReceivedFrom_complete (s.methodDone call.serviceId).received.length hready
      (hcalls call List.mem_cons_self) hfree hcomplete' with
    ⟨-, hprogress, -⟩ | ⟨s₁, hs₁, -, -, hshort, hresult⟩
  · rw [methodDone_log, inProgress_append] at hprogress
    simp [Entry.progress] at hprogress
  · rw [Receiver.dataReceived, hresult, ← hs₁.handled]
    split
    · exact List.prefix_rfl
    · exact isPrefix_handled_dataReceivedFrom _ hs₁ (fun call hcall => hcalls call (List.mem_cons_of_mem _ hcall)) hshort

/-! ## Runs -/

/-- What holds between the events. -/
structure Inv (attached : List UInt32) (calls : List Call) (arrived future : List UInt8) (s : Receiver) : Prop where
  accounts : ∃ passed waiting, calls = passed ++ waiting ∧ arrived = encodeCalls passed ++ s.received ∧
    Accounts attached passed waiting future s ∧ (s.scheduled = 0 → Settled waiting s)

variable {calls : List Call} {arrived : List UInt8} {s' : Receiver}

theorem encodeCalls_append (first second : List Call) :
    encodeCalls (first ++ second) = encodeCalls first ++ encodeCalls second := List.flatMap_append

theorem delivers_of_accounts (harrived : arrived = encodeCalls passed ++ s.received)
    (haccounts : Accounts attached passed waiting future s) (hsettled : s.scheduled = 0 → Settled waiting s) :
    s.Delivers (passed.filter fun call => call.serviceId ∈ attached) passed waiting arrived := by
  refine { haccounts with arrived := harrived, waits := ?_ }
  intro call rest hwaiting hcomplete
  by_cases hscheduled : s.scheduled = 0
  · cases hbusy : s.serviceBusy with
    | none => exact absurd hcomplete (hsettled hscheduled hbusy call rest hwaiting)
    | some id =>
        obtain ⟨hprogress, next, later, hnext, hid, -⟩ := haccounts.busy id hbusy
        obtain ⟨rfl, -⟩ := List.cons_eq_cons.mp (hwaiting.symm.trans hnext)
        exact .inr ⟨by rw [hid], by rw [hid]; exact hprogress⟩
  · exact .inl (Nat.pos_of_ne_zero hscheduled)

/-- `DataReceived` is called, by the connection or because it was scheduled. -/
theorem Inv.dataReceived {passed waiting : List Call} (hcalls : calls = passed ++ waiting)
    (harrived : arrived = encodeCalls passed ++ s.received) (hs : Accounts attached passed waiting future s)
    (hconsumes : ∀ call ∈ calls, h.Consumes attached call) :
    Inv attached calls arrived future (Receiver.dataReceived h s) := by
  obtain ⟨more, waiting', hmore, haccounts, hsettled, -⟩ := dataReceivedFrom_spec (s.received.length + 1) hs
    (fun call hcall => hconsumes call (hcalls ▸ List.mem_append_right _ hcall)) (Nat.lt_succ_self _)
  refine ⟨passed ++ more, waiting', ?_, ?_, haccounts, fun _ => hsettled⟩
  · rw [hcalls, hmore, List.append_assoc]
  · -- both are what has come in of the calls
    have hbefore := hs.bytes
    have hafter := haccounts.bytes
    rw [hmore, encodeCalls_append, ← hafter, ← List.append_assoc] at hbefore
    rw [harrived, encodeCalls_append, List.append_assoc, List.append_cancel_right hbefore]
    rfl

theorem Inv.step {e : ReceiverEvent} (hs : Inv attached calls arrived (e.bytes ++ future) s)
    (hconsumes : ∀ call ∈ calls, h.Consumes attached call) (hsize : (s.received ++ e.bytes).length < 2 ^ 32)
    (hstep : s.step h e = some s') : Inv attached calls (arrived ++ e.bytes) future s' := by
  obtain ⟨passed, waiting, hcalls, harrived, haccounts, hsettled⟩ := hs.accounts
  cases e with
  | dataReceived bytes =>
      cases hstep
      refine Inv.dataReceived hcalls (by rw [harrived, List.append_assoc]; rfl) ?_ hconsumes
      refine { haccounts with bytes := ?_, size := hsize, busy := ?_ }
      · rw [← haccounts.bytes, List.append_assoc]
        rfl
      · intro id hid
        obtain ⟨hprogress, call, rest, hwaiting, hcall, hprefix⟩ := haccounts.busy id hid
        exact ⟨hprogress, call, rest, hwaiting, hcall, hprefix.trans (List.prefix_append _ _)⟩
  | scheduledDataReceived =>
      simp only [Receiver.step, Option.ite_none_right_eq_some, Option.some.injEq] at hstep
      obtain ⟨-, rfl⟩ := hstep
      refine Inv.dataReceived hcalls (by rw [harrived]; exact List.append_nil _) ?_ hconsumes
      exact { haccounts with }
  | methodDone id =>
      cases hstep
      refine ⟨passed, waiting, hcalls, ?_, haccounts.methodDone id, ?_⟩
      · rw [methodDone_received, harrived]
        exact List.append_nil _
      · intro hscheduled
        by_cases hbusy : s.serviceBusy = some id
        · simp [Receiver.methodDone, hbusy] at hscheduled
        · simp only [Receiver.methodDone, hbusy, if_false] at hscheduled ⊢
          exact hsettled hscheduled

/-- The connection has never as many bytes that are not acknowledged as 32 bits can count. -/
def FitsReceived (s : Receiver) (e : ReceiverEvent) : Prop := (s.received ++ e.bytes).length < 2 ^ 32

theorem Inv.run {events : List ReceiverEvent}
    (hs : Inv attached calls arrived (events.flatMap bytes ++ future) s)
    (hconsumes : ∀ call ∈ calls, h.Consumes attached call) (hsize : Along (Receiver.step h) FitsReceived s events)
    (hrun : run (Receiver.step h) s events = some s') :
    Inv attached calls (arrived ++ events.flatMap bytes) future s' := by
  induction events generalizing s arrived with
  | nil =>
      cases hrun
      simpa using hs
  | cons e rest ih =>
      obtain ⟨m, hm, hrest⟩ := run_cons.mp hrun
      rw [List.flatMap_cons, List.append_assoc] at hs
      have hafter := ih (hs.step hconsumes hsize.1 hm) (hsize.2 m hm) hrest
      rwa [List.append_assoc] at hafter

/-- Echo with services that have nothing to do. -/
def Receiver.initial (attached : List UInt32) : Receiver :=
  { services := attached.map fun serviceId => { serviceId } }

theorem inv_initial (calls : List Call) : Inv attached calls [] (encodeCalls calls) (Receiver.initial attached) := by
  refine ⟨[], calls, rfl, rfl, ⟨?_, ?_, rfl, ?_, rfl, Nat.two_pow_pos 32, rfl, by simp [Receiver.initial]⟩, ?_⟩
  · simp [Receiver.initial, Function.comp_def]
  · intro service hservice
    obtain ⟨id, -, rfl⟩ := List.mem_map.mp hservice
    rfl
  · intro earlier call hp
    simpa [Receiver.initial] using List.IsPrefix.length_le hp
  · intro _ _ call rest _ hp
    exact absurd (List.prefix_nil.mp hp) (encode_ne_nil call)

theorem inv_of_run {events : List ReceiverEvent} (hconsumes : ∀ call ∈ calls, h.Consumes attached call)
    (hbytes : events.flatMap ReceiverEvent.bytes <+: encodeCalls calls)
    (hsize : Along (Receiver.step h) FitsReceived (Receiver.initial attached) events)
    (hrun : run (Receiver.step h) (Receiver.initial attached) events = some s) :
    ∃ future, Inv attached calls (events.flatMap ReceiverEvent.bytes) future s := by
  obtain ⟨future, hfuture⟩ := hbytes
  refine ⟨future, ?_⟩
  have hinitial := @inv_initial attached calls
  rw [← hfuture] at hinitial
  exact hinitial.run hconsumes hsize hrun

/-! ## Calls that are all for attached services -/

/-- **Every call is delivered once**, whatever the split of the bytes and the timing of `MethodDone`. A call that
is left for its service is handled after `MethodDone`, without further bytes. -/
theorem delivers_of_run {events : List ReceiverEvent} (hwellFormed : ∀ call ∈ calls, call.WellFormed)
    (hattached : ∀ call ∈ calls, call.serviceId ∈ attached) (hreads : ∀ call ∈ calls, h.ReadsArgument call)
    (hbytes : events.flatMap bytes <+: encodeCalls calls)
    (hsize : Along (Receiver.step h) FitsReceived (Receiver.initial attached) events)
    (hrun : run (Receiver.step h) (Receiver.initial attached) events = some s) :
    ∃ passed waiting, calls = passed ++ waiting ∧
      s.Delivers passed passed waiting (events.flatMap bytes) ∧
      ∀ id ∈ s.serviceBusy, ∃ call rest s', waiting = call :: rest ∧
        run (Receiver.step h) s [.methodDone id, .scheduledDataReceived] = some s' ∧
        passed ++ [call] <+: s'.handled := by
  have hconsumes : ∀ call ∈ calls, h.Consumes attached call :=
    fun call hcall => ⟨hwellFormed call hcall, .inl ⟨hattached call hcall, hreads call hcall⟩⟩
  obtain ⟨future, hinv⟩ := inv_of_run hconsumes hbytes hsize hrun
  obtain ⟨passed, waiting, hcalls, harrived, haccounts, hsettled⟩ := hinv.accounts
  have hfilter : ∀ some : List Call, (∀ call ∈ some, call ∈ calls) →
      (some.filter fun call => call.serviceId ∈ attached) = some := by
    intro some hsome
    rw [List.filter_eq_self]
    intro call hcall
    simpa using hattached call (hsome call hcall)
  have hpassed : ∀ call ∈ passed, call ∈ calls := fun call hcall => hcalls ▸ List.mem_append_left _ hcall
  have hdelivers := delivers_of_accounts harrived haccounts hsettled
  rw [hfilter passed hpassed] at hdelivers
  refine ⟨passed, waiting, hcalls, hdelivers, ?_⟩
  intro id hid
  obtain ⟨call, rest, s', hwaiting, hafter, hhandled⟩ := haccounts.deferred
    (fun call hcall => hconsumes call (hcalls ▸ List.mem_append_right _ hcall)) hid
  refine ⟨call, rest, s', hwaiting, hafter, ?_⟩
  rwa [hfilter (passed ++ [call])] at hhandled
  intro other hother
  rcases List.mem_append.mp hother with hother | hother
  · exact hpassed other hother
  · rw [List.mem_singleton.mp hother, hcalls, hwaiting]
    exact List.mem_append_right _ List.mem_cons_self

/-- A service that reads its argument, and calls `MethodDone` later. -/
def readingHandlers : Handlers where
  handle _ _ argument := some { lengths := [], remaining := argument.remaining.drop (argument.lengths.headD 0) }
  during _ := []

theorem readsArgument_readingHandlers (call : Call) : readingHandlers.ReadsArgument call := by
  intro lengths rest _ _
  exact ⟨[], by simp [readingHandlers]⟩

/-- The second call is there while the first is in progress. -/
def twoCalls : List Call := [⟨1, 1, [5]⟩, ⟨1, 2, [6]⟩]

def twoCallsEvents : List ReceiverEvent := [.dataReceived [1, 0x0a], .dataReceived [1, 5, 1, 0x12, 1, 6]]

/-- After `twoCallsEvents`. -/
def twoCallsReceived : Receiver :=
  { services := [⟨1, true⟩], serviceBusy := some 1, received := [1, 0x12, 1, 6], log := [.handle ⟨1, 1, [5]⟩] }

theorem run_twoCalls : run (Receiver.step readingHandlers) (Receiver.initial [1]) twoCallsEvents = some twoCallsReceived := by
  decide

theorem delivers_of_run_twoCalls :
    run (Receiver.step readingHandlers) (Receiver.initial [1]) twoCallsEvents = some twoCallsReceived ∧
    ∃ passed waiting, twoCalls = passed ++ waiting ∧
      twoCallsReceived.Delivers passed passed waiting (twoCallsEvents.flatMap bytes) ∧
      ∀ id ∈ twoCallsReceived.serviceBusy, ∃ call rest s', waiting = call :: rest ∧
        run (Receiver.step readingHandlers) twoCallsReceived [.methodDone id, .scheduledDataReceived] = some s' ∧
        passed ++ [call] <+: s'.handled := by
  refine ⟨run_twoCalls, delivers_of_run ?_ (by decide) ?_ (by decide) ?_ run_twoCalls⟩
  · intro call hcall
    simp only [twoCalls, List.mem_cons, List.not_mem_nil, or_false] at hcall
    rcases hcall with rfl | rfl <;> exact ⟨by decide, by decide⟩
  · exact fun call _ => readsArgument_readingHandlers call
  · refine ⟨by unfold FitsReceived; decide, ?_⟩
    intro s hs
    cases hs
    exact ⟨by unfold FitsReceived; decide, fun _ _ => trivial⟩

/-- When the bytes are a multiple of what 32 bits count, the parser sees none of them. -/
theorem parseCall_wraps {received : List UInt8} (hwraps : received.length % 2 ^ 32 = 0) :
    parseCall received = .incomplete := by
  have hparser : ProtoParser.parser { lengths := [], remaining := received } = { lengths := [0], remaining := received } := by
    rw [ProtoParser.parser, StreamReader.limited, StreamReader.available, hwraps]
  have hid : (ProtoParser.getVarInt { lengths := [0], remaining := received }).2.failed = true := by
    rw [ProtoParser.getVarInt, ProtoParser.getVarIntFrom]
    simp [StreamReader.extract]
  obtain ⟨contents, number, r', hfield, hfailed⟩ := getField_failed (getVarInt_failed hid)
  simp [parseCall, hparser, hfield, hfailed]

/-- A call that has come in completely, its service has nothing to do, and nothing will happen. -/
theorem not_delivers_wraps {call : Call} (hwraps : call.encode.length % 2 ^ 32 = 0) :
    ∃ s, run (Receiver.step h) (Receiver.initial attached) [.dataReceived call.encode] = some s ∧
      ∀ passed waiting, [call] = passed ++ waiting → ¬ s.Delivers passed passed waiting call.encode := by
  refine ⟨{ Receiver.initial attached with received := call.encode }, ?_, ?_⟩
  · simp [run, Receiver.step, Receiver.dataReceived, Receiver.dataReceivedFrom, Receiver.initial, parseCall_wraps hwraps]
  · intro passed waiting hcalls hdelivers
    have hpassed : passed = [] := hdelivers.handled.symm
    rw [hpassed, List.nil_append] at hcalls
    have hwaits := hdelivers.waits call [] hcalls.symm List.prefix_rfl
    simp [Receiver.initial] at hwaits

/-- A call of method 1 of service 1. -/
def zeroCall (n : Nat) : Call := ⟨1, 1, List.replicate n 0⟩

theorem length_encode_zeroCall (n : Nat) : (zeroCall n).encode.length = 2 + (varIntBytes 10 n).length + n := by
  have hid : (varIntBytes 10 (UInt32.toNat 1)).length = 1 := by decide
  have hkey : (varIntBytes 10 (ProtoFormatter.key 1 2)).length = 1 := by decide
  simp only [zeroCall, Call.encode, encodeField, List.length_append, List.length_replicate, hid, hkey]
  omega

/-- A call that has 4 GiB with everything around it is never handled. -/
theorem not_delivers_of_run_zeroCall :
    ¬ ∀ (h : Handlers) (attached : List UInt32) (calls : List Call) (events : List ReceiverEvent) (s : Receiver),
      (∀ call ∈ calls, call.WellFormed) → (∀ call ∈ calls, call.serviceId ∈ attached) →
      (∀ call ∈ calls, h.ReadsArgument call) → events.flatMap bytes <+: encodeCalls calls →
      run (Receiver.step h) (Receiver.initial attached) events = some s →
      ∃ passed waiting, calls = passed ++ waiting ∧
        s.Delivers passed passed waiting (events.flatMap bytes) := by
  intro hall
  obtain ⟨n, hn, hwraps⟩ : ∃ n < 2 ^ 32, (zeroCall n).encode.length % 2 ^ 32 = 0 := by
    have hfive : (varIntBytes 10 (2 ^ 32 - 7)).length = 5 := by decide
    refine ⟨2 ^ 32 - 7, by decide, ?_⟩
    rw [length_encode_zeroCall, hfive]
    decide
  obtain ⟨s, hrun, hnot⟩ := @not_delivers_wraps readingHandlers [1] (zeroCall n) hwraps
  have hbytes : [dataReceived (zeroCall n).encode].flatMap bytes = (zeroCall n).encode :=
    List.append_nil _
  obtain ⟨passed, waiting, hcalls, hdelivers⟩ := hall readingHandlers [1] [zeroCall n] _ s
    (fun call hcall => List.mem_singleton.mp hcall ▸ ⟨(by decide : (1 : Nat) < 2 ^ 29), by simpa [zeroCall] using hn⟩)
    (fun call hcall => List.mem_singleton.mp hcall ▸ List.mem_cons_self)
    (fun call _ => readsArgument_readingHandlers call) (by simp [encodeCalls, bytes]) hrun
  rw [hbytes] at hdelivers
  exact hnot passed waiting hcalls hdelivers

end EmbeddedInfra.Echo
