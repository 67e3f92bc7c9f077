import EmbeddedInfra.Lib.WaitingList
import EmbeddedInfra.Lib.EventSystem
import Mathlib.Logic.Function.Basic

set_option autoImplicit false

/-! # How connections start and end

A `tcp_pcb` belongs to `lwIP`, and `lwIP` calls the object that is registered in it: a `ConnectorLwIp` while
the connection is established, a `ConnectionLwIp` afterwards. The pointer to it may be used until the pcb is
closed, aborted or gone because of an error.

A function of the model has no result when the code uses the pointer of a pcb that is not there any more,
when it passes a null pointer to `lwIP`, which aborts then, or when an assertion fails. The same holds for
`lwIP` itself: it goes on with a pcb when a callback has returned `ERR_OK`.
-/

namespace EmbeddedInfra.LwIpLifetime

/-- The errors with which `lwIP` calls `tcp_err_fn` -/
inductive Err
  | abrt
  | rst
  | clsd
  deriving DecidableEq, Repr

/-- The class of the object that is registered in a pcb with `tcp_arg`, `tcp_recv`, `tcp_err` and `tcp_sent`. -/
inductive Callback
  | connection
  | connector
  deriving DecidableEq, Repr

/-- `tcp_pcb` -/
structure Pcb where
  alive : Bool
  callback : Option Callback
  rcvWnd : Nat
  deriving DecidableEq, Repr

/-- `ConnectionLwIp`. `createdObserver` tells that the function that supplies the observer is still kept, and
with it the connection; `observer` that the connection has an observer and owns itself. The first
`notified` bytes of the buffer were there when the observer was told of data for the last time. -/
structure Connection where
  control : Option Nat
  receiveBuffer : List UInt8
  dataReceivedScheduled : Bool
  createdObserver : Bool
  observer : Bool
  notified : Nat
  deriving DecidableEq, Repr

/-- `ConnectorLwIp` -/
structure Connector (ι : Type) where
  id : Nat
  clientFactory : ι
  control : Option Nat
  deriving DecidableEq, Repr

/-- All pcbs, connections and connectors, and what has happened to the clients of `ConnectionFactoryLwIp`. A
connection and a connector have the number of the pcb that they are created for. -/
structure World (ι : Type) where
  tcpWnd : Nat
  maxConnectors : Nat
  nextPcb : Nat
  pcbs : Nat → Pcb
  connections : Nat → Option Connection
  waitingConnectors : List ι
  connectors : List (Connector ι)
  requested : List ι
  results : List ι
  cancelled : List ι

namespace World

variable {ι : Type} [DecidableEq ι]

def initial (tcpWnd maxConnectors : Nat) : World ι :=
  ⟨tcpWnd, maxConnectors, 0, fun _ => ⟨false, none, 0⟩, fun _ => none, [], [], [], [], []⟩

def setPcb (w : World ι) (p : Nat) (pcb : Pcb) : World ι := { w with pcbs := Function.update w.pcbs p pcb }

def setConnection (w : World ι) (id : Nat) (c : Option Connection) : World ι :=
  { w with connections := Function.update w.connections id c }

/-- The pcb that a pointer points to. -/
def deref (w : World ι) (control : Option Nat) : Option Nat := control.filter fun p => (w.pcbs p).alive

/-- The memory of the pcb is freed. -/
def free (w : World ι) (p : Nat) : World ι := w.setPcb p { w.pcbs p with alive := false }

/-- `tcp_abort`, with the object whose error callback it calls -/
def tcpAbort (w : World ι) (control : Option Nat) : Option (World ι × Option Callback) :=
  (w.deref control).map fun p => (w.free p, (w.pcbs p).callback)

/-- A pcb is created. -/
def tcpNew (w : World ι) (callback : Option Callback) : World ι :=
  { w.setPcb w.nextPcb ⟨true, callback, w.tcpWnd⟩ with nextPcb := w.nextPcb + 1 }

/-! ## Connections -/

/-- The constructor of `ConnectionLwIp` registers the connection in its pcb. -/
def constructConnection (w : World ι) (p : Nat) : World ι :=
  (w.setPcb p { w.pcbs p with callback := some .connection }).setConnection p (some ⟨some p, [], false, true, false, 0⟩)

/-- `ListenerLwIp::Accept`; `allocated` tells whether there is memory for the connection. -/
def accept (w : World ι) (allocated : Bool) : Option (World ι) :=
  -- the observer may be supplied or refused at once; then `Accept` returns `ERR_ABRT` if the connection is gone
  if allocated then some ((w.tcpNew none).constructConnection w.nextPcb)
  else ((w.tcpNew none).tcpAbort (some w.nextPcb)).map fun aborted => aborted.1

def resetControl (w : World ι) (id : Nat) (c : Connection) : Option (World ι) :=
  (w.deref c.control).map fun p =>
    (w.setPcb p { w.pcbs p with callback := none }).setConnection id (some { c with control := none })

/-- `~ConnectionLwIp`; nothing is registered in the pcb when it is aborted. -/
def destructConnection (w : World ι) (id : Nat) (c : Connection) : Option (World ι) :=
  if c.control.isSome then
    (w.resetControl id c).bind fun w => (w.tcpAbort c.control).map fun aborted => aborted.1.setConnection id none
  else some (w.setConnection id none)

/-- `AckReceived`, when the user has read so many bytes -/
def ackReceived (w : World ι) (id : Nat) (read : Nat) : Option (World ι) :=
  (w.connections id).bind fun c => (w.deref c.control).map fun p =>
    let sizeRead := read % 65536
    (w.setPcb p { w.pcbs p with rcvWnd := min w.tcpWnd ((w.pcbs p).rcvWnd + sizeRead) }).setConnection id
      (some { c with receiveBuffer := c.receiveBuffer.drop sizeRead, notified := c.notified - sizeRead })

/-- `ClosingConnection`: the observer may acknowledge what it has read. -/
def closingConnection (w : World ι) (id : Nat) : Option Nat → Option (World ι)
  | none => some w
  | some read => w.ackReceived id read

/-- `ResetOwnership`: a connection that owns itself is destroyed. -/
def resetOwnership (w : World ι) (id : Nat) (closing : Option Nat) : Option (World ι) :=
  (w.connections id).bind fun c =>
    if c.observer then
      (w.closingConnection id closing).bind fun w => (w.connections id).bind fun c => w.destructConnection id c
    else some w

/-- `ConnectionLwIp::Err` -/
def err (w : World ι) (id : Nat) (code : Err) (closing : Option Nat) : Option (World ι) :=
  if code = .rst ∨ code = .clsd then
    (w.connections id).bind fun c => (w.resetControl id c).bind fun w => w.resetOwnership id closing
  else none

/-- `lwIP` uses the pcb after a callback that has returned `ERR_OK`. -/
def returnsOk (w : World ι) (p : Nat) : Option (World ι) := (w.deref (some p)).map fun _ => w

/-- `ConnectionLwIp::Recv` of a connection -/
def received (c : Connection) (data : List UInt8) : Connection :=
  { c with
    receiveBuffer := c.receiveBuffer ++ data
    dataReceivedScheduled := c.dataReceivedScheduled || c.observer }

/-- `lwIP` delivers data. -/
def recv (w : World ι) (p : Nat) (data : List UInt8) : Option (World ι) :=
  (w.connections p).bind fun c =>
    if c.receiveBuffer.length + data.length ≤ w.tcpWnd then
      ((w.setPcb p { w.pcbs p with rcvWnd := (w.pcbs p).rcvWnd - data.length }).setConnection p
        (some (received c data))).returnsOk p
    else none

/-- `lwIP` delivers the end of the data. -/
def recvNull (w : World ι) (p : Nat) (closing : Option Nat) : Option (World ι) :=
  (w.resetOwnership p closing).bind fun w => w.returnsOk p

/-- The event that `Recv` schedules. -/
def dataReceived (w : World ι) (id : Nat) : Option (World ι) :=
  (w.connections id).bind fun c =>
    if c.observer then
      some (w.setConnection id (some { c with dataReceivedScheduled := false, notified := c.receiveBuffer.length }))
    else none

/-- The observer of a connection is supplied or refused. A connection that is refused is released. -/
def createdObserver (w : World ι) (id : Nat) (supplied : Bool) : Option (World ι) :=
  (w.connections id).bind fun c =>
    if supplied then some (w.setConnection id (some { c with createdObserver := false, observer := true }))
    else w.destructConnection id { c with createdObserver := false }

/-! ## Connectors -/

/-- `~ConnectorLwIp` -/
def destructConnector (w : World ι) (k : Connector ι) : Option (World ι) :=
  (w.deref k.control).bind fun p =>
    ((w.setPcb p { w.pcbs p with callback := none }).tcpAbort k.control).map fun aborted =>
      { aborted.1 with connectors := w.connectors.erase k }

/-- `TryConnect`; `available` tells whether `tcp_new` and `tcp_connect` succeed. -/
def tryConnect (w : World ι) (available : Bool) : Option (World ι) :=
  match w.waitingConnectors with
  | [] => some w
  | client :: rest =>
      if w.connectors.length < w.maxConnectors then
        -- the constructor asserts that `tcp_connect` succeeds, which it does not without a pcb
        if available then
          some { w.tcpNew (some .connector) with
            waitingConnectors := rest
            connectors := w.connectors ++ [⟨w.nextPcb, client, some w.nextPcb⟩] }
        else none
      else some w

/-- `ConnectionFactoryLwIp::Connect` -/
def connect (w : World ι) (client : ι) (available : Bool) : Option (World ι) :=
  { w with
    waitingConnectors := w.waitingConnectors ++ [client]
    requested := w.requested ++ [client] }.tryConnect available

/-- `ConnectionFactoryLwIp::CancelConnect` -/
def cancelConnect (w : World ι) (client : ι) (available : Bool) : Option (World ι) :=
  let w := { w with cancelled := client :: w.cancelled }
  if client ∈ w.waitingConnectors then some { w with waitingConnectors := w.waitingConnectors.erase client }
  else (w.connectors.find? fun k => k.clientFactory = client).bind fun k =>
    (w.destructConnector k).bind fun w => w.tryConnect available

/-- The end of `Connected` and `Error`: the client has its result, and the connector is removed. -/
def remove (w : World ι) (k : Connector ι) (available : Bool) : Option (World ι) :=
  ({ w with results := k.clientFactory :: w.results }.destructConnector { k with control := none }).bind fun w =>
    w.tryConnect available

/-- `ConnectorLwIp::Error` -/
def error (w : World ι) (p : Nat) (available : Bool) : Option (World ι) :=
  (w.connectors.find? fun k => k.id = p).bind fun k => w.remove k available

/-- `ConnectorLwIp::Connected`; `allocated` tells whether there is memory for the connection. Without it, the
pcb is aborted, which calls `Error` first. -/
def connected (w : World ι) (p : Nat) (allocated available : Bool) : Option (World ι) :=
  (w.connectors.find? fun k => k.id = p).bind fun k =>
    if allocated then (w.constructConnection p).remove k available
    else (w.tcpAbort k.control).bind fun aborted =>
      (if aborted.2 = some .connector then aborted.1.error p available else some aborted.1).bind fun w =>
        w.remove k available

/-! ## Ends -/

/-- `lwIP` reports an error. A pcb that has been aborted is freed before the callback, and after a reset or
the end of the connection it is freed after the callback. -/
def fail (w : World ι) (p : Nat) (code : Err) (closing : Option Nat) (available : Bool) : Option (World ι) :=
  -- `tcp_abandon` frees the pcb before it calls; `tcp_input` frees it after the call
  let before := if code = .abrt then w.free p else w
  let after :=
    match (w.pcbs p).callback with
    | none => some before
    | some .connection => before.err p code closing
    | some .connector => before.error p available
  after.map fun w => w.free p

def abortAndDestroy (w : World ι) (id : Nat) (closing : Option Nat) : Option (World ι) :=
  (w.connections id).bind fun c => (w.tcpAbort c.control).bind fun aborted =>
    if aborted.2 = some .connection then aborted.1.err id .abrt closing else some aborted.1

/-- `CloseAndDestroy`; `closed` tells whether `tcp_close` succeeds. -/
def closeAndDestroy (w : World ι) (id : Nat) (closed : Bool) (closing : Option Nat) : Option (World ι) :=
  (w.connections id).bind fun c => (w.deref c.control).bind fun p =>
    -- `tcp_close` may free the pcb, and `ResetControl` uses it afterwards
    if closed then ((w.free p).resetControl id c).bind fun w => w.resetOwnership id closing
    else w.abortAndDestroy id closing

end World

/-! ## Runs -/

/-- What happens. `closing` is what the observer has read when it acknowledges in `ClosingConnection`, and
`available` tells whether there is a pcb for the next connector. -/
inductive Event (ι : Type)
  | accept (allocated : Bool)
  | createdObserver (id : Nat) (supplied : Bool)
  | recv (p : Nat) (data : List UInt8)
  | recvNull (p : Nat) (closing : Option Nat)
  | dataReceived (id : Nat)
  | ackReceived (id : Nat) (read : Nat)
  | closeAndDestroy (id : Nat) (closed : Bool) (closing : Option Nat)
  | abortAndDestroy (id : Nat) (closing : Option Nat)
  | fail (p : Nat) (code : Err) (closing : Option Nat) (available : Bool)
  | connect (client : ι) (available : Bool)
  | cancelConnect (client : ι) (available : Bool)
  | connected (p : Nat) (allocated available : Bool)

namespace World

variable {ι : Type} [DecidableEq ι]

def step (w : World ι) : Event ι → Option (World ι)
  | .accept allocated => w.accept allocated
  | .createdObserver id supplied => w.createdObserver id supplied
  | .recv p data => w.recv p data
  | .recvNull p closing => w.recvNull p closing
  | .dataReceived id => w.dataReceived id
  | .ackReceived id read => w.ackReceived id read
  | .closeAndDestroy id closed closing => w.closeAndDestroy id closed closing
  | .abortAndDestroy id closing => w.abortAndDestroy id closing
  | .fail p code closing available => w.fail p code closing available
  | .connect client available => w.connect client available
  | .cancelConnect client available => w.cancelConnect client available
  | .connected p allocated available => w.connected p allocated available

/-- The connection exists and has this property. -/
def Has (w : World ι) (id : Nat) (property : Connection → Bool) : Prop := (w.connections id).any property = true

/-- `lwIP` calls the object that is registered in a pcb. -/
def Calls (w : World ι) (p : Nat) (callback : Callback) : Prop :=
  (w.pcbs p).alive = true ∧ (w.pcbs p).callback = some callback

/-- What `lwIP` and the users may do: `lwIP` calls what is registered in a pcb that is there and keeps to the
receive window, an observer is supplied once, a user uses a connection that it observes and acknowledges
what it has read, and cancels a request that has been made. -/
def Possible (w : World ι) : Event ι → Prop
  | .accept _ => True
  | .createdObserver id _ => w.Has id (·.createdObserver)
  | .recv p data => w.Calls p .connection ∧ data.length ≤ (w.pcbs p).rcvWnd
  | .recvNull p closing => w.Calls p .connection ∧ ∀ read ∈ closing, w.Has p (read ≤ ·.receiveBuffer.length)
  | .dataReceived id => w.Has id (·.dataReceivedScheduled)
  | .ackReceived id read => w.Has id (·.observer) ∧ w.Has id (read ≤ ·.receiveBuffer.length)
  | .closeAndDestroy id _ _ => w.Has id (·.observer)
  | .abortAndDestroy id _ => w.Has id (·.observer)
  | .fail p _ closing _ =>
      (w.pcbs p).alive = true ∧ (w.pcbs p).callback ≠ none
        ∧ ∀ read ∈ closing, w.Has p (read ≤ ·.receiveBuffer.length)
  | .connect client _ => client ∉ w.waitingConnectors
  | .cancelConnect client _ => client ∈ w.waitingConnectors ∨ ∃ k ∈ w.connectors, k.clientFactory = client
  | .connected p _ _ => w.Calls p .connector

/-- The steps that do not run into a defect. No client gets a result, since a connector that has given one
uses a null pointer when it is destroyed. No connection is closed or aborted by its user, and none that
has an observer by its peer. An observer is supplied before data arrives; it does not acknowledge
anything after an error, and errors are not those of an aborted connection. -/
def Clean (w : World ι) : Event ι → Prop
  | .accept _ => True
  | .createdObserver id supplied => supplied = true → w.Has id (·.receiveBuffer.isEmpty)
  | .recv _ _ => True
  | .recvNull p _ => w.Has p (fun c => !c.observer)
  | .dataReceived _ => True
  | .ackReceived id _ => w.Has id (·.control.isSome)
  | .closeAndDestroy _ _ _ => False
  | .abortAndDestroy _ _ => False
  | .fail p code closing _ =>
      w.Calls p .connection ∧ code ≠ .abrt ∧ (closing = none ∨ w.Has p (fun c => !c.observer))
  | .connect _ available => available = true ∨ w.maxConnectors ≤ w.connectors.length
  | .cancelConnect client available =>
      client ∈ w.waitingConnectors ∨ available = true ∨ w.waitingConnectors = []
  | .connected _ _ _ => False

instance (w : World ι) (id : Nat) (property : Connection → Bool) : Decidable (w.Has id property) :=
  inferInstanceAs (Decidable (_ = true))

instance (w : World ι) (p : Nat) (callback : Callback) : Decidable (w.Calls p callback) :=
  inferInstanceAs (Decidable (_ ∧ _))

instance (w : World ι) : DecidablePred w.Possible
  | .accept _ => inferInstanceAs (Decidable True)
  | .createdObserver id _ => inferInstanceAs (Decidable (w.Has id _))
  | .recv p _ => inferInstanceAs (Decidable (w.Calls p _ ∧ _))
  | .recvNull p _ => inferInstanceAs (Decidable (w.Calls p _ ∧ _))
  | .dataReceived id => inferInstanceAs (Decidable (w.Has id _))
  | .ackReceived id _ => inferInstanceAs (Decidable (w.Has id _ ∧ w.Has id _))
  | .closeAndDestroy id _ _ => inferInstanceAs (Decidable (w.Has id _))
  | .abortAndDestroy id _ => inferInstanceAs (Decidable (w.Has id _))
  | .fail _ _ _ _ => inferInstanceAs (Decidable (_ ∧ _ ∧ _))
  | .connect client _ => inferInstanceAs (Decidable (client ∉ _))
  | .cancelConnect client _ => inferInstanceAs (Decidable (client ∈ _ ∨ _))
  | .connected p _ _ => inferInstanceAs (Decidable (w.Calls p _))

instance (w : World ι) : DecidablePred w.Clean
  | .accept _ => inferInstanceAs (Decidable True)
  | .createdObserver id _ => inferInstanceAs (Decidable (_ → w.Has id _))
  | .recv _ _ => inferInstanceAs (Decidable True)
  | .recvNull p _ => inferInstanceAs (Decidable (w.Has p _))
  | .dataReceived _ => inferInstanceAs (Decidable True)
  | .ackReceived id _ => inferInstanceAs (Decidable (w.Has id _))
  | .closeAndDestroy _ _ _ => inferInstanceAs (Decidable False)
  | .abortAndDestroy _ _ => inferInstanceAs (Decidable False)
  | .fail p _ _ _ => inferInstanceAs (Decidable (w.Calls p _ ∧ _ ∧ (_ ∨ w.Has p _)))
  | .connect _ _ => inferInstanceAs (Decidable (_ ∨ _))
  | .cancelConnect client _ => inferInstanceAs (Decidable (client ∈ _ ∨ _ ∨ _))
  | .connected _ _ _ => inferInstanceAs (Decidable False)

/-- The observer of a connection will be told of data that it has not been told of, and every request of a
client waits, is connecting, or has come to its end once. -/
structure Good (w : World ι) : Prop where
  notified : ∀ id c, w.connections id = some c → c.observer = true →
    c.notified < c.receiveBuffer.length → c.dataReceivedScheduled = true
  counted : ∀ client, w.requested.count client = w.results.count client + w.cancelled.count client
    + w.waitingConnectors.count client + (w.connectors.map (·.clientFactory)).count client

end World

/-! ## The invariant -/

/-- What holds of a connection and the pcb that it was created for. -/
structure Connection.Valid (tcpWnd id : Nat) (pcb : Pcb) (c : Connection) : Prop where
  control : c.control = none ∨ c.control = some id ∧ pcb.alive = true ∧ pcb.callback = some .connection
    ∧ pcb.rcvWnd + c.receiveBuffer.length = tcpWnd
  scheduled : c.dataReceivedScheduled = true → c.observer = true
  untold : c.observer = false → c.notified = 0
  supplied : c.createdObserver = true → c.observer = false
  notified : c.observer = true → c.notified < c.receiveBuffer.length → c.dataReceivedScheduled = true

namespace World

variable {ι : Type} {w : World ι} {p id read : Nat} {c : Connection}

/-- The connections and the connectors are registered in their pcbs. -/
structure Placed (w : World ι) : Prop where
  valid : ∀ id c, w.connections id = some c → c.Valid w.tcpWnd id (w.pcbs id)
  registered : ∀ p, w.Calls p .connection → ∃ c, w.connections p = some c ∧ c.control = some p
  connectors : ∀ k ∈ w.connectors, k.control = some k.id ∧ w.Calls k.id .connector
  distinct : (w.connectors.map (·.id)).Nodup
  fresh : ∀ p, w.nextPcb ≤ p → (w.pcbs p).alive = false ∧ w.connections p = none

/-- The world with another pcb and another connection in one place. -/
def replace (w : World ι) (p : Nat) (pcb : Pcb) (c : Option Connection) : World ι :=
  (w.setPcb p pcb).setConnection p c

theorem Placed.replace (h : Placed w) {next : Nat} {pcb : Pcb} {c' : Option Connection} (hp : p < next)
    (hnext : w.nextPcb ≤ next) (hvalid : ∀ c ∈ c', c.Valid w.tcpWnd p pcb)
    (hregistered : pcb.alive = true → pcb.callback = some .connection → ∃ c ∈ c', c.control = some p)
    (hconnectors : ∀ k ∈ w.connectors, k.id = p → pcb.alive = true ∧ pcb.callback = some .connector) :
    Placed { w.replace p pcb c' with nextPcb := next } := by
  constructor
  case valid =>
    intro id c hc
    by_cases hid : id = p
    · subst hid
      simp only [World.replace, setPcb, setConnection, Function.update_self] at hc ⊢
      exact hvalid c hc
    · simp only [World.replace, setPcb, setConnection, Function.update_of_ne hid] at hc ⊢
      exact h.valid id c hc
  case registered =>
    rintro id ⟨halive, hcallback⟩
    by_cases hid : id = p
    · subst hid
      simp only [World.replace, setPcb, setConnection, Function.update_self] at halive hcallback ⊢
      exact hregistered halive hcallback
    · simp only [World.replace, setPcb, setConnection, Function.update_of_ne hid] at halive hcallback ⊢
      exact h.registered id ⟨halive, hcallback⟩
  case connectors =>
    intro k hk
    obtain ⟨hcontrol, hcalls⟩ := h.connectors k hk
    refine ⟨hcontrol, ?_⟩
    by_cases hid : k.id = p
    · have := hconnectors k hk hid
      simpa only [Calls, World.replace, setPcb, setConnection, hid, Function.update_self] using this
    · simpa only [Calls, World.replace, setPcb, setConnection, Function.update_of_ne hid] using hcalls
  case distinct => exact h.distinct
  case fresh =>
    intro q hq
    have hne : q ≠ p := by
      dsimp only at hq
      omega
    simp only [World.replace, setPcb, setConnection, Function.update_of_ne hne]
    exact h.fresh q (hnext.trans hq)

theorem Placed.lt_next (h : Placed w) (hc : w.connections id = some c) : id < w.nextPcb := by
  by_contra hn
  have := (h.fresh id (Nat.le_of_not_lt hn)).2
  rw [hc] at this
  cases this

/-- A connection that has its pcb is not a connector. -/
theorem Placed.id_ne (h : Placed w) (hcallback : (w.pcbs id).callback = some .connection)
    {k : Connector ι} (hk : k ∈ w.connectors) : k.id ≠ id := by
  rintro rfl
  have := (h.connectors k hk).2.2
  rw [hcallback] at this
  cases this

/-- A connection with a pointer has its pcb. -/
theorem Placed.control_cases (h : Placed w) (hc : w.connections id = some c) :
    c.control = none ∨ c.control = some id ∧ (w.pcbs id).alive = true ∧ (w.pcbs id).callback = some .connection
      ∧ (w.pcbs id).rcvWnd + c.receiveBuffer.length = w.tcpWnd :=
  (h.valid id c hc).control

/-! ## What the functions do -/

theorem deref_alive (h : (w.pcbs p).alive = true) : w.deref (some p) = some p := by
  simp [deref, h]

theorem deref_dead (h : (w.pcbs p).alive = false) : w.deref (some p) = none := by
  simp [deref, h]

theorem has_iff {property : Connection → Bool} :
    w.Has id property ↔ ∃ c, w.connections id = some c ∧ property c = true :=
  Option.any_eq_true _ _

theorem setConnection_eq (id : Nat) (c : Option Connection) : w.setConnection id c = w.replace id (w.pcbs id) c := by
  simp [replace, setPcb, setConnection]

theorem replace_replace (id : Nat) (pcb pcb' : Pcb) (c c' : Option Connection) :
    (w.replace id pcb c).replace id pcb' c' = w.replace id pcb' c' := by
  simp [replace, setPcb, setConnection]

@[simp] theorem replace_pcbs (id : Nat) (pcb : Pcb) (c : Option Connection) : (w.replace id pcb c).pcbs id = pcb := by
  simp [replace, setPcb, setConnection]

@[simp] theorem replace_connections (id : Nat) (pcb : Pcb) (c : Option Connection) :
    (w.replace id pcb c).connections id = c := by
  simp [replace, setPcb, setConnection]

theorem free_eq (id : Nat) : w.free id = w.replace id { w.pcbs id with alive := false } (w.connections id) := by
  simp [free, replace, setPcb, setConnection]

theorem resetControl_eq (hcontrol : c.control = some id) (halive : (w.pcbs id).alive = true) :
    w.resetControl id c = some (w.replace id { w.pcbs id with callback := none } (some { c with control := none })) := by
  rw [resetControl, hcontrol, deref_alive halive]
  rfl

theorem destructConnection_eq (hcontrol : c.control = some id) (halive : (w.pcbs id).alive = true) :
    w.destructConnection id c = some (w.replace id { w.pcbs id with alive := false, callback := none } none) := by
  rw [destructConnection, if_pos (by simp [hcontrol]), resetControl_eq hcontrol halive, Option.bind_some, hcontrol,
    tcpAbort, deref_alive (by simpa using halive)]
  simp [free_eq, setConnection_eq, replace_replace]

theorem destructConnection_lost (hcontrol : c.control = none) :
    w.destructConnection id c = some (w.replace id (w.pcbs id) none) := by
  rw [destructConnection, if_neg (by simp [hcontrol]), setConnection_eq]

theorem ackReceived_eq (hc : w.connections id = some c)
    (hcontrol : c.control = some id) (halive : (w.pcbs id).alive = true) :
    w.ackReceived id read
      = some (w.replace id { w.pcbs id with rcvWnd := min w.tcpWnd ((w.pcbs id).rcvWnd + read % 65536) }
        (some { c with
          receiveBuffer := c.receiveBuffer.drop (read % 65536)
          notified := c.notified - read % 65536 })) := by
  rw [ackReceived, hc, Option.bind_some, hcontrol, deref_alive halive]
  rfl

theorem ackReceived_lost (hc : w.connections id = some c)
    (hcontrol : c.control = none) : w.ackReceived id read = none := by
  rw [ackReceived, hc, Option.bind_some, hcontrol]
  rfl

/-! ## Steps -/

variable [DecidableEq ι] {closing : Option Nat} {available : Bool} {client : ι}

/-- Every request is in one place. -/
structure Counted (w : World ι) : Prop where
  slots : w.connectors.length ≤ w.maxConnectors
  counted : ∀ client, w.requested.count client = w.results.count client + w.cancelled.count client
    + w.waitingConnectors.count client + (w.connectors.map (·.clientFactory)).count client

structure Inv (w : World ι) : Prop extends Placed w, Counted w

theorem Inv.good (h : Inv w) : Good w := ⟨fun id c hc => (h.valid id c hc).notified, h.counted⟩

theorem initial_inv (tcpWnd maxConnectors : Nat) : Inv (initial tcpWnd maxConnectors : World ι) where
  valid := by simp [initial]
  registered := by simp [initial, Calls]
  connectors := by simp [initial]
  distinct := List.nodup_nil
  fresh := by simp [initial]
  slots := Nat.zero_le _
  counted _ := rfl

/-- A connection that keeps its pcb. -/
theorem Inv.replace_kept (h : Inv w) {c' : Connection} {rcvWnd : Nat} (hc : w.connections id = some c)
    (hcontrol : c'.control = c.control) (hvalid : c'.Valid w.tcpWnd id { w.pcbs id with rcvWnd := rcvWnd }) :
    Inv (w.replace id { w.pcbs id with rcvWnd := rcvWnd } (some c')) := by
  refine ⟨?_, { h with }⟩
  refine h.toPlaced.replace (h.lt_next hc) (Nat.le_refl _) ?_ ?_ ?_
  · rintro _ ⟨⟩
    exact hvalid
  · intro halive hcallback
    obtain ⟨c₀, hc₀, hcontrol₀⟩ := h.registered id ⟨halive, hcallback⟩
    cases hc.symm.trans hc₀
    exact ⟨c', rfl, hcontrol.trans hcontrol₀⟩
  · intro k hk hid
    obtain ⟨-, halive, hcallback⟩ := h.connectors k hk
    rw [hid] at halive hcallback
    exact ⟨halive, hcallback⟩

/-- A connection that loses its pcb, or that is destroyed. -/
theorem Inv.replace_lost (h : Inv w) {c' : Option Connection} {pcb : Pcb}
    (hc : w.connections id = some c) (hcontrol : c.control = some id) (hpcb : pcb.alive = false)
    (hvalid : ∀ d ∈ c', d.Valid w.tcpWnd id pcb) : Inv (w.replace id pcb c') := by
  refine ⟨?_, { h with }⟩
  have hcallback : (w.pcbs id).callback = some .connection := by
    rcases (h.valid id c hc).control with hnone | ⟨-, -, hcallback, -⟩
    · rw [hcontrol] at hnone
      cases hnone
    · exact hcallback
  refine h.toPlaced.replace (h.lt_next hc) (Nat.le_refl _) hvalid ?_ ?_
  · intro halive
    rw [hpcb] at halive
    cases halive
  · intro k hk hid
    exact absurd hid (h.id_ne hcallback hk)

/-- A connection that is called has its pcb. -/
theorem Inv.called (h : Inv w) (hcalls : w.Calls p .connection) :
    ∃ c, w.connections p = some c ∧ c.control = some p ∧ c.Valid w.tcpWnd p (w.pcbs p) := by
  obtain ⟨c, hc, hcontrol⟩ := h.registered p hcalls
  exact ⟨c, hc, hcontrol, h.valid p c hc⟩

/-! ## Steps that are clean -/

theorem Inv.accept (h : Inv w) (allocated : Bool) : ∃ w', w.accept allocated = some w' ∧ Inv w' := by
  have hfresh := h.fresh w.nextPcb (Nat.le_refl _)
  have hconnectors : ∀ k ∈ w.connectors, k.id ≠ w.nextPcb := by
    intro k hk he
    have := (h.connectors k hk).2.1
    rw [he, hfresh.1] at this
    cases this
  cases allocated with
  | true =>
      refine ⟨{ w.replace w.nextPcb ⟨true, some .connection, w.tcpWnd⟩ (some ⟨some w.nextPcb, [], false, true, false, 0⟩)
        with nextPcb := w.nextPcb + 1 }, ?_, ?_, { h with }⟩
      · simp [World.accept, tcpNew, constructConnection, replace, setPcb, setConnection]
      · refine h.toPlaced.replace (Nat.lt_succ_self _) (Nat.le_succ _) ?_ ?_ ?_
        · rintro _ ⟨⟩
          exact ⟨.inr ⟨rfl, rfl, rfl, rfl⟩, by simp, by simp, by simp, by simp⟩
        · intro _ _
          exact ⟨_, rfl, rfl⟩
        · intro k hk he
          exact absurd he (hconnectors k hk)
  | false =>
      refine ⟨{ w.replace w.nextPcb ⟨false, none, w.tcpWnd⟩ (w.connections w.nextPcb) with nextPcb := w.nextPcb + 1 },
        ?_, ?_, { h with }⟩
      · simp [World.accept, tcpNew, tcpAbort, deref, free, replace, setPcb, setConnection]
      · refine h.toPlaced.replace (Nat.lt_succ_self _) (Nat.le_succ _) ?_ ?_ ?_
        · intro c hc
          rw [hfresh.2] at hc
          cases hc
        · intro halive
          cases halive
        · intro k hk he
          exact absurd he (hconnectors k hk)

theorem Inv.destructConnection (h : Inv w) {d : Connection} (hc : w.connections id = some c)
    (hcontrol : d.control = c.control) : ∃ w', w.destructConnection id d = some w' ∧ Inv w' := by
  rcases h.control_cases hc with hnone | ⟨hsome, halive, -, -⟩
  · refine ⟨_, destructConnection_lost (hcontrol.trans hnone), ?_, { h with }⟩
    refine h.toPlaced.replace (h.lt_next hc) (Nat.le_refl _) (by simp) ?_ ?_
    · intro halive hcallback
      obtain ⟨c₀, hc₀, hcontrol₀⟩ := h.registered id ⟨halive, hcallback⟩
      cases hc.symm.trans hc₀
      rw [hnone] at hcontrol₀
      cases hcontrol₀
    · rintro k hk rfl
      exact (h.connectors k hk).2
  · refine ⟨_, destructConnection_eq (hcontrol.trans hsome) halive, ?_⟩
    exact h.replace_lost hc hsome rfl (by simp)

theorem Inv.createdObserver (h : Inv w) {supplied : Bool}
    (hp : w.Possible (.createdObserver id supplied)) (hclean : w.Clean (.createdObserver id supplied)) :
    ∃ w', w.createdObserver id supplied = some w' ∧ Inv w' := by
  obtain ⟨c, hc, hcreated⟩ := has_iff.mp hp
  have hvalid := h.valid id c hc
  unfold World.createdObserver
  rw [hc, Option.bind_some]
  cases supplied with
  | true =>
      obtain ⟨c', hc', hempty⟩ := has_iff.mp (hclean rfl)
      cases hc.symm.trans hc'
      refine ⟨_, if_pos rfl, ?_⟩
      rw [setConnection_eq]
      refine h.replace_kept hc rfl ⟨hvalid.control, fun _ => rfl, by simp, by simp, ?_⟩
      intro _ hlt
      rw [List.isEmpty_iff.mp hempty] at hlt
      exact absurd hlt (Nat.not_lt_zero _)
  | false => exact h.destructConnection hc rfl

theorem Inv.recv (h : Inv w) {data : List UInt8} (hp : w.Possible (.recv p data)) :
    ∃ w', w.recv p data = some w' ∧ Inv w' := by
  obtain ⟨hcalls, hwindow⟩ := hp
  obtain ⟨c, hc, hcontrol, hvalid⟩ := h.called hcalls
  obtain ⟨halive, hcallback⟩ := hcalls
  have hroom : (w.pcbs p).rcvWnd + c.receiveBuffer.length = w.tcpWnd := by
    rcases hvalid.control with hnone | ⟨-, -, -, hroom⟩
    · rw [hcontrol] at hnone
      cases hnone
    · exact hroom
  refine ⟨w.replace p { w.pcbs p with rcvWnd := (w.pcbs p).rcvWnd - data.length } (some (received c data)), ?_, ?_⟩
  · rw [World.recv, hc, Option.bind_some, if_pos (by omega), returnsOk, ← World.replace]
    rw [deref_alive (by simpa using halive)]
    rfl
  · refine h.replace_kept hc rfl ⟨.inr ⟨hcontrol, halive, hcallback, ?_⟩, ?_, hvalid.untold, hvalid.supplied, ?_⟩
    · simp only [received, List.length_append]
      omega
    · intro hscheduled
      rcases Bool.or_eq_true_iff.mp hscheduled with hscheduled | hobserver
      · exact hvalid.scheduled hscheduled
      · exact hobserver
    · intro hobserver _
      exact Bool.or_eq_true_iff.mpr (.inr hobserver)

theorem Inv.dataReceived (h : Inv w) (hp : w.Possible (.dataReceived id)) :
    ∃ w', w.dataReceived id = some w' ∧ Inv w' := by
  obtain ⟨c, hc, hscheduled⟩ := has_iff.mp hp
  have hvalid := h.valid id c hc
  have hobserver := hvalid.scheduled hscheduled
  refine ⟨_, by rw [World.dataReceived, hc, Option.bind_some, if_pos hobserver], ?_⟩
  rw [setConnection_eq]
  refine h.replace_kept hc rfl ⟨hvalid.control, by simp, ?_, hvalid.supplied, ?_⟩
  · intro hnone
    dsimp only at hnone
    rw [hobserver] at hnone
    cases hnone
  · intro _ hlt
    exact absurd hlt (Nat.lt_irrefl _)

theorem Inv.ackReceived (h : Inv w) (hp : w.Possible (.ackReceived id read))
    (hclean : w.Clean (.ackReceived id read)) : ∃ w', w.ackReceived id read = some w' ∧ Inv w' := by
  obtain ⟨hobserver, hread⟩ := hp
  obtain ⟨c, hc, hobserver⟩ := has_iff.mp hobserver
  obtain ⟨c₁, hc₁, hread⟩ := has_iff.mp hread
  obtain ⟨c₂, hc₂, hcontrol⟩ := has_iff.mp hclean
  cases hc.symm.trans hc₁
  cases hc.symm.trans hc₂
  have hvalid := h.valid id c hc
  rcases hvalid.control with hnone | ⟨hsome, halive, hcallback, hroom⟩
  · rw [hnone] at hcontrol
    cases hcontrol
  · refine ⟨_, ackReceived_eq hc hsome halive, ?_⟩
    have hsize : read % 65536 ≤ c.receiveBuffer.length := (Nat.mod_le _ _).trans (of_decide_eq_true hread)
    refine h.replace_kept hc rfl ⟨.inr ⟨hsome, halive, hcallback, ?_⟩, hvalid.scheduled, ?_, hvalid.supplied, ?_⟩
    · simp only [List.length_drop]
      omega
    · intro hnone
      dsimp only at hnone
      rw [hobserver] at hnone
      cases hnone
    · intro _ hlt
      refine hvalid.notified hobserver ?_
      simp only [List.length_drop] at hlt
      omega

/-- Without an observer, the end of the data changes nothing. -/
theorem Inv.recvNull (h : Inv w) (hp : w.Possible (.recvNull p closing))
    (hclean : w.Clean (.recvNull p closing)) : ∃ w', w.recvNull p closing = some w' ∧ Inv w' := by
  obtain ⟨c, hc, hobserver⟩ := has_iff.mp hclean
  refine ⟨w, ?_, h⟩
  have hnone : c.observer = false := by simpa using hobserver
  rw [World.recvNull, resetOwnership, hc, Option.bind_some, if_neg (by simp [hnone]), Option.bind_some, returnsOk,
    deref_alive hp.1.1]
  rfl

theorem Inv.fail (h : Inv w) {code : Err} (hclean : w.Clean (.fail p code closing available)) :
    ∃ w', w.fail p code closing available = some w' ∧ Inv w' := by
  obtain ⟨hcalls, hcode, hclosing⟩ := hclean
  obtain ⟨c, hc, hcontrol, hvalid⟩ := h.called hcalls
  have hlegal : code = .rst ∨ code = .clsd := by
    cases code with
    | abrt => exact absurd rfl hcode
    | rst => exact .inl rfl
    | clsd => exact .inr rfl
  have hreset := resetControl_eq hcontrol hcalls.1
  rw [World.fail, if_neg hcode, hcalls.2]
  dsimp only
  rw [World.err, if_pos hlegal, hc, Option.bind_some, hreset, Option.bind_some, resetOwnership, replace_connections,
    Option.bind_some]
  by_cases hobserver : c.observer = true
  · have hnone : closing = none := by
      rcases hclosing with hnone | hhas
      · exact hnone
      · obtain ⟨c', hc', hobserver'⟩ := has_iff.mp hhas
        cases hc.symm.trans hc'
        simp [hobserver] at hobserver'
    rw [if_pos hobserver, hnone, closingConnection, Option.bind_some, replace_connections, Option.bind_some,
      destructConnection_lost rfl, Option.map_some]
    refine ⟨_, rfl, ?_⟩
    rw [free_eq, replace_replace, replace_replace, replace_pcbs, replace_connections]
    exact h.replace_lost hc hcontrol rfl (by simp)
  · rw [if_neg hobserver, Option.map_some]
    refine ⟨_, rfl, ?_⟩
    rw [free_eq, replace_replace, replace_pcbs, replace_connections]
    refine h.replace_lost hc hcontrol rfl ?_
    rintro _ ⟨⟩
    exact { hvalid with control := .inl rfl }

/-! ## Requests of clients -/

/-- The world after a connector has been created for the client at the front. -/
def startNext (w : World ι) (client : ι) (rest : List ι) : World ι :=
  { w.tcpNew (some .connector) with
    waitingConnectors := rest
    connectors := w.connectors ++ [⟨w.nextPcb, client, some w.nextPcb⟩] }

theorem Inv.startNext (h : Inv w) {rest : List ι} (hw : w.waitingConnectors = client :: rest)
    (hroom : w.connectors.length < w.maxConnectors) : Inv (w.startNext client rest) := by
  have hfresh := h.fresh w.nextPcb (Nat.le_refl _)
  have hnew : ∀ k ∈ w.connectors, k.id ≠ w.nextPcb := by
    intro k hk he
    have := (h.connectors k hk).2.1
    rw [he, hfresh.1] at this
    cases this
  have hplaced : Placed { w.replace w.nextPcb ⟨true, some .connector, w.tcpWnd⟩ none with nextPcb := w.nextPcb + 1 } := by
    refine h.toPlaced.replace (Nat.lt_succ_self _) (Nat.le_succ _) (by simp) (by simp) ?_
    intro k hk he
    exact absurd he (hnew k hk)
  have hworld : w.startNext client rest
      = { w.replace w.nextPcb ⟨true, some .connector, w.tcpWnd⟩ none with
          nextPcb := w.nextPcb + 1
          waitingConnectors := rest
          connectors := w.connectors ++ [⟨w.nextPcb, client, some w.nextPcb⟩] } := by
    simp [World.startNext, tcpNew, World.replace, setPcb, setConnection, ← hfresh.2]
  rw [hworld]
  refine ⟨{ hplaced with connectors := ?_, distinct := ?_ }, ?_, ?_⟩
  · intro k hk
    rcases List.mem_append.mp hk with hk | hk
    · exact hplaced.connectors k hk
    · rw [List.mem_singleton.mp hk]
      exact ⟨rfl, by simp [Calls, World.replace, setPcb, setConnection]⟩
  · rw [List.map_append]
    refine List.Nodup.append h.distinct (List.nodup_singleton _) ?_
    intro id hid he
    obtain ⟨k, hk, rfl⟩ := List.mem_map.mp hid
    exact hnew k hk (List.mem_singleton.mp he)
  · simp only [List.length_append, List.length_singleton]
    exact hroom
  · intro other
    have hcount := h.counted other
    rw [hw, List.count_cons] at hcount
    simp only [World.replace, setPcb, setConnection, List.map_append, List.map_cons, List.map_nil, List.count_append,
      List.count_cons, List.count_nil]
    omega

theorem Inv.tryConnect (h : Inv w)
    (hclean : available = true ∨ w.waitingConnectors = [] ∨ w.maxConnectors ≤ w.connectors.length) :
    ∃ w', w.tryConnect available = some w' ∧ Inv w' := by
  unfold World.tryConnect
  cases hw : w.waitingConnectors with
  | nil => exact ⟨w, rfl, h⟩
  | cons client rest =>
      dsimp only
      split
      next hroom =>
          have havailable : available = true := by
            rcases hclean with havailable | hnone | hfull
            · exact havailable
            · rw [hw] at hnone
              cases hnone
            · omega
          rw [if_pos havailable]
          exact ⟨_, rfl, h.startNext hw hroom⟩
      next => exact ⟨w, rfl, h⟩

theorem Inv.connect (h : Inv w) (hclean : w.Clean (.connect client available)) :
    ∃ w', w.connect client available = some w' ∧ Inv w' := by
  let w₁ : World ι := { w with
    waitingConnectors := w.waitingConnectors ++ [client]
    requested := w.requested ++ [client] }
  have hrequested : Inv w₁ := by
    refine { h with counted := ?_ }
    intro other
    have := h.counted other
    simp only [w₁, List.count_append]
    omega
  exact hrequested.tryConnect (hclean.imp_right .inr)

theorem destructConnector_eq {k : Connector ι} (hcontrol : k.control = some k.id)
    (halive : (w.pcbs k.id).alive = true) :
    w.destructConnector k = some { w.replace k.id ⟨false, none, (w.pcbs k.id).rcvWnd⟩ (w.connections k.id) with
      connectors := w.connectors.erase k } := by
  have hreset : ((w.setPcb k.id { w.pcbs k.id with callback := none }).pcbs k.id).alive = true := by
    simpa [setPcb] using halive
  rw [destructConnector, hcontrol, deref_alive halive, Option.bind_some, tcpAbort, deref_alive hreset, Option.map_some,
    Option.map_some]
  simp [free, World.replace, setPcb, setConnection]

/-- A connector that is destroyed while it is connecting aborts its pcb, and is not called any more. -/
theorem Inv.cancelled (h : Inv w) {k : Connector ι} (hk : k ∈ w.connectors) :
    Inv { w.replace k.id ⟨false, none, (w.pcbs k.id).rcvWnd⟩ (w.connections k.id) with
      cancelled := k.clientFactory :: w.cancelled
      connectors := w.connectors.erase k } := by
  obtain ⟨-, halive, hcallback⟩ := h.connectors k hk
  have hperm := List.perm_cons_erase hk
  have hdistinct := (hperm.map (·.id)).nodup_iff.mp h.distinct
  rw [List.map_cons, List.nodup_cons] at hdistinct
  have hothers : Placed { w with
      cancelled := k.clientFactory :: w.cancelled
      connectors := w.connectors.erase k } := by
    refine { h with connectors := ?_, distinct := hdistinct.2 }
    intro k' hk'
    exact h.connectors k' (List.mem_of_mem_erase hk')
  have hlt : k.id < w.nextPcb := by
    by_contra hn
    have := (h.fresh k.id (Nat.le_of_not_lt hn)).1
    rw [halive] at this
    cases this
  refine ⟨?_, ?_, ?_⟩
  · apply hothers.replace hlt (Nat.le_refl _)
    · -- a connection in this place has lost its pcb before
      intro c hc
      have hvalid := h.valid k.id c hc
      refine { hvalid with control := .inl ?_ }
      rcases hvalid.control with hnone | ⟨-, -, hconnection, -⟩
      · exact hnone
      · rw [hcallback] at hconnection
        cases hconnection
    · intro hdead
      cases hdead
    · intro k' hk' he
      exact absurd (he ▸ List.mem_map_of_mem hk') hdistinct.1
  · exact (List.length_erase_le).trans h.slots
  · intro client
    have hcount := h.counted client
    rw [(hperm.map (·.clientFactory)).count_eq, List.map_cons, List.count_cons] at hcount
    simp only [World.replace, setPcb, setConnection, List.count_cons]
    omega

theorem Inv.cancelConnect (h : Inv w)
    (hp : w.Possible (.cancelConnect client available)) (hclean : w.Clean (.cancelConnect client available)) :
    ∃ w', w.cancelConnect client available = some w' ∧ Inv w' := by
  by_cases hw : client ∈ w.waitingConnectors
  · refine ⟨_, if_pos hw, { h with counted := ?_ }⟩
    intro other
    have hcount := h.counted other
    have hmoved := WaitingList.count_cancel hw w.cancelled other
    dsimp only
    omega
  · obtain ⟨k₀, hk₀, hclient₀⟩ := hp.resolve_left hw
    obtain ⟨k, hfind⟩ : ∃ k, w.connectors.find? (fun k => k.clientFactory = client) = some k := by
      apply Option.isSome_iff_exists.mp
      rw [List.find?_isSome]
      exact ⟨k₀, hk₀, by simpa using hclient₀⟩
    have hk := List.mem_of_find?_eq_some hfind
    have hclient : k.clientFactory = client := by
      have := List.find?_some hfind
      simpa using this
    obtain ⟨hcontrol, halive, -⟩ := h.connectors k hk
    subst hclient
    have hdestruct := @destructConnector_eq ι { w with cancelled := k.clientFactory :: w.cancelled } _ k hcontrol halive
    rw [World.cancelConnect, if_neg hw, hfind, Option.bind_some, hdestruct, Option.bind_some]
    apply (h.cancelled hk).tryConnect
    rcases hclean.resolve_left hw with havailable | hnone
    · exact .inl havailable
    · exact .inr (.inl hnone)

theorem Inv.step (h : Inv w) {e : Event ι} (hp : w.Possible e) (hclean : w.Clean e) :
    ∃ w', w.step e = some w' ∧ Inv w' := by
  cases e with
  | accept allocated => exact h.accept allocated
  | createdObserver id supplied => exact h.createdObserver hp hclean
  | recv p data => exact h.recv hp
  | recvNull p closing => exact h.recvNull hp hclean
  | dataReceived id => exact h.dataReceived hp
  | ackReceived id read => exact h.ackReceived hp hclean
  | closeAndDestroy id closed closing => exact hclean.elim
  | abortAndDestroy id closing => exact hclean.elim
  | fail p code closing available => exact h.fail hclean
  | connect client available => exact h.connect hclean
  | cancelConnect client available => exact h.cancelConnect hp hclean
  | connected p allocated available => exact hclean.elim

/-! ## Steps that run into a defect -/

/-- The pointer of a connector that has given its client a result is null, and `~ConnectorLwIp` uses it. -/
theorem remove_eq_none (w : World ι) (k : Connector ι) (available : Bool) : w.remove k available = none := rfl

theorem error_eq_none (w : World ι) (p : Nat) (available : Bool) : w.error p available = none := by
  unfold error
  cases w.connectors.find? fun k => k.id = p with
  | none => rfl
  | some k => exact remove_eq_none w k available

theorem Inv.connected_eq_none (h : Inv w) {allocated : Bool} :
    w.connected p allocated available = none := by
  unfold World.connected
  cases hfind : w.connectors.find? fun k => k.id = p with
  | none => rfl
  | some k =>
      obtain ⟨hcontrol, halive, hcallback⟩ := h.connectors k (List.mem_of_find?_eq_some hfind)
      rw [Option.bind_some]
      cases allocated with
      | true => exact remove_eq_none _ k available
      | false =>
          rw [if_neg (by simp), tcpAbort, hcontrol, deref_alive halive, Option.map_some, Option.bind_some, hcallback,
            if_pos rfl, error_eq_none]
          rfl

/-- `tcp_abort` calls the error callback, which does not expect that. -/
theorem Inv.abortAndDestroy_eq_none (h : Inv w) : w.abortAndDestroy id closing = none := by
  unfold abortAndDestroy
  cases hc : w.connections id with
  | none => rfl
  | some c =>
      rw [Option.bind_some]
      rcases h.control_cases hc with hnone | ⟨hsome, halive, hcallback, -⟩
      · rw [tcpAbort, hnone]
        rfl
      · rw [tcpAbort, hsome, deref_alive halive, Option.map_some, Option.bind_some, hcallback, if_pos rfl]
        exact if_neg (by simp)

/-- A pcb is used after it has been closed. -/
theorem Inv.closeAndDestroy_eq_none (h : Inv w) {closed : Bool} :
    w.closeAndDestroy id closed closing = none := by
  unfold closeAndDestroy
  cases hc : w.connections id with
  | none => rfl
  | some c =>
      rw [Option.bind_some]
      rcases h.control_cases hc with hnone | ⟨hsome, halive, -, -⟩
      · rw [hnone]
        rfl
      · rw [hsome, deref_alive halive, Option.bind_some]
        cases closed with
        | true =>
            rw [if_pos rfl, resetControl, hsome, deref_dead (by simp [free, setPcb])]
            rfl
        | false => exact h.abortAndDestroy_eq_none

omit [DecidableEq ι] in
/-- The connection aborts its pcb and returns `ERR_OK`, so that `lwIP` goes on with it. -/
theorem recvNull_eq_none
    (hc : w.connections p = some c) (hcontrol : c.control = some p) (halive : (w.pcbs p).alive = true)
    (hobserver : c.observer = true) : w.recvNull p closing = none := by
  rw [World.recvNull, resetOwnership, hc, Option.bind_some, if_pos hobserver]
  cases closing with
  | none =>
      rw [closingConnection, Option.bind_some, hc, Option.bind_some, destructConnection_eq hcontrol halive,
        Option.bind_some, returnsOk, deref_dead (by simp)]
      rfl
  | some read =>
      rw [closingConnection, ackReceived_eq hc hcontrol halive, Option.bind_some, replace_connections, Option.bind_some,
        destructConnection_eq (by exact hcontrol) (by simpa using halive), Option.bind_some, returnsOk,
        deref_dead (by simp)]
      rfl

/-- The error callback asserts that a connection is not aborted, and an observer that acknowledges in
`ClosingConnection` passes a null pointer. -/
theorem Inv.fail_eq_none (h : Inv w) {code : Err}
    (hp : w.Possible (.fail p code closing available)) (hclean : ¬ w.Clean (.fail p code closing available)) :
    w.fail p code closing available = none := by
  obtain ⟨halive, hcallback, -⟩ := hp
  unfold World.fail
  cases hregistered : (w.pcbs p).callback with
  | none => exact absurd hregistered hcallback
  | some callback =>
      cases callback with
      | connector =>
          dsimp only
          rw [error_eq_none]
          rfl
      | connection =>
          obtain ⟨c, hc, hcontrol, -⟩ := h.called ⟨halive, hregistered⟩
          dsimp only
          by_cases hcode : code = .abrt
          · rw [World.err, if_neg (by simp [hcode])]
            rfl
          · have hobserved : closing ≠ none ∧ c.observer = true := by
              constructor
              · intro hnone
                exact hclean ⟨⟨halive, hregistered⟩, hcode, .inl hnone⟩
              · by_contra hobserver
                refine hclean ⟨⟨halive, hregistered⟩, hcode, .inr (has_iff.mpr ⟨c, hc, ?_⟩)⟩
                simpa using hobserver
            obtain ⟨read, hread⟩ := Option.ne_none_iff_exists'.mp hobserved.1
            rw [if_neg hcode, World.err]
            split
            next =>
                rw [hc, Option.bind_some, resetControl_eq hcontrol halive, Option.bind_some, resetOwnership,
                  replace_connections, Option.bind_some, if_pos hobserved.2, hread, closingConnection,
                  ackReceived_lost (replace_connections _ _ _) rfl]
                rfl
            next => rfl

omit [DecidableEq ι] in
theorem tryConnect_eq_none {client : ι} {rest : List ι} (hw : w.waitingConnectors = client :: rest)
    (hroom : w.connectors.length < w.maxConnectors) : w.tryConnect false = none := by
  rw [tryConnect, hw]
  exact if_pos hroom

omit [DecidableEq ι] in
theorem connect_eq_none (hroom : w.connectors.length < w.maxConnectors) :
    w.connect client false = none := by
  obtain ⟨first, rest, hwaiting⟩ := List.exists_cons_of_ne_nil (List.append_ne_nil_of_right_ne_nil
    w.waitingConnectors (List.cons_ne_nil client []))
  exact @tryConnect_eq_none ι { w with waitingConnectors := w.waitingConnectors ++ [client], requested := _ } first rest
    hwaiting hroom

theorem Inv.cancelConnect_eq_none (h : Inv w)
    (hclean : ¬ w.Clean (.cancelConnect client available)) : w.cancelConnect client available = none := by
  obtain ⟨hw, hstarts⟩ := not_or.mp hclean
  obtain ⟨havailable, hne⟩ := not_or.mp hstarts
  rw [World.cancelConnect, if_neg hw]
  cases hfind : w.connectors.find? fun k => k.clientFactory = client with
  | none => rfl
  | some k =>
      have hk := List.mem_of_find?_eq_some hfind
      obtain ⟨hcontrol, halive, -⟩ := h.connectors k hk
      obtain ⟨first, rest, hwaiting⟩ := List.exists_cons_of_ne_nil hne
      have hdestruct := @destructConnector_eq ι { w with cancelled := client :: w.cancelled } _ k hcontrol halive
      rw [Option.bind_some, hdestruct, Option.bind_some, Bool.eq_false_iff.mpr havailable]
      refine tryConnect_eq_none hwaiting ?_
      have hslots := h.slots
      have hpos := List.length_pos_of_mem hk
      show (w.connectors.erase k).length < w.maxConnectors
      rw [List.length_erase_of_mem hk]
      omega

/-- An observer that is supplied after data has arrived is not told of it. -/
theorem Inv.not_good_of_supplied (h : Inv w) {supplied : Bool}
    (hp : w.Possible (.createdObserver id supplied)) (hclean : ¬ w.Clean (.createdObserver id supplied))
    {w' : World ι} (hstep : w.createdObserver id supplied = some w') : ¬ Good w' := by
  obtain ⟨hsupplied, hdata⟩ := Classical.not_imp.mp hclean
  obtain ⟨c, hc, hcreated⟩ := has_iff.mp hp
  have hvalid := h.valid id c hc
  have hobserver := hvalid.supplied hcreated
  rw [World.createdObserver, hc, Option.bind_some, if_pos hsupplied, Option.some.injEq] at hstep
  subst hstep
  intro hgood
  have hscheduled : c.dataReceivedScheduled = true := by
    refine hgood.notified id { c with createdObserver := false, observer := true } ?_ rfl ?_
    · simp [setConnection]
    · show c.notified < c.receiveBuffer.length
      rw [hvalid.untold hobserver]
      apply List.length_pos_of_ne_nil
      intro hempty
      exact hdata (has_iff.mpr ⟨c, hc, List.isEmpty_iff.mpr hempty⟩)
  rw [hvalid.scheduled hscheduled] at hobserver
  cases hobserver

theorem Inv.not_good (h : Inv w) {e : Event ι} (hp : w.Possible e) (hclean : ¬ w.Clean e) {w' : World ι}
    (hstep : w.step e = some w') : ¬ Good w' := by
  have nothing {result : Option (World ι)} (hnone : result = none) (hsome : result = some w') : ¬ Good w' := by
    rw [hnone] at hsome
    cases hsome
  cases e with
  | accept allocated => exact absurd trivial hclean
  | createdObserver id supplied => exact h.not_good_of_supplied hp hclean hstep
  | recv p data => exact absurd trivial hclean
  | recvNull p closing =>
      obtain ⟨c, hc, hcontrol, -⟩ := h.called hp.1
      have hobserver : c.observer = true := by
        by_contra hnone
        exact hclean (has_iff.mpr ⟨c, hc, by simpa using hnone⟩)
      exact nothing (recvNull_eq_none hc hcontrol hp.1.1 hobserver) hstep
  | dataReceived id => exact absurd trivial hclean
  | ackReceived id read =>
      obtain ⟨c, hc, -⟩ := has_iff.mp hp.1
      have hcontrol : c.control = none := by
        by_contra hsome
        refine hclean (has_iff.mpr ⟨c, hc, ?_⟩)
        exact Option.isSome_iff_ne_none.mpr hsome
      exact nothing (ackReceived_lost hc hcontrol) hstep
  | closeAndDestroy id closed closing => exact nothing h.closeAndDestroy_eq_none hstep
  | abortAndDestroy id closing => exact nothing h.abortAndDestroy_eq_none hstep
  | fail p code closing available => exact nothing (h.fail_eq_none hp hclean) hstep
  | connect client available =>
      obtain ⟨havailable, hroom⟩ := not_or.mp hclean
      rw [Bool.eq_false_iff.mpr havailable] at hstep
      exact nothing (connect_eq_none (Nat.lt_of_not_le hroom)) hstep
  | cancelConnect client available => exact nothing (h.cancelConnect_eq_none hclean) hstep
  | connected p allocated available => exact nothing h.connected_eq_none hstep

/-- **A run is sound if and only if none of its steps runs into a defect.** Sound means that no pointer of a
pcb is used after its end, that no assertion fails, that no client gets a second result, and that an
observer is told of the data that arrives. -/
theorem sound_iff_clean (tcpWnd maxConnectors : Nat) (events : List (Event ι))
    (hpossible : EventSystem.Along step Possible (initial tcpWnd maxConnectors) events) :
    ((∃ w, EventSystem.run step (initial tcpWnd maxConnectors) events = some w)
      ∧ EventSystem.Always step Good (initial tcpWnd maxConnectors) events)
    ↔ EventSystem.Along step Clean (initial tcpWnd maxConnectors) events :=
  EventSystem.run_always_iff_along Inv (fun _ h => h.good) (fun _ _ h hp hc => h.step hp hc)
    (fun _ _ _ h hp hc hs => h.not_good hp hc hs) (initial_inv tcpWnd maxConnectors) hpossible

/-- A client whose connection is established: its connector is destroyed with a null pointer. -/
theorem not_sound_of_connected : ¬ ∀ (tcpWnd maxConnectors : Nat) (events : List (Event Nat)),
    EventSystem.Along step Possible (initial tcpWnd maxConnectors) events →
      (∃ w, EventSystem.run step (initial tcpWnd maxConnectors) events = some w)
        ∧ EventSystem.Always step Good (initial tcpWnd maxConnectors) events := by
  intro hall
  have hpossible : EventSystem.Along step Possible (initial 8 1 : World Nat) [.connect 5 true, .connected 0 true true] := by
    refine EventSystem.along_cons rfl (by decide) ⟨by decide, ?_⟩
    intro w hw
    cases hw
  obtain ⟨⟨w, hw⟩, -⟩ := hall 8 1 _ hpossible
  cases hw

/-- A connection is accepted, receives data before and after its observer has acknowledged some, and is
reset by its peer; another one is refused, and a client is cancelled while it is connecting. -/
theorem sound_iff_clean_run :
    (∃ w : World Nat, EventSystem.run step (initial 8 1) [.accept true, .createdObserver 0 true, .recv 0 [1, 2, 3],
      .dataReceived 0, .ackReceived 0 2, .recv 0 [4, 5], .dataReceived 0, .accept true, .createdObserver 1 false,
      .connect 5 true, .connect 6 true, .cancelConnect 5 true, .fail 0 .rst none true] = some w)
    ∧ EventSystem.Always step Good (initial 8 1 : World Nat) [.accept true, .createdObserver 0 true, .recv 0 [1, 2, 3],
      .dataReceived 0, .ackReceived 0 2, .recv 0 [4, 5], .dataReceived 0, .accept true, .createdObserver 1 false,
      .connect 5 true, .connect 6 true, .cancelConnect 5 true, .fail 0 .rst none true] := by
  refine (sound_iff_clean 8 1 _ ?_).mpr ?_
  · repeat refine EventSystem.along_cons rfl (by decide) ?_
    trivial
  · repeat refine EventSystem.along_cons rfl (by decide) ?_
    trivial

end World

end EmbeddedInfra.LwIpLifetime
