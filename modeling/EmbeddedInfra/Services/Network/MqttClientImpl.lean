import EmbeddedInfra.Lib.EventSystem

set_option autoImplicit false

/-! # MQTT client

`services::MqttClientImpl` connects with a CONNECT packet and hands the connection to an observer of its factory
when it is acknowledged; after that it sends PUBLISH packets. The factory is told the outcome: `ConnectionEstablished`,
with a callback for the observer, or `ConnectionFailed`.
-/

namespace EmbeddedInfra.Mqtt

open EventSystem

/-! ## Packets -/

def packetTypeConAck : UInt8 := 2

def packetTypePubAck : UInt8 := 4

/-- `ExtractSize`, what follows it. The size itself is not used. `none` when the stream fails. -/
def extractSize : List UInt8 → Option (List UInt8)
  | [] => none
  | sizeByte :: rest => if 127 < sizeByte then extractSize rest else some rest

/-- `MqttParser`: the packet type, and what follows the header. -/
def parsePacket : List UInt8 → Option (UInt8 × List UInt8)
  | [] => none
  | combinedPacketType :: rest => (extractSize rest).map fun rest => (combinedPacketType >>> 4, rest)

/-- The two bytes that CONNACK and PUBACK have after their header are read. -/
def extractTwo : List UInt8 → Option (List UInt8)
  | _ :: _ :: rest => some rest
  | _ => none

/-! ## The client -/

inductive ConnectFailReason where
  | initializationFailed
  | initializationTimedOut
deriving DecidableEq, Repr

structure Message where
  topic : List UInt8
  payload : List UInt8
deriving DecidableEq, Repr

/-- What the factory and the observer are told, what the observer asks for, and what is sent. -/
inductive Entry where
  | connectionEstablished
  | connectionFailed (reason : ConnectFailReason)
  | observerConnected
  | observerClosingConnection
  | publish (message : Message)
  | publishDone
  | sendConnect
  | sendPublish (message : Message)
deriving DecidableEq, Repr

/-- The timer of `StateConnecting` runs as long as the state is there. `destroyed` when the connection has let go of
the client. -/
inductive State where
  | connecting (signaledFailure : Bool)
  | connected (message : Message) (publishTimeout : Bool)
  | destroyed
deriving DecidableEq, Repr

/-- `received` has not been acknowledged; `callbacks` have been given to the factory and not been called. `undefined`
says that something was used that is no longer there. -/
structure MqttClientImpl where
  state : State := .connecting false
  received : List UInt8 := []
  streamRequested : Bool := false
  callbacks : Nat := 0
  log : List Entry := []
  undefined : Bool := false
deriving DecidableEq, Repr

/-- What the factory does in `ConnectionEstablished`: it calls its callback with an observer, which may publish in
`Connected`, or with none, or keeps it. -/
inductive FactoryAnswer where
  | observer (publishes : Option Message)
  | nullptr
  | later
deriving DecidableEq, Repr

namespace MqttClientImpl

def notify (s : MqttClientImpl) (entry : Entry) : MqttClientImpl := { s with log := s.log ++ [entry] }

def closingConnection (s : MqttClientImpl) : MqttClientImpl :=
  match s.state with
  | .connecting false => s.notify (.connectionFailed .initializationFailed)
  | .connecting true => s
  | .connected _ _ => s.notify .observerClosingConnection
  | .destroyed => s

/-- `Connection::ResetOwnership`, also by way of `AbortAndDestroy` -/
def resetOwnership (s : MqttClientImpl) : MqttClientImpl := { s.closingConnection with state := .destroyed }

/-- `StateConnected::Publish` -/
def publish (s : MqttClientImpl) (message : Message) : MqttClientImpl :=
  match s.state with
  | .connected _ publishTimeout =>
      { s.notify (.publish message) with state := .connected message publishTimeout, streamRequested := true }
  | _ => s

def publishIfAny (s : MqttClientImpl) : Option Message → MqttClientImpl
  | some message => s.publish message
  | none => s

/-- `StateConnected::DataReceived`. The observer may publish in `PublishDone`. -/
def connectedDataReceived (s : MqttClientImpl) (publishes : Option Message) : MqttClientImpl :=
  match parsePacket s.received with
  | none => s
  | some (packetType, rest) =>
      if packetType = packetTypePubAck then
        match s.state, extractTwo rest with
        | .connected message _, some rest =>
            { ({ s with state := .connected message false }.notify .publishDone).publishIfAny publishes with received := rest }
        | _, _ => s
      else s

/-- The observer gets the connection, up to its first `DataReceived`. -/
def attach (s : MqttClientImpl) (publishes : Option Message) : MqttClientImpl :=
  ({ s with state := .connected ⟨[], []⟩ false }.notify .observerConnected).publishIfAny publishes

/-- There is no observer. -/
def refuse (s : MqttClientImpl) : MqttClientImpl := { s with state := .connecting true }.resetOwnership

/-- `StateConnecting::DataReceived` -/
def connectingDataReceived (s : MqttClientImpl) (answer : FactoryAnswer) (publishes : Option Message) : MqttClientImpl :=
  match parsePacket s.received with
  | none => s
  | some (packetType, rest) =>
      if packetType = packetTypeConAck then
        match extractTwo rest with
        | none => s
        | some rest =>
            let s := { s with received := rest }.notify .connectionEstablished
            match answer with
            | .observer first => (s.attach first).connectedDataReceived publishes
            | .nullptr => s.refuse
            | .later => { s with callbacks := s.callbacks + 1 }
      else s.resetOwnership

end MqttClientImpl

open MqttClientImpl

/-- What the connection, the timers, the factory and the observer do. -/
inductive Event where
  | connected
  | sendStreamAvailable
  | dataReceived (bytes : List UInt8) (answer : FactoryAnswer) (publishes : Option Message)
  | closingConnection
  | timeout
  | publishTimeout
  | publish (message : Message)
  /-- The factory calls a callback that it has kept. -/
  | createdClientObserver (observer : Bool) (publishes : Option Message)
deriving DecidableEq, Repr

def Event.bytes : Event → List UInt8
  | .dataReceived bytes _ _ => bytes
  | _ => []

/-- `none` for what cannot happen, or aborts. -/
def step (s : MqttClientImpl) : Event → Option MqttClientImpl
  | .connected =>
      match s.state with
      | .connecting _ => some { s with streamRequested := true }
      | _ => none
  | .sendStreamAvailable =>
      if s.streamRequested then
        match s.state with
        | .connecting _ => some { s.notify .sendConnect with streamRequested := false }
        | .connected message _ =>
            some { s.notify (.sendPublish message) with state := .connected message true, streamRequested := false }
        | .destroyed => none
      else none
  | .dataReceived bytes answer publishes =>
      let s := { s with received := s.received ++ bytes }
      match s.state with
      | .connecting _ => some (s.connectingDataReceived answer publishes)
      | .connected _ _ => some (s.connectedDataReceived publishes)
      | .destroyed => none
  | .closingConnection => if s.state = .destroyed then none else some s.resetOwnership
  | .timeout =>
      match s.state with
      | .connecting _ =>
          some ({ s with state := .connecting true }.notify (.connectionFailed .initializationTimedOut)).resetOwnership
      | _ => none
  | .publishTimeout =>
      match s.state with
      | .connected _ true => some s.resetOwnership
      | _ => none
  | .publish message =>
      match s.state with
      | .connected _ _ => some (s.publish message)
      | _ => none
  | .createdClientObserver observer publishes =>
      if 0 < s.callbacks then
        let s := { s with callbacks := s.callbacks - 1 }
        match s.state with
        | .connecting _ =>
            -- the stream reader of the callback has been destroyed
            if observer then some { s.attach publishes with undefined := true } else some s.refuse
        | _ => some { s with undefined := true }
      else none

/-! ## What is promised -/

/-- The bytes of a size: the last one has no continuation bit. -/
structure IsSize (bytes : List UInt8) : Prop where
  last : ∃ more byte, bytes = more ++ [byte] ∧ (∀ b ∈ more, 127 < b) ∧ ¬ 127 < byte

/-- A complete packet of a type, with a header and two more bytes. -/
def IsAck (packetType : UInt8) (packet : List UInt8) : Prop :=
  ∃ first size a b, packet = first :: (size ++ [a, b]) ∧ first >>> 4 = packetType ∧ IsSize size

def Entry.isOutcome : Entry → Bool
  | .connectionEstablished | .connectionFailed _ => true
  | _ => false

def Entry.isPublish : Entry → Bool
  | .publish _ => true
  | _ => false

def Entry.isSendPublish : Entry → Bool
  | .sendPublish _ => true
  | _ => false

def MqttClientImpl.outcomes (s : MqttClientImpl) : Nat := s.log.countP Entry.isOutcome

def MqttClientImpl.publishes (s : MqttClientImpl) : Nat := s.log.countP Entry.isPublish

def MqttClientImpl.sentPublishes (s : MqttClientImpl) : Nat := s.log.countP Entry.isSendPublish

def MqttClientImpl.publishDones (s : MqttClientImpl) : Nat := s.log.count .publishDone

/-- **The factory is told one outcome**, which is there when the client is destroyed. The bytes that have come in begin
with a complete CONNACK when the connection was established, and after it comes a complete PUBACK for every
`PublishDone`; there are no more of these than messages that were published and sent. -/
structure MqttClientImpl.Reports (s : MqttClientImpl) (arrived : List UInt8) : Prop where
  atMostOne : s.outcomes ≤ 1
  one : s.state = .destroyed → s.outcomes = 1
  packets : ∃ (conAck : List UInt8) (pubAcks : List (List UInt8)), arrived = conAck ++ pubAcks.flatten ++ s.received ∧
    (.connectionEstablished ∈ s.log → IsAck packetTypeConAck conAck) ∧
    (∀ pubAck ∈ pubAcks, IsAck packetTypePubAck pubAck) ∧ pubAcks.length = s.publishDones
  published : s.publishDones ≤ s.publishes ∧ s.publishDones ≤ s.sentPublishes
  defined : s.undefined = false

/-- What the parser finds at the front of some bytes, behind which others follow. -/
def parseAck (packetType : UInt8) (bytes : List UInt8) : Option (List UInt8) :=
  match parsePacket bytes with
  | some (found, rest) => if found = packetType then extractTwo rest else none
  | none => none

/-- A PUBACK is at the front of the bytes that are read by `StateConnected`. -/
def pubAckArrives (s : MqttClientImpl) (bytes : List UInt8) : Bool :=
  match s.state with
  | .connecting _ => ((parseAck packetTypeConAck (s.received ++ bytes)).bind (parseAck packetTypePubAck)).isSome
  | .connected _ _ => (parseAck packetTypePubAck (s.received ++ bytes)).isSome
  | .destroyed => false

/-- The factory does not keep its callback, and a PUBACK comes for a message that was sent and not acknowledged. -/
def Prompt (s : MqttClientImpl) : Event → Prop
  | .dataReceived bytes answer _ => answer ≠ .later ∧
      (pubAckArrives s bytes = true → s.publishDones < s.publishes ∧ s.publishDones < s.sentPublishes)
  | _ => True

/-! ## Packets that are read -/

variable {rest : List UInt8}

theorem extractSize_eq_some {bytes : List UInt8} (h : extractSize bytes = some rest) :
    ∃ size, bytes = size ++ rest ∧ IsSize size := by
  induction bytes with
  | nil => cases h
  | cons byte bytes ih =>
      rw [extractSize] at h
      split at h
      case isTrue hmore =>
        obtain ⟨size, rfl, more, last, rfl, hall, hlast⟩ := ih h
        refine ⟨byte :: (more ++ [last]), rfl, byte :: more, last, rfl, ?_, hlast⟩
        intro b hb
        rcases List.mem_cons.mp hb with rfl | hb
        · exact hmore
        · exact hall b hb
      case isFalse hlast =>
        cases h
        exact ⟨[byte], rfl, [], byte, rfl, by simp, hlast⟩

theorem parseAck_eq_some {packetType : UInt8} {bytes : List UInt8} (h : parseAck packetType bytes = some rest) :
    ∃ packet, bytes = packet ++ rest ∧ IsAck packetType packet := by
  unfold parseAck parsePacket at h
  cases bytes with
  | nil => cases h
  | cons first bytes =>
      cases hsize : extractSize bytes with
      | none => simp [hsize] at h
      | some after =>
          simp only [hsize, Option.map_some, Option.ite_none_right_eq_some] at h
          obtain ⟨htype, htwo⟩ := h
          obtain ⟨size, rfl, hissize⟩ := extractSize_eq_some hsize
          cases after with
          | nil => cases htwo
          | cons a after =>
              cases after with
              | nil => cases htwo
              | cons b after =>
                  cases htwo
                  exact ⟨first :: (size ++ [a, b]), by simp, first, size, a, b, rfl, htype, hissize⟩

/-! ## The invariant -/

/-- While the client is connecting, no packet has been read and nothing has been reported. -/
structure Inv (arrived : List UInt8) (s : MqttClientImpl) : Prop where
  reports : s.Reports arrived
  connecting : ∀ signaledFailure, s.state = .connecting signaledFailure →
    signaledFailure = false ∧ s.outcomes = 0 ∧ s.publishDones = 0 ∧ arrived = s.received
  connected : ∀ message publishTimeout, s.state = .connected message publishTimeout → s.outcomes = 1
  callbacks : s.callbacks = 0

variable {s s' : MqttClientImpl} {arrived : List UInt8} {message : Message}
  {publishTimeout signaledFailure : Bool}

section Notify

variable (s) (entry : Entry)

@[simp] theorem outcomes_notify : (s.notify entry).outcomes = s.outcomes + if entry.isOutcome then 1 else 0 := by
  simp [outcomes, notify, List.countP_append, List.countP_singleton]

@[simp] theorem publishes_notify : (s.notify entry).publishes = s.publishes + if entry.isPublish then 1 else 0 := by
  simp [publishes, notify, List.countP_append, List.countP_singleton]

@[simp] theorem sentPublishes_notify :
    (s.notify entry).sentPublishes = s.sentPublishes + if entry.isSendPublish then 1 else 0 := by
  simp [sentPublishes, notify, List.countP_append, List.countP_singleton]

@[simp] theorem publishDones_notify : (s.notify entry).publishDones = s.publishDones + if entry = .publishDone then 1 else 0 := by
  simp [publishDones, notify, List.count_append, List.count_singleton]

end Notify

/-- A notification that is neither of the two that come with a packet. -/
theorem MqttClientImpl.Reports.notify (entry : Entry) (h : s.Reports arrived) (hlog : s'.log = (s.notify entry).log)
    (hentry : entry ≠ .connectionEstablished ∧ entry ≠ .publishDone) (hreceived : s'.received = s.received)
    (hdefined : s'.undefined = s.undefined) (hmost : s'.outcomes ≤ 1) (hone : s'.state = .destroyed → s'.outcomes = 1) :
    s'.Reports arrived := by
  obtain ⟨conAck, pubAcks, hbytes, hconAck, hpubAcks, hlength⟩ := h.packets
  have hdones : s'.publishDones = s.publishDones := by
    have hnotify := publishDones_notify s entry
    rw [if_neg hentry.2, publishDones, ← hlog] at hnotify
    exact hnotify
  have hpublishes : s.publishes ≤ s'.publishes := by
    have hnotify := publishes_notify s entry
    rw [publishes, ← hlog] at hnotify
    rw [publishes, publishes] at *
    omega
  have hsent : s.sentPublishes ≤ s'.sentPublishes := by
    have hnotify := sentPublishes_notify s entry
    rw [sentPublishes, ← hlog] at hnotify
    rw [sentPublishes, sentPublishes] at *
    omega
  have hpublished := h.published
  refine ⟨hmost, hone, ⟨conAck, pubAcks, ?_, ?_, hpubAcks, hlength.trans hdones.symm⟩, by omega, hdefined.trans h.defined⟩
  · rw [hreceived, hbytes]
  · intro hmem
    rw [hlog, MqttClientImpl.notify] at hmem
    rcases List.mem_append.mp hmem with hmem | hmem
    · exact hconAck hmem
    · exact absurd (List.mem_singleton.mp hmem).symm hentry.1

/-- There is a last call, and the client is destroyed. -/
theorem Inv.destroyed (entry : Entry) (h : Inv arrived s)
    (hentry : entry ≠ .connectionEstablished ∧ entry ≠ .publishDone)
    (hone : s.outcomes + (if entry.isOutcome then 1 else 0) = 1) :
    Inv arrived { s.notify entry with state := .destroyed } := by
  have houtcomes : ({ s.notify entry with state := .destroyed } : MqttClientImpl).outcomes = 1 :=
    (outcomes_notify s entry).trans hone
  refine ⟨?_, by nofun, by nofun, h.callbacks⟩
  exact h.reports.notify _ rfl hentry rfl rfl (le_of_eq houtcomes) (fun _ => houtcomes)

/-- The connection lets go of a client that has been connected. -/
theorem Inv.resetOwnership_connected (h : Inv arrived s)
    (hstate : s.state = .connected message publishTimeout) : Inv arrived s.resetOwnership := by
  have hone := h.connected _ _ hstate
  rw [resetOwnership, closingConnection, hstate]
  exact h.destroyed _ ⟨by nofun, by nofun⟩ (by simp [hone, Entry.isOutcome])

/-- The connection lets go of a client that is still connecting. -/
theorem Inv.resetOwnership_connecting (h : Inv arrived s)
    (hstate : s.state = .connecting signaledFailure) : Inv arrived s.resetOwnership := by
  obtain ⟨rfl, hzero, -, -⟩ := h.connecting _ hstate
  rw [resetOwnership, closingConnection, hstate]
  exact h.destroyed _ ⟨by nofun, by nofun⟩ (by simp [hzero, Entry.isOutcome])

/-- A minute has passed. -/
theorem Inv.timeout (h : Inv arrived s) (hstate : s.state = .connecting signaledFailure) :
    Inv arrived (notify { s with state := .connecting true }
      (.connectionFailed .initializationTimedOut)).resetOwnership := by
  obtain ⟨rfl, hzero, -, -⟩ := h.connecting _ hstate
  exact h.destroyed (.connectionFailed .initializationTimedOut) ⟨by nofun, by nofun⟩ (by simp [hzero, Entry.isOutcome])

/-- Nothing changes for the factory while the observer has the connection. -/
theorem Inv.notify_connected (entry : Entry) (message' : Message)
    (publishTimeout' streamRequested : Bool) (h : Inv arrived s) (hstate : s.state = .connected message publishTimeout)
    (hentry : entry.isOutcome = false ∧ entry ≠ .publishDone) :
    Inv arrived { s.notify entry with state := .connected message' publishTimeout', streamRequested := streamRequested } := by
  have hone := h.connected _ _ hstate
  have houtcomes : ({ s.notify entry with state := .connected message' publishTimeout', streamRequested := streamRequested } :
      MqttClientImpl).outcomes = 1 :=
    (outcomes_notify s entry).trans (by simp [hone, hentry.1])
  refine ⟨?_, by nofun, fun _ _ _ => houtcomes, h.callbacks⟩
  refine h.reports.notify entry rfl ⟨?_, hentry.2⟩ rfl rfl (le_of_eq houtcomes) (by nofun)
  rintro rfl
  cases hentry.1

theorem Inv.publish (h : Inv arrived s) (hstate : s.state = .connected message publishTimeout)
    (message' : Message) : Inv arrived (s.publish message') := by
  rw [MqttClientImpl.publish, hstate]
  exact h.notify_connected (.publish message') message' publishTimeout true hstate ⟨rfl, by nofun⟩

theorem Inv.publishIfAny (h : Inv arrived s)
    (hstate : s.state = .connected message publishTimeout) (publishes : Option Message) :
    Inv arrived (s.publishIfAny publishes) := by
  cases publishes with
  | none => exact h
  | some message' => exact h.publish hstate message'

/-! ## Data -/

theorem publishIfAny_received (s : MqttClientImpl) (publishes : Option Message) (rest : List UInt8) :
    { s.publishIfAny publishes with received := rest } =
      publishIfAny { s with received := rest } publishes := by
  cases publishes with
  | none => rfl
  | some message =>
      simp only [publishIfAny, publish]
      split <;> simp_all [notify]

/-- `StateConnected` reads at most one packet, which it takes only when it is a PUBACK. -/
theorem connectedDataReceived_cases (hstate : s.state = .connected message publishTimeout)
    (publishes : Option Message) :
    s.connectedDataReceived publishes = s ∨
    ∃ rest, parseAck packetTypePubAck s.received = some rest ∧ s.connectedDataReceived publishes =
      (notify { s with state := .connected message false, received := rest } .publishDone).publishIfAny
        publishes := by
  unfold connectedDataReceived parseAck
  cases hparse : parsePacket s.received with
  | none => exact .inl rfl
  | some found =>
      obtain ⟨packetType, after⟩ := found
      by_cases htype : packetType = packetTypePubAck
      · cases htwo : extractTwo after with
        | none => exact .inl (by simp [htype, hstate, htwo])
        | some rest =>
            refine .inr ⟨rest, by simp [htype, htwo], ?_⟩
            simp only [htype, if_true, hstate, htwo]
            exact publishIfAny_received _ publishes rest
      · exact .inl (by simp [htype])

theorem Inv.connectedDataReceived (h : Inv arrived s)
    (hstate : s.state = .connected message publishTimeout) (publishes : Option Message)
    (hawaited : (parseAck packetTypePubAck s.received).isSome = true →
      s.publishDones < s.publishes ∧ s.publishDones < s.sentPublishes) :
    Inv arrived (s.connectedDataReceived publishes) := by
  rcases connectedDataReceived_cases hstate publishes with hsame | ⟨rest, hparse, hresult⟩
  · rw [hsame]
    exact h
  obtain ⟨packet, hpacket, hack⟩ := parseAck_eq_some hparse
  obtain ⟨hpublishes, hsent⟩ := hawaited (by rw [hparse]; rfl)
  obtain ⟨conAck, pubAcks, hbytes, hconAck, hpubAcks, hlength⟩ := h.reports.packets
  have hone := h.connected _ _ hstate
  rw [hresult]
  refine Inv.publishIfAny ?_ rfl publishes
  have houtcomes : (notify { s with state := .connected message false, received := rest }
      .publishDone).outcomes = 1 := (outcomes_notify _ .publishDone).trans hone
  have hdones : (notify { s with state := .connected message false, received := rest }
      .publishDone).publishDones = s.publishDones + 1 := publishDones_notify _ .publishDone
  have hcalls : (notify { s with state := .connected message false, received := rest }
      .publishDone).publishes = s.publishes := publishes_notify _ .publishDone
  have hsends : (notify { s with state := .connected message false, received := rest }
      .publishDone).sentPublishes = s.sentPublishes := sentPublishes_notify _ .publishDone
  refine ⟨⟨le_of_eq houtcomes, by nofun, ?_, by omega, h.reports.defined⟩, by nofun, fun _ _ _ => houtcomes, h.callbacks⟩
  -- the packet is one more PUBACK
  refine ⟨conAck, pubAcks ++ [packet], ?_, ?_, ?_, ?_⟩
  · rw [hbytes, hpacket]
    simp [notify]
  · intro hmem
    refine hconAck ?_
    simpa [notify] using hmem
  · intro pubAck hpubAck
    rcases List.mem_append.mp hpubAck with hpubAck | hpubAck
    · exact hpubAcks pubAck hpubAck
    · rw [List.mem_singleton.mp hpubAck]
      exact hack
  · rw [List.length_append, List.length_singleton, hlength, hdones]

/-- What `StateConnecting` does with the bytes: nothing, or another packet than a CONNACK has come, or a CONNACK. -/
theorem connectingDataReceived_cases (s : MqttClientImpl) (answer : FactoryAnswer) (publishes : Option Message) :
    s.connectingDataReceived answer publishes = s ∨ s.connectingDataReceived answer publishes = s.resetOwnership ∨
    ∃ rest, parseAck packetTypeConAck s.received = some rest ∧
      ((∃ first, answer = .observer first ∧ s.connectingDataReceived answer publishes =
        ((notify { s with received := rest } .connectionEstablished).attach first).connectedDataReceived
          publishes) ∨
      (answer = .nullptr ∧ s.connectingDataReceived answer publishes =
        (notify { s with received := rest } .connectionEstablished).refuse) ∨ answer = .later) := by
  unfold connectingDataReceived parseAck
  cases hparse : parsePacket s.received with
  | none => exact .inl rfl
  | some found =>
      obtain ⟨packetType, after⟩ := found
      by_cases htype : packetType = packetTypeConAck
      · cases htwo : extractTwo after with
        | none => exact .inl (by simp [htype, htwo])
        | some rest =>
            refine .inr (.inr ⟨rest, by simp [htype, htwo], ?_⟩)
            cases answer with
            | observer first => exact .inl ⟨first, rfl, by simp [htype, htwo]⟩
            | nullptr => exact .inr (.inl ⟨rfl, by simp [htype, htwo]⟩)
            | later => exact .inr (.inr rfl)
      · exact .inr (.inl (by simp [htype]))

/-- The connection is established, and goes to the observer or is destroyed. -/
theorem Inv.established {state : State} (h : Inv arrived s)
    (hstate : s.state = .connecting signaledFailure) (hparse : parseAck packetTypeConAck s.received = some rest)
    (hnext : ∀ signaledFailure, state ≠ .connecting signaledFailure) :
    Inv arrived { notify { s with received := rest } .connectionEstablished with state := state } := by
  obtain ⟨-, hzero, hdones, harrived⟩ := h.connecting _ hstate
  obtain ⟨packet, hpacket, hack⟩ := parseAck_eq_some hparse
  have houtcomes : ({ notify { s with received := rest } .connectionEstablished with state := state } :
      MqttClientImpl).outcomes = 1 :=
    (outcomes_notify { s with received := rest } .connectionEstablished).trans (congrArg (· + 1) hzero)
  have hdones' : ({ notify { s with received := rest } .connectionEstablished with state := state } :
      MqttClientImpl).publishDones = 0 :=
    (publishDones_notify { s with received := rest } .connectionEstablished).trans hdones
  refine ⟨⟨le_of_eq houtcomes, fun _ => houtcomes, ?_, by omega, h.reports.defined⟩, ?_, fun _ _ _ => houtcomes, h.callbacks⟩
  · exact ⟨packet, [], by simp [harrived, hpacket, notify], fun _ => hack, by simp, hdones'.symm⟩
  · intro other hother
    exact absurd hother (hnext other)

/-- A message that the observer publishes is not sent yet. -/
theorem publishIfAny_spec (hstate : s.state = .connected message publishTimeout)
    (publishes : Option Message) :
    (∃ message', (s.publishIfAny publishes).state = .connected message' publishTimeout) ∧
      (s.publishIfAny publishes).received = s.received ∧ (s.publishIfAny publishes).publishDones = s.publishDones ∧
      s.publishes ≤ (s.publishIfAny publishes).publishes ∧
      (s.publishIfAny publishes).sentPublishes = s.sentPublishes := by
  cases publishes with
  | none => exact ⟨⟨message, hstate⟩, rfl, rfl, le_refl _, rfl⟩
  | some message' =>
      rw [publishIfAny, publish, hstate]
      have hcalls := publishes_notify s (.publish message')
      refine ⟨⟨message', rfl⟩, rfl, publishDones_notify s (.publish message'), ?_,
        sentPublishes_notify s (.publish message')⟩
      exact le_trans (Nat.le_add_right _ _) (le_of_eq hcalls.symm)

/-- The observer has the connection. -/
theorem Inv.attach (h : Inv arrived { s with state := .connected ⟨[], []⟩ false }) (publishes : Option Message) :
    Inv arrived (s.attach publishes) ∧ ∃ message, (s.attach publishes).state = .connected message false ∧
      (s.attach publishes).received = s.received ∧ (s.attach publishes).publishDones = s.publishDones ∧
      s.publishes ≤ (s.attach publishes).publishes ∧ (s.attach publishes).sentPublishes = s.sentPublishes := by
  have hnotified : Inv arrived (notify { s with state := .connected ⟨[], []⟩ false } .observerConnected) :=
    h.notify_connected .observerConnected ⟨[], []⟩ false s.streamRequested rfl ⟨rfl, by nofun⟩
  obtain ⟨⟨message, hstate⟩, hreceived, hdones, hpublishes, hsent⟩ :=
    @publishIfAny_spec (notify { s with state := .connected ⟨[], []⟩ false } .observerConnected)
      ⟨[], []⟩ false rfl publishes
  refine ⟨hnotified.publishIfAny rfl publishes, message, hstate, hreceived, ?_, ?_, ?_⟩
  · exact hdones.trans (publishDones_notify { s with state := .connected ⟨[], []⟩ false } .observerConnected)
  · exact le_trans (le_of_eq (publishes_notify { s with state := .connected ⟨[], []⟩ false } .observerConnected).symm) hpublishes
  · exact hsent.trans (sentPublishes_notify { s with state := .connected ⟨[], []⟩ false } .observerConnected)

theorem Inv.connectingDataReceived (h : Inv arrived s)
    (hstate : s.state = .connecting signaledFailure) {answer : FactoryAnswer} (hanswer : answer ≠ .later)
    (publishes : Option Message)
    (hawaited : ((parseAck packetTypeConAck s.received).bind (parseAck packetTypePubAck)).isSome = true →
      s.publishDones < s.publishes ∧ s.publishDones < s.sentPublishes) :
    Inv arrived (s.connectingDataReceived answer publishes) := by
  rcases connectingDataReceived_cases s answer publishes with hsame | hreset | ⟨rest, hparse, hcase⟩
  · rw [hsame]
    exact h
  · rw [hreset]
    exact h.resetOwnership_connecting hstate
  rcases hcase with ⟨first, -, hresult⟩ | ⟨-, hresult⟩ | hlater
  · have hestablished : Inv arrived { notify { s with received := rest } .connectionEstablished with
        state := .connected ⟨[], []⟩ false } := h.established hstate hparse (by nofun)
    obtain ⟨hattached, message, hnext, hreceived, hdones, hpublishes, hsent⟩ := hestablished.attach first
    have hdones' : (notify { s with received := rest } .connectionEstablished).publishDones = s.publishDones :=
      publishDones_notify { s with received := rest } .connectionEstablished
    have hpublishes' : (notify { s with received := rest } .connectionEstablished).publishes = s.publishes :=
      publishes_notify { s with received := rest } .connectionEstablished
    have hsent' : (notify { s with received := rest } .connectionEstablished).sentPublishes = s.sentPublishes :=
      sentPublishes_notify { s with received := rest } .connectionEstablished
    rw [hresult]
    refine hattached.connectedDataReceived hnext publishes ?_
    intro hpubAck
    rw [hreceived] at hpubAck
    have hawaits := hawaited (by rw [hparse]; exact hpubAck)
    omega
  · rw [hresult]
    exact h.established hstate hparse (by nofun)
  · exact absurd hlater hanswer

/-! ## Runs -/

theorem Inv.arrive (h : Inv arrived s) (bytes : List UInt8) :
    Inv (arrived ++ bytes) { s with received := s.received ++ bytes } := by
  obtain ⟨conAck, pubAcks, hbytes, hconAck, hpubAcks, hlength⟩ := h.reports.packets
  refine ⟨{ h.reports with packets := ?_ }, ?_, h.connected, h.callbacks⟩
  · exact ⟨conAck, pubAcks, by rw [hbytes, List.append_assoc], hconAck, hpubAcks, hlength⟩
  · intro signaledFailure hstate
    obtain ⟨hsignaled, hzero, hdones, harrived⟩ := h.connecting signaledFailure hstate
    exact ⟨hsignaled, hzero, hdones, by rw [harrived]⟩

theorem Inv.step {e : Event} (h : Inv arrived s) (hprompt : Prompt s e) (hstep : step s e = some s') :
    Inv (arrived ++ e.bytes) s' := by
  cases e with
  | dataReceived bytes answer publishes =>
      have harrive := h.arrive bytes
      obtain ⟨hanswer, hawaited⟩ := hprompt
      unfold pubAckArrives at hawaited
      simp only [Mqtt.step] at hstep
      split at hstep
      case h_1 signaledFailure hstate =>
        rw [show s.state = _ from hstate] at hawaited
        cases hstep
        exact harrive.connectingDataReceived hstate hanswer publishes hawaited
      case h_2 message publishTimeout hstate =>
        rw [show s.state = _ from hstate] at hawaited
        cases hstep
        exact harrive.connectedDataReceived hstate publishes hawaited
      case h_3 => cases hstep
  | connected =>
      show Inv (arrived ++ []) s'
      rw [List.append_nil]
      simp only [Mqtt.step] at hstep
      split at hstep
      · cases hstep
        exact { h with reports := { h.reports with } }
      · cases hstep
  | sendStreamAvailable =>
      show Inv (arrived ++ []) s'
      rw [List.append_nil]
      simp only [Mqtt.step, Option.ite_none_right_eq_some] at hstep
      obtain ⟨-, hstep⟩ := hstep
      cases hstate : s.state with
      | connecting signaledFailure =>
          simp only [hstate, Option.some.injEq] at hstep
          rw [← hstep]
          obtain ⟨hsignaled, hzero, hdones, harrived⟩ := h.connecting signaledFailure hstate
          have houtcomes : ({ s.notify .sendConnect with streamRequested := false } : MqttClientImpl).outcomes = 0 :=
            (outcomes_notify s .sendConnect).trans hzero
          refine ⟨?_, ?_, ?_, h.callbacks⟩
          · refine h.reports.notify .sendConnect rfl ⟨by nofun, by nofun⟩ rfl rfl (le_of_eq_of_le houtcomes (Nat.zero_le 1)) ?_
            intro hdestroyed
            cases hstate.symm.trans hdestroyed
          · intro other hother
            cases hstate.symm.trans hother
            exact ⟨hsignaled, houtcomes, (publishDones_notify s .sendConnect).trans hdones, harrived⟩
          · intro message publishTimeout hconnected
            cases hstate.symm.trans hconnected
      | connected message publishTimeout =>
          simp only [hstate, Option.some.injEq] at hstep
          rw [← hstep]
          exact h.notify_connected (.sendPublish message) message true false hstate ⟨rfl, by nofun⟩
      | destroyed => simp [hstate] at hstep
  | closingConnection =>
      show Inv (arrived ++ []) s'
      rw [List.append_nil]
      simp only [Mqtt.step, Option.ite_none_left_eq_some, Option.some.injEq] at hstep
      obtain ⟨halive, rfl⟩ := hstep
      cases hstate : s.state with
      | connecting signaledFailure => exact h.resetOwnership_connecting hstate
      | connected message publishTimeout => exact h.resetOwnership_connected hstate
      | destroyed => exact absurd hstate halive
  | timeout =>
      show Inv (arrived ++ []) s'
      rw [List.append_nil]
      simp only [Mqtt.step] at hstep
      split at hstep
      case h_1 signaledFailure hstate =>
        cases hstep
        exact h.timeout hstate
      case h_2 => cases hstep
  | publishTimeout =>
      show Inv (arrived ++ []) s'
      rw [List.append_nil]
      simp only [Mqtt.step] at hstep
      split at hstep
      case h_1 message hstate =>
        cases hstep
        exact h.resetOwnership_connected hstate
      case h_2 => cases hstep
  | publish message =>
      show Inv (arrived ++ []) s'
      rw [List.append_nil]
      simp only [Mqtt.step] at hstep
      split at hstep
      case h_1 _ _ hstate =>
        cases hstep
        exact h.publish hstate message
      case h_2 => cases hstep
  | createdClientObserver observer publishes =>
      simp [Mqtt.step, h.callbacks] at hstep

theorem Inv.run {events : List Event} (h : Inv arrived s) (hprompt : Along Mqtt.step Prompt s events)
    (hrun : run Mqtt.step s events = some s') : Inv (arrived ++ events.flatMap Event.bytes) s' := by
  induction events generalizing s arrived with
  | nil =>
      cases hrun
      simpa using h
  | cons e rest ih =>
      obtain ⟨m, hm, hrest⟩ := run_cons.mp hrun
      have hafter := ih (h.step hprompt.1 hm) (hprompt.2 m hm) hrest
      rwa [List.append_assoc] at hafter

theorem inv_initial : Inv [] {} := by
  refine ⟨⟨Nat.zero_le _, by nofun, ⟨[], [], rfl, by nofun, by nofun, rfl⟩, ⟨le_refl _, le_refl _⟩, rfl⟩, ?_, by nofun, rfl⟩
  intro signaledFailure hstate
  cases hstate
  exact ⟨rfl, rfl, rfl, rfl⟩

/-- **The outcome of a connection**: in every run in which the factory does not keep its callback and PUBACKs come only
for messages that were sent, the factory is told one outcome, and the observer of no more messages than were
published. -/
theorem reports_of_run {events : List Event} (hprompt : Along step Prompt {} events) (hrun : run step {} events = some s) :
    s.Reports (events.flatMap Event.bytes) :=
  (inv_initial.run hprompt hrun).reports

/-- A connection is established in parts, and a message is published and acknowledged. -/
def publishing : List Event :=
  [.connected, .sendStreamAvailable, .dataReceived [0x20, 2] .nullptr none, .dataReceived [0, 0] (.observer none) none,
    .publish ⟨[0x74], [0x70]⟩, .sendStreamAvailable, .dataReceived [0x40, 2, 1, 0] .nullptr none]

def publishingDone : MqttClientImpl where
  state := .connected ⟨[0x74], [0x70]⟩ false
  log := [.sendConnect, .connectionEstablished, .observerConnected, .publish ⟨[0x74], [0x70]⟩,
    .sendPublish ⟨[0x74], [0x70]⟩, .publishDone]

theorem run_publishing : run step {} publishing = some publishingDone := by decide

theorem reports_of_run_publishing : run step {} publishing = some publishingDone ∧
    publishingDone.Reports (publishing.flatMap Event.bytes) := by
  refine ⟨run_publishing, reports_of_run ?_ run_publishing⟩
  refine along_cons rfl trivial (along_cons rfl trivial (along_cons rfl ⟨by decide, by decide⟩
    (along_cons rfl ⟨by decide, by decide⟩ (along_cons rfl trivial (along_cons rfl trivial
      (along_cons rfl ⟨by decide, by decide⟩ trivial))))))

/-- The factory keeps its callback, and is told of a failure after a minute, although the connection was established. -/
theorem not_reports_of_run_later : ¬ ∀ (events : List Event) (s : MqttClientImpl), run step {} events = some s →
    s.Reports (events.flatMap Event.bytes) := by
  intro hall
  have hreports := hall [.connected, .sendStreamAvailable, .dataReceived [0x20, 2, 0, 0] .later none, .timeout]
    { state := .destroyed, callbacks := 1,
      log := [.sendConnect, .connectionEstablished, .connectionFailed .initializationTimedOut] } (by decide)
  exact absurd hreports.atMostOne (by decide)

end EmbeddedInfra.Mqtt
