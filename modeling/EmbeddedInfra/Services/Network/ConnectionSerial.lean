import EmbeddedInfra.Lib.EventSystem

set_option autoImplicit false

/-! # The connection over a serial line

`services::ConnectionSerial` sends messages over a serial line, one at a time. After a handshake in which
both ends tell the size of their buffers it is connected; anything that it does not expect makes it start
again. The content of a message is written by the user into a send stream, of which there is one.

The line holds the transmission that is going on with the callback for its completion. The loop of
`DataReceived` is taken one turn at a time.
-/

namespace EmbeddedInfra.ConnectionSerial

/-- The values of a `size_t`. -/
def sizeRange : Nat := 2 ^ 32

/-- `a - b` of a `size_t`. -/
def subtract (a b : Nat) : Nat := (a + sizeRange - b % sizeRange) % sizeRange

/-! ## Headers -/

def headerSize : Nat := 3

def escape : UInt8 := 0xf9

def sizeRequest : UInt8 := 0xfa

def sizeResponse : UInt8 := 0xfb

def sizeResponseRequest : UInt8 := 0xfc

def content : UInt8 := 0xfd

def sizeUpdate : UInt8 := 0xfe

def isHeaderByte (byte : UInt8) : Bool := sizeRequest ≤ byte && byte ≤ sizeUpdate

def isEscapeByte (byte : UInt8) : Bool := byte == escape

def isEscapedByte (byte : UInt8) : Bool := isEscapeByte byte || isHeaderByte byte

/-- The bytes of a header that have been received. -/
structure MessageHeader where
  headerContent : List UInt8
  isComplete : Bool
  isFailed : Bool
  deriving DecidableEq, Repr

namespace MessageHeader

def empty : MessageHeader := { headerContent := [], isComplete := false, isFailed := false }

def isDone (header : MessageHeader) : Bool := header.isComplete || header.isFailed

def type (header : MessageHeader) : UInt8 := header.headerContent.headD 0

def size (header : MessageHeader) : Nat :=
  (header.headerContent.getD 1 0).toNat * 256 + (header.headerContent.getD 2 0).toNat

/-- A size request consists of three bytes that are the same. -/
def addByte (header : MessageHeader) (byte : UInt8) : MessageHeader :=
  if header.isDone then header
  else
    match header.headerContent with
    | [] => if isHeaderByte byte then { header with headerContent := [byte] } else { header with isFailed := true }
    | [type] =>
        if type = sizeRequest ∧ byte ≠ sizeRequest then { header with isFailed := true }
        else { header with headerContent := [type, byte] }
    | type :: rest =>
        { headerContent := type :: rest ++ [byte], isComplete := true
          isFailed := type = sizeRequest ∧ byte ≠ sizeRequest }

/-- The bytes of a header that is sent. -/
def range (type : UInt8) (size : Nat) : List UInt8 :=
  if type = sizeRequest then [sizeRequest, sizeRequest, sizeRequest]
  else [type, UInt8.ofNat (size / 256), UInt8.ofNat size]

end MessageHeader

/-! ## States -/

/-- The members of `StateInit`. -/
structure StateInit where
  sendInProgress : Bool
  resetAfterSend : Bool
  responseRequestAfterSend : Bool
  deriving DecidableEq, Repr

inductive State
  | initSizeRequest (init : StateInit) (responseAfterSend windowRequestTimer : Bool)
  | initSizeResponseRequest (init : StateInit)
  | initSizeResponse (init : StateInit)
  | connectedIdle
  | connectedSendingContent (resetAfterSend : Bool) (partialContentSizeBeingSent : Nat)
  | sendingUpdate (resetAfterSend : Bool)
  deriving DecidableEq, Repr

/-- The callbacks that are given to `SendData`. -/
inductive Callback
  | sizeRequestSent
  | sizeResponseRequestSent
  | sizeResponseSent
  | contentHeaderSent
  | partialContentSent (rawContentSize : Nat)
  | updateSent
  deriving DecidableEq, Repr

structure Transmission where
  data : List UInt8
  onDone : Callback
  deriving DecidableEq, Repr

/-- `allocations` and `evaluations` count the events that are scheduled: those that make a send stream,
and those that evaluate what is to be sent. `writer` tells that a send stream is held. The last two
members record whether data has been sent during a transmission and whether a send stream has been made
while another one was held. -/
structure Connection where
  sendBufferSize : Nat
  receiveBufferSize : Nat
  receivedDataQueueMaxSize : Nat
  minUpdateSize : Nat
  contentToReceive : Nat
  messageHeader : Option MessageHeader
  pendingSendStream : Nat
  receivedDataQueue : List UInt8
  contentReadyForSend : List UInt8
  receiveQueue : List UInt8
  state : State
  sendStreamAvailable : Bool
  observerNotified : Bool
  peerBufferSize : Nat
  accumulatedWindowSizeUpdate : Option Nat
  updateInProgress : Bool
  isEscapeSeen : Bool
  totalContentSizeToSend : Nat
  transmission : Option Transmission
  allocations : Nat
  evaluations : Nat
  writer : Bool
  overlappedSend : Bool
  overlappedStream : Bool

namespace Connection

/-! ## Sending -/

/-- `SendData` of the serial line. -/
def sendData (c : Connection) (data : List UInt8) (onDone : Callback) : Connection :=
  { c with
    transmission := some { data := data, onDone := onDone }
    overlappedSend := c.overlappedSend || c.transmission.isSome }

def allocatedSendStream (c : Connection) : Connection :=
  { c with sendStreamAvailable := false, pendingSendStream := 0, allocations := c.allocations + 1 }

def sendStreamAllocatable (c : Connection) : Connection :=
  if c.pendingSendStream ≠ 0 then { c with sendStreamAvailable := true }.allocatedSendStream
  else { c with sendStreamAvailable := true }

def sendWindowSizeRequest (c : Connection) (init : StateInit) (responseAfterSend : Bool) : Connection :=
  { c with state := .initSizeRequest { init with sendInProgress := true } responseAfterSend false }.sendData
    (MessageHeader.range sizeRequest 0) .sizeRequestSent

def newStateInit : StateInit :=
  { sendInProgress := false, resetAfterSend := false, responseRequestAfterSend := false }

def goStateInitSizeRequest (c : Connection) : Connection := c.sendWindowSizeRequest newStateInit false

def goStateInitSizeResponseRequest (c : Connection) : Connection :=
  { c with state := .initSizeResponseRequest { newStateInit with sendInProgress := true } }.sendData
    (MessageHeader.range sizeResponseRequest c.receiveBufferSize) .sizeResponseRequestSent

/-- This state does not set `sendInProgress`. -/
def goStateInitSizeResponse (c : Connection) : Connection :=
  { c with state := .initSizeResponse newStateInit }.sendData
    (MessageHeader.range sizeResponse c.receiveBufferSize) .sizeResponseSent

/-- The loop of `ContentSizeToSend`. -/
def contentSize (maxContentSize : Nat) : List UInt8 → Nat → Nat
  | [], size => size
  | byte :: rest, size =>
      let incr := if isEscapedByte byte then 2 else 1
      if incr + size ≥ maxContentSize then maxContentSize else contentSize maxContentSize rest (size + incr)

def contentSizeToSend (c : Connection) : Nat :=
  if c.totalContentSizeToSend ≠ 0 then 0
  else
    let windowUpdateAndHeaderRoom := 2 * headerSize
    let maxContentSize :=
      if c.peerBufferSize > windowUpdateAndHeaderRoom then c.peerBufferSize - windowUpdateAndHeaderRoom else 0
    contentSize maxContentSize c.contentReadyForSend 0

def goStateConnectedSendingContent (c : Connection) (size : Nat) : Connection :=
  { c with
    state := .connectedSendingContent false 0
    totalContentSizeToSend := size
    peerBufferSize := subtract c.peerBufferSize (size + headerSize) }.sendData
    (MessageHeader.range content size) .contentHeaderSent

def goStateSendingUpdate (c : Connection) : Connection :=
  { c with
    state := .sendingUpdate false
    updateInProgress := true
    peerBufferSize := subtract c.peerBufferSize headerSize
    accumulatedWindowSizeUpdate := some 0 }.sendData
    (MessageHeader.range sizeUpdate (c.accumulatedWindowSizeUpdate.getD 0)) .updateSent

def updatePossible (c : Connection) : Bool :=
  c.accumulatedWindowSizeUpdate.getD 0 ≥ c.minUpdateSize && !c.updateInProgress && c.peerBufferSize ≥ headerSize

/-- `StateConnected::EvaluatePendingSend` -/
def evaluateConnected (c : Connection) : Connection :=
  if c.updatePossible then c.goStateSendingUpdate
  else if c.contentSizeToSend ≠ 0 then c.goStateConnectedSendingContent c.contentSizeToSend
  else c

/-- `EvaluatePendingSend` of the state. -/
def evaluatePendingSend (c : Connection) : Connection :=
  match c.state with
  | .connectedIdle => c.evaluateConnected
  | _ => c

def goStateConnectedIdle (c : Connection) : Connection := { c with state := .connectedIdle }.evaluateConnected

/-- `StateConnected::Reset`, with `ResetConnection`. -/
def resetConnected (c : Connection) : Connection :=
  { c with contentReadyForSend := [], sendStreamAvailable := true }.goStateInitSizeRequest

/-- `StateInit::Reset` -/
def resetInit (c : Connection) (init : StateInit) (deferred : StateInit → State) : Connection :=
  if init.sendInProgress then { c with state := deferred { init with resetAfterSend := true } }
  else c.goStateInitSizeRequest

/-- `Reset` of the state. -/
def reset (c : Connection) : Connection :=
  match c.state with
  | .initSizeRequest .. => c
  | .initSizeResponseRequest init => c.resetInit init .initSizeResponseRequest
  | .initSizeResponse init => c.resetInit init .initSizeResponse
  | .connectedIdle => c.resetConnected
  | .connectedSendingContent _ size => { c with state := .connectedSendingContent true size }
  | .sendingUpdate _ => { c with state := .sendingUpdate true }

/-! ## Receiving -/

def accumulateWindowUpdateSize (c : Connection) (size : Nat) : Connection :=
  match c.state with
  | .initSizeRequest .. | .initSizeResponseRequest _ | .initSizeResponse _ => c
  | _ =>
      { c with
        accumulatedWindowSizeUpdate := some ((c.accumulatedWindowSizeUpdate.getD 0 + size) % sizeRange) }

def sizeRequestReceived (c : Connection) : Connection :=
  match c.state with
  | .initSizeRequest init responseAfterSend timer =>
      if init.sendInProgress then
        { c with state := .initSizeRequest { init with responseRequestAfterSend := true } responseAfterSend timer }
      else c.goStateInitSizeResponseRequest
  | .initSizeResponseRequest init =>
      if init.sendInProgress then
        { c with state := .initSizeResponseRequest { init with responseRequestAfterSend := true } }
      else c.goStateInitSizeResponseRequest
  | .initSizeResponse init =>
      { c with state := .initSizeResponse { init with responseRequestAfterSend := true } }
  | _ => c.reset

def sizeResponseRequestReceived (c : Connection) (size : Nat) : Connection :=
  match c.state with
  | .initSizeRequest init _ timer =>
      let c := { c with peerBufferSize := size }
      if init.sendInProgress then { c with state := .initSizeRequest init true timer }
      else c.goStateInitSizeResponse
  | .initSizeResponseRequest _ | .initSizeResponse _ => c
  | _ => c.reset

def sizeResponseReceived (c : Connection) (size : Nat) : Connection :=
  match c.state with
  | .initSizeResponseRequest _ => { c with peerBufferSize := size }.goStateConnectedIdle
  | .initSizeRequest .. | .initSizeResponse _ => c
  | _ => c.reset

def sizeUpdateReceived (c : Connection) (size : Nat) : Connection :=
  match c.state with
  | .initSizeRequest .. | .initSizeResponseRequest _ | .initSizeResponse _ => c.reset
  | _ => { c with peerBufferSize := (c.peerBufferSize + size) % sizeRange }

/-- `TryConstructHeader`, with the header and the bytes that are left. -/
def constructHeader : MessageHeader → List UInt8 → MessageHeader × List UInt8
  | header, [] => (header, [])
  | header, byte :: queue =>
      if header.isDone then (header, byte :: queue) else constructHeader (header.addByte byte) queue

def tryConstructHeader (c : Connection) : Connection :=
  let constructed := constructHeader (c.messageHeader.getD .empty) c.receiveQueue
  let consumed := c.receiveQueue.length - constructed.2.length
  { c with messageHeader := some constructed.1, receiveQueue := constructed.2 }.accumulateWindowUpdateSize consumed

def processHeader (c : Connection) (header : MessageHeader) : Connection :=
  if header.type = sizeRequest then c.sizeRequestReceived
  else if header.type = sizeResponseRequest then c.sizeResponseRequestReceived header.size
  else if header.type = sizeResponse then c.sizeResponseReceived header.size
  else if header.type = content then { c with contentToReceive := header.size }
  else if header.type = sizeUpdate then c.sizeUpdateReceived header.size
  else c

def tryProcessHeader (c : Connection) : Connection :=
  match c.messageHeader with
  | none => c
  | some header =>
      if !header.isDone then c
      else { (if header.isFailed then c.reset else c.processHeader header) with messageHeader := none }

/-- What `CopyEscapedContent` makes of a range: the bytes for the queue, the number of bytes that have been
read, whether an escape has been seen last, and the number of escapes. -/
structure Copied where
  content : List UInt8
  copiedAmount : Nat
  isEscapeSeen : Bool
  escapes : Nat

/-- `CopyEscapedContent`, which stops at a header byte. -/
def copyEscapedContent : List UInt8 → Bool → Copied
  | [], isEscapeSeen => { content := [], copiedAmount := 0, isEscapeSeen := isEscapeSeen, escapes := 0 }
  | byte :: rest, isEscapeSeen =>
      if isEscapeByte byte && !isEscapeSeen then
        let copied := copyEscapedContent rest true
        { copied with copiedAmount := copied.copiedAmount + 1, escapes := copied.escapes + 1 }
      else if isHeaderByte byte && !isEscapeSeen then
        { content := [], copiedAmount := 0, isEscapeSeen := isEscapeSeen, escapes := 0 }
      else
        let copied := copyEscapedContent rest false
        { copied with content := byte :: copied.content, copiedAmount := copied.copiedAmount + 1 }

/-- The content is put in the queue, and the observer is told. -/
def addContent (c : Connection) (copied : Copied) : Connection :=
  let c := { c with
    receivedDataQueue := c.receivedDataQueue ++ copied.content
    isEscapeSeen := copied.isEscapeSeen
    observerNotified := c.observerNotified || copied.copiedAmount > 0 }
  if copied.escapes > 0 then c.accumulateWindowUpdateSize copied.escapes else c

/-- `ContentReceived`, with the number of bytes to consume. The deque asserts that it has room. -/
def contentReceived (c : Connection) (receivedRange : List UInt8) : Option (Connection × Nat) :=
  match c.state with
  | .initSizeRequest .. | .initSizeResponseRequest _ | .initSizeResponse _ => some ({ c with contentToReceive := 0 }, 1)
  | _ =>
      let copied := copyEscapedContent receivedRange c.isEscapeSeen
      let copiedAmount := copied.copiedAmount
      if c.receivedDataQueue.length + copied.content.length > c.receivedDataQueueMaxSize then none
      else if copiedAmount = receivedRange.length then
        some ({ c.addContent copied with contentToReceive := c.contentToReceive - copiedAmount }, copiedAmount)
      else some ({ c.addContent copied with contentToReceive := 0 }.reset, copiedAmount)

/-- A turn of the loop of `DataReceived`. `contiguous` is the size of the contiguous range at the front
of the queue. -/
def turn (c : Connection) (contiguous : Nat) : Option Connection :=
  if c.receiveQueue = [] then none
  else if c.contentToReceive > 0 then
    let receivedRange := c.receiveQueue.take (min contiguous c.contentToReceive)
    (c.contentReceived receivedRange).map fun (c, amount) =>
      { c with receiveQueue := c.receiveQueue.drop amount }.evaluatePendingSend
  else some c.tryConstructHeader.tryProcessHeader.evaluatePendingSend

/-! ## Completions -/

/-- The position of the first byte to be escaped among those that are to be sent. A position outside of
the buffer is undefined. -/
def firstEscapedByte : Nat → List UInt8 → Option Nat
  | 0, _ => some 0
  | _ + 1, [] => none
  | size + 1, byte :: rest => if isEscapedByte byte then some 0 else (firstEscapedByte size rest).map (· + 1)

def sendPartialContent (c : Connection) (range : List UInt8) (rawContentSize : Nat) : Connection :=
  match c.state with
  | .connectedSendingContent resetAfterSend _ =>
      { c with state := .connectedSendingContent resetAfterSend range.length }.sendData range
        (.partialContentSent rawContentSize)
  | _ => c

def sendEscapedContent (c : Connection) : Option Connection :=
  match firstEscapedByte c.totalContentSizeToSend c.contentReadyForSend, c.contentReadyForSend with
  | some 0, front :: _ => some (c.sendPartialContent [escape, front] 1)
  | some size, _ :: _ => some (c.sendPartialContent (c.contentReadyForSend.take size) size)
  | _, _ => none

/-- The part that has been sent is taken from the content. -/
def discardSent (c : Connection) (rawContentSize partialContentSizeBeingSent : Nat) : Connection :=
  { c with
    contentReadyForSend := c.contentReadyForSend.drop rawContentSize
    totalContentSizeToSend := subtract c.totalContentSizeToSend partialContentSizeBeingSent }

/-- The message has been sent. -/
def endContent (c : Connection) (resetAfterSend : Bool) : Connection :=
  let c := if c.contentReadyForSend = [] then c.sendStreamAllocatable else c
  if resetAfterSend then c.resetConnected else c.goStateConnectedIdle

def endUpdate (c : Connection) : Connection :=
  { c with
    updateInProgress := false
    accumulatedWindowSizeUpdate := c.accumulatedWindowSizeUpdate.filter (· ≠ 0) }

/-- The callback of `SendData`, called on the state that has given it. It is undefined when that state
has been replaced. -/
def onDone (c : Connection) : Callback → State → Option Connection
  | .sizeRequestSent, .initSizeRequest init responseAfterSend _ =>
      if !init.responseRequestAfterSend && !responseAfterSend then
        some { c with state := .initSizeRequest { init with sendInProgress := false } responseAfterSend true }
      else if init.responseRequestAfterSend then some c.goStateInitSizeResponseRequest
      else some c.goStateInitSizeResponse
  | .sizeResponseRequestSent, .initSizeResponseRequest init =>
      if init.responseRequestAfterSend then some c.goStateInitSizeResponseRequest
      else some { c with state := .initSizeResponseRequest { init with sendInProgress := false } }
  | .sizeResponseSent, .initSizeResponse init =>
      if init.responseRequestAfterSend then some c.goStateInitSizeResponseRequest
      else some c.goStateConnectedIdle
  | .contentHeaderSent, .connectedSendingContent _ _ => c.sendEscapedContent
  | .partialContentSent rawContentSize, .connectedSendingContent resetAfterSend partialContentSizeBeingSent =>
      if (c.discardSent rawContentSize partialContentSizeBeingSent).totalContentSizeToSend = 0 then
        some ((c.discardSent rawContentSize partialContentSizeBeingSent).endContent resetAfterSend)
      else (c.discardSent rawContentSize partialContentSizeBeingSent).sendEscapedContent
  | .updateSent, .sendingUpdate resetAfterSend =>
      if resetAfterSend then some c.endUpdate.resetConnected else some c.endUpdate.goStateConnectedIdle
  | _, _ => none

/-! ## Events -/

inductive Event
  | received (data : List UInt8)
  | turn (contiguous : Nat)
  | sent
  | windowRequestTimer
  | requestSendStream (sendSize : Nat)
  | sendStreamAvailable
  | written (data : List UInt8)
  | evaluatePendingSend
  | readAndAck (amount : Nat)
  deriving DecidableEq, Repr

def step (c : Connection) : Event → Option Connection
  | .received data =>
      -- the interrupt aborts when the queue is full
      if c.receiveQueue.length + data.length ≤ c.receiveBufferSize then
        some { c with receiveQueue := c.receiveQueue ++ data }
      else none
  | .turn contiguous => if contiguous = 0 then none else c.turn contiguous
  | .sent => c.transmission.bind fun transmission => { c with transmission := none }.onDone transmission.onDone c.state
  | .windowRequestTimer =>
      match c.state with
      | .initSizeRequest init responseAfterSend true => some (c.sendWindowSizeRequest init responseAfterSend)
      | _ => none
  | .requestSendStream sendSize =>
      if sendSize ≤ c.sendBufferSize then
        if c.sendStreamAvailable then some c.allocatedSendStream else some { c with pendingSendStream := sendSize }
      else none
  | .sendStreamAvailable =>
      if c.allocations = 0 then none
      else
        some { c with
          allocations := c.allocations - 1
          writer := true
          overlappedStream := c.overlappedStream || c.writer }
  | .written data =>
      if c.writer && data.length ≤ c.sendBufferSize then
        some { c with writer := false, contentReadyForSend := data, evaluations := c.evaluations + 1 }
      else none
  | .evaluatePendingSend =>
      if c.evaluations = 0 then none
      else some { c with evaluations := c.evaluations - 1 }.evaluatePendingSend
  | .readAndAck amount =>
      let c := { c with observerNotified := false }
      if amount ≤ c.receivedDataQueue.length then
        match c.state with
        | .initSizeRequest .. | .initSizeResponseRequest _ | .initSizeResponse _ => some c
        | _ =>
            let c := { c with receivedDataQueue := c.receivedDataQueue.drop amount }
            some (c.accumulateWindowUpdateSize amount).evaluatePendingSend
      else none

/-- The connection after its constructor, which sends the first size request. -/
def create (sendBufferSize receiveBufferSize receivedDataQueueMaxSize minUpdateSize : Nat) : Connection :=
  goStateInitSizeRequest {
    sendBufferSize := sendBufferSize
    receiveBufferSize := receiveBufferSize
    receivedDataQueueMaxSize := receivedDataQueueMaxSize
    minUpdateSize := max minUpdateSize (headerSize + 1)
    contentToReceive := 0
    messageHeader := none
    pendingSendStream := 0
    receivedDataQueue := []
    contentReadyForSend := []
    receiveQueue := []
    state := .connectedIdle
    sendStreamAvailable := true
    observerNotified := false
    peerBufferSize := 0
    accumulatedWindowSizeUpdate := none
    updateInProgress := false
    isEscapeSeen := false
    totalContentSizeToSend := 0
    transmission := none
    allocations := 0
    evaluations := 0
    writer := false
    overlappedSend := false
    overlappedStream := false }

end Connection

end EmbeddedInfra.ConnectionSerial
