import EmbeddedInfra.Services.Network.ConnectionSerial

set_option autoImplicit false

/-! # Runs of the connection over a serial line

The promises of `services::ConnectionSerial` to the line and to its user, and the steps that keep them.
`LineHolds` ties the transmission that is going on to the state, `StreamsHold` says who has the send
stream. The two meet where content has been sent and where the connection is reset.
-/

namespace EmbeddedInfra.ConnectionSerial

open EventSystem

namespace Connection

/-! ## What is promised -/

/-- One transmission at a time, one send stream at a time, and no request that waits while the send stream
is available. -/
structure Good (c : Connection) : Prop where
  oneTransmission : c.overlappedSend = false
  oneStream : c.overlappedStream = false
  served : ¬ (c.sendStreamAvailable = true ∧ c.pendingSendStream ≠ 0)

/-- The header that is complete, or has failed, with the bytes in the queue. -/
def nextHeader (c : Connection) : Option MessageHeader :=
  let header := (constructHeader (c.messageHeader.getD .empty) c.receiveQueue).1
  if c.contentToReceive = 0 ∧ header.isDone then some header else none

/-- There is a header in the content. -/
def breaksContent (c : Connection) (contiguous : Nat) : Bool :=
  let receivedRange := c.receiveQueue.take (min contiguous c.contentToReceive)
  c.contentToReceive > 0 && (copyEscapedContent receivedRange c.isEscapeSeen).copiedAmount ≠ receivedRange.length

/-- The message makes the connection leave a state whose transmission may still be going on: a reset
while the size response is sent, or a size response while the request for it is sent. -/
def leavesTransmission (c : Connection) : Event → Bool
  | .turn _ =>
      match c.state with
      | .initSizeResponse _ => c.nextHeader.any fun header => header.isFailed || header.type = sizeUpdate
      | .initSizeResponseRequest init =>
          init.sendInProgress && c.nextHeader.any fun header => !header.isFailed && header.type = sizeResponse
      | _ => false
  | _ => false

/-- The connection is reset, or a transmission ends after which it is going to be reset. -/
def resetsConnection (c : Connection) : Event → Bool
  | .turn contiguous =>
      c.state = .connectedIdle && (c.breaksContent contiguous || c.nextHeader.any fun header =>
        header.isFailed || header.type = sizeRequest || header.type = sizeResponseRequest ||
          header.type = sizeResponse)
  | .sent =>
      match c.state with
      | .connectedSendingContent resetAfterSend _ => resetAfterSend
      | .sendingUpdate resetAfterSend => resetAfterSend
      | _ => false
  | _ => false

/-- No send stream is requested, on its way or held. -/
def StreamFree (c : Connection) : Prop := c.pendingSendStream = 0 ∧ c.allocations = 0 ∧ c.writer = false

/-- The connection does not leave a state during its transmission, and is not reset while a send
stream is in use. -/
def Orderly (c : Connection) (e : Event) : Prop :=
  c.leavesTransmission e = false ∧ (c.resetsConnection e = true → c.StreamFree)

/-! ## Send streams -/

/-- What holds of the send stream. -/
structure Streams (available : Bool) (pending allocations : Nat) (writer : Bool) (ready : List UInt8) : Prop where
  available : available = true → pending = 0 ∧ allocations = 0 ∧ writer = false ∧ ready = []
  ready : ready ≠ [] → allocations = 0 ∧ writer = false
  single : allocations + writer.toNat ≤ 1

/-- The members that `Streams` is about, and the record. -/
def streamBook (c : Connection) : Bool × Nat × Nat × Bool × List UInt8 × Bool :=
  (c.sendStreamAvailable, c.pendingSendStream, c.allocations, c.writer, c.contentReadyForSend, c.overlappedStream)

def StreamsHold (c : Connection) : Prop :=
  Streams c.sendStreamAvailable c.pendingSendStream c.allocations c.writer c.contentReadyForSend ∧
    c.overlappedStream = false

variable {c c' : Connection}

theorem StreamsHold.of_book (h : c.StreamsHold) (hbook : c'.streamBook = c.streamBook) : c'.StreamsHold := by
  simp only [streamBook, Prod.mk.injEq] at hbook
  obtain ⟨h1, h2, h3, h4, h5, h6⟩ := hbook
  rw [StreamsHold, h1, h2, h3, h4, h5, h6]
  exact h

@[simp] theorem streamBook_evaluateConnected (c : Connection) : c.evaluateConnected.streamBook = c.streamBook := by
  unfold evaluateConnected
  split
  · rfl
  · split <;> rfl

@[simp] theorem streamBook_evaluatePendingSend (c : Connection) : c.evaluatePendingSend.streamBook = c.streamBook := by
  unfold evaluatePendingSend
  split
  · exact streamBook_evaluateConnected c
  · rfl

@[simp] theorem streamBook_goStateConnectedIdle (c : Connection) : c.goStateConnectedIdle.streamBook = c.streamBook :=
  streamBook_evaluateConnected _

@[simp] theorem streamBook_accumulateWindowUpdateSize (c : Connection) (size : Nat) :
    (c.accumulateWindowUpdateSize size).streamBook = c.streamBook := by
  unfold accumulateWindowUpdateSize
  split <;> rfl

@[simp] theorem state_accumulateWindowUpdateSize (c : Connection) (size : Nat) :
    (c.accumulateWindowUpdateSize size).state = c.state := by
  unfold accumulateWindowUpdateSize
  split <;> rfl

theorem messageHeader_accumulateWindowUpdateSize (c : Connection) (size : Nat) :
    (c.accumulateWindowUpdateSize size).messageHeader = c.messageHeader := by
  unfold accumulateWindowUpdateSize
  split <;> rfl

/-- Only a connection that is idle gives up its send stream. -/
theorem StreamsHold.reset (h : c.StreamsHold) (hfree : c.state = .connectedIdle → c.StreamFree) :
    c.reset.StreamsHold := by
  unfold Connection.reset
  split
  · exact h
  · unfold resetInit
    split <;> exact h
  · unfold resetInit
    split <;> exact h
  · rename_i hstate
    obtain ⟨hpending, hallocations, hwriter⟩ := hfree hstate
    refine ⟨⟨fun _ => ⟨hpending, hallocations, hwriter, rfl⟩, fun hne => absurd rfl hne, h.1.single⟩, h.2⟩
  · exact h
  · exact h

/-! ## The line -/

/-- The transmission that goes on in a state. -/
def Fits : State → Option Callback → Prop
  | .initSizeRequest init _ windowRequestTimer, callback =>
      callback = (if init.sendInProgress then some .sizeRequestSent else none) ∧
        (windowRequestTimer = true → init.sendInProgress = false)
  | .initSizeResponseRequest init, callback =>
      callback = if init.sendInProgress then some .sizeResponseRequestSent else none
  | .initSizeResponse init, callback => callback = some .sizeResponseSent ∧ init.sendInProgress = false
  | .connectedIdle, callback => callback = none
  | .connectedSendingContent .., callback =>
      callback = some .contentHeaderSent ∨ ∃ rawContentSize, callback = some (.partialContentSent rawContentSize)
  | .sendingUpdate _, callback => callback = some .updateSent

/-- What holds of the line. There is content while content is sent. -/
structure LineHolds (c : Connection) : Prop where
  fits : Fits c.state (c.transmission.map (·.onDone))
  once : c.overlappedSend = false
  ready : ∀ resetAfterSend size, c.state = .connectedSendingContent resetAfterSend size → c.contentReadyForSend ≠ []

/-- Nothing is being sent. -/
structure LineFree (c : Connection) : Prop where
  none : c.transmission = none
  once : c.overlappedSend = false

section

variable (h : c.LineFree)
include h

theorem LineFree.once_sendData (data : List UInt8) (onDone : Callback) :
    (c.sendData data onDone).overlappedSend = false := by
  simp [sendData, h.none, h.once]

/-- A state that starts with a transmission is entered when nothing is being sent. -/
theorem LineFree.enter {data : List UInt8} {onDone : Callback} (hfits : Fits c.state (some onDone))
    (hready : ∀ resetAfterSend size, c.state = .connectedSendingContent resetAfterSend size →
      c.contentReadyForSend ≠ []) : (c.sendData data onDone).LineHolds :=
  ⟨hfits, h.once_sendData data onDone, hready⟩

theorem LineFree.sendWindowSizeRequest (init : StateInit) (responseAfterSend : Bool) :
    (c.sendWindowSizeRequest init responseAfterSend).LineHolds := by
  refine LineFree.enter ?_ ?_ ?_
  · exact { h with }
  · exact ⟨rfl, by simp⟩
  · exact by simp

theorem LineFree.goStateInitSizeResponseRequest : c.goStateInitSizeResponseRequest.LineHolds := by
  refine LineFree.enter ?_ ?_ ?_
  · exact { h with }
  · exact rfl
  · exact by simp

theorem LineFree.goStateInitSizeResponse : c.goStateInitSizeResponse.LineHolds := by
  refine LineFree.enter ?_ ?_ ?_
  · exact { h with }
  · exact ⟨rfl, rfl⟩
  · exact by simp

theorem LineFree.goStateSendingUpdate : c.goStateSendingUpdate.LineHolds := by
  refine LineFree.enter ?_ ?_ ?_
  · exact { h with }
  · exact rfl
  · exact by simp

theorem LineFree.goStateConnectedSendingContent (hready : c.contentReadyForSend ≠ []) (size : Nat) :
    (c.goStateConnectedSendingContent size).LineHolds := by
  refine LineFree.enter ?_ ?_ ?_
  · exact { h with }
  · exact .inl rfl
  · exact fun _ _ _ => hready

end

theorem ready_of_contentSizeToSend (h : c.contentSizeToSend ≠ 0) : c.contentReadyForSend ≠ [] := by
  intro hempty
  simp [contentSizeToSend, hempty, contentSize] at h

/-- An idle connection sends what there is to send. -/
theorem LineFree.evaluateConnected (h : c.LineFree) (hstate : c.state = .connectedIdle) :
    c.evaluateConnected.LineHolds := by
  unfold Connection.evaluateConnected
  split
  · exact h.goStateSendingUpdate
  · split
    · rename_i hsize
      exact h.goStateConnectedSendingContent (ready_of_contentSizeToSend hsize) _
    · refine ⟨?_, h.once, ?_⟩
      · rw [hstate, h.none]
        exact rfl
      · intro _ _ hsending
        rw [hstate] at hsending
        cases hsending

theorem LineFree.goStateConnectedIdle (h : c.LineFree) : c.goStateConnectedIdle.LineHolds :=
  LineFree.evaluateConnected { h with } rfl

theorem LineFree.resetConnected (h : c.LineFree) : c.resetConnected.LineHolds := by
  apply LineFree.sendWindowSizeRequest
  exact { h with }

namespace LineHolds

theorem free (h : c.LineHolds) (hfits : Fits c.state (c.transmission.map (·.onDone)) → c.transmission = none) :
    c.LineFree :=
  ⟨hfits h.fits, h.once⟩

/-- A state with the same line. -/
theorem of_eq (h : c.LineHolds) (hstate : c'.state = c.state) (htransmission : c'.transmission = c.transmission)
    (honce : c'.overlappedSend = c.overlappedSend) (hready : c'.contentReadyForSend = c.contentReadyForSend) :
    c'.LineHolds := by
  refine ⟨?_, honce.trans h.once, ?_⟩
  · rw [hstate, htransmission]
    exact h.fits
  · rw [hstate, hready]
    exact h.ready

/-- The members of a state may change, as long as its transmission is the same. -/
theorem of_state (h : c.LineHolds) {state : State} (hfits : Fits state (c.transmission.map (·.onDone)))
    (hready : ∀ resetAfterSend size, state = .connectedSendingContent resetAfterSend size →
      c.contentReadyForSend ≠ []) : { c with state := state }.LineHolds :=
  ⟨hfits, h.once, hready⟩

theorem evaluatePendingSend (h : c.LineHolds) : c.evaluatePendingSend.LineHolds := by
  unfold Connection.evaluatePendingSend
  split
  · rename_i hstate
    refine LineFree.evaluateConnected (h.free ?_) hstate
    rw [hstate]
    simp [Fits]
  · exact h

theorem reset (h : c.LineHolds) (hstate : ∀ init, c.state ≠ .initSizeResponse init) : c.reset.LineHolds := by
  have hfits := h.fits
  unfold Connection.reset
  split
  · exact h
  · rename_i init hinit
    rw [hinit] at hfits
    unfold resetInit
    split
    · refine h.of_state ?_ (by simp)
      exact hfits
    · rename_i hsend
      refine LineFree.sendWindowSizeRequest ⟨?_, h.once⟩ _ _
      simpa [Fits, hsend] using hfits
  · rename_i init hinit
    exact absurd hinit (hstate init)
  · rename_i hidle
    rw [hidle] at hfits
    exact LineFree.resetConnected ⟨by simpa [Fits] using hfits, h.once⟩
  · rename_i resetAfterSend size hsending
    rw [hsending] at hfits
    exact h.of_state hfits fun _ _ _ => h.ready _ _ hsending
  · rename_i hsending
    rw [hsending] at hfits
    exact h.of_state hfits (by simp)

end LineHolds

/-! ## Messages -/

/-- What holds between two events. -/
structure Inv (c : Connection) : Prop where
  line : c.LineHolds
  streams : c.StreamsHold

namespace Inv

theorem reset (h : c.Inv) (hstate : ∀ init, c.state ≠ .initSizeResponse init)
    (hfree : c.state = .connectedIdle → c.StreamFree) : c.reset.Inv :=
  ⟨h.line.reset hstate, h.streams.reset hfree⟩

/-- A state of the handshake is entered when nothing is being sent. -/
theorem of_line (h : c.Inv) (hline : c'.LineHolds) (hbook : c'.streamBook = c.streamBook) : c'.Inv :=
  ⟨hline, h.streams.of_book hbook⟩

theorem sizeRequestReceived (h : c.Inv) (hfree : c.state = .connectedIdle → c.StreamFree) :
    c.sizeRequestReceived.Inv := by
  have hfits := h.line.fits
  unfold Connection.sizeRequestReceived
  split
  · rename_i init responseAfterSend timer hstate
    rw [hstate] at hfits
    split
    · exact h.of_line (h.line.of_state hfits (by simp)) rfl
    · rename_i hsend
      refine h.of_line (LineFree.goStateInitSizeResponseRequest ⟨?_, h.line.once⟩) rfl
      simpa [Fits, hsend] using hfits.1
  · rename_i init hstate
    rw [hstate] at hfits
    split
    · exact h.of_line (h.line.of_state hfits (by simp)) rfl
    · rename_i hsend
      refine h.of_line (LineFree.goStateInitSizeResponseRequest ⟨?_, h.line.once⟩) rfl
      simpa [Fits, hsend] using hfits
  · rename_i init hstate
    rw [hstate] at hfits
    exact h.of_line (h.line.of_state hfits (by simp)) rfl
  · rename_i hstate
    exact h.reset hstate hfree

theorem sizeResponseRequestReceived (h : c.Inv) (hfree : c.state = .connectedIdle → c.StreamFree) (size : Nat) :
    (c.sizeResponseRequestReceived size).Inv := by
  have hfits := h.line.fits
  unfold Connection.sizeResponseRequestReceived
  split
  · rename_i init responseAfterSend timer hstate
    rw [hstate] at hfits
    split
    · exact h.of_line ⟨hfits, h.line.once, by simp⟩ rfl
    · rename_i hsend
      refine h.of_line (LineFree.goStateInitSizeResponse ⟨?_, h.line.once⟩) rfl
      simpa [Fits, hsend] using hfits.1
  · exact h
  · exact h
  · rename_i hstate
    exact h.reset hstate hfree

theorem sizeResponseReceived (h : c.Inv) (hfree : c.state = .connectedIdle → c.StreamFree)
    (hsend : ∀ init, c.state = .initSizeResponseRequest init → init.sendInProgress = false) (size : Nat) :
    (c.sizeResponseReceived size).Inv := by
  have hfits := h.line.fits
  unfold Connection.sizeResponseReceived
  split
  · rename_i init hstate
    rw [hstate] at hfits
    refine h.of_line (LineFree.goStateConnectedIdle ⟨?_, h.line.once⟩) (streamBook_goStateConnectedIdle _)
    simpa [Fits, hsend init hstate] using hfits
  · exact h
  · exact h
  · rename_i hstate
    exact h.reset hstate hfree

theorem sizeUpdateReceived (h : c.Inv) (hstate : ∀ init, c.state ≠ .initSizeResponse init) (size : Nat) :
    (c.sizeUpdateReceived size).Inv := by
  unfold Connection.sizeUpdateReceived
  split
  · exact h.reset hstate (by simp_all)
  · exact h.reset hstate (by simp_all)
  · exact h.reset hstate (by simp_all)
  · exact h.of_line (h.line.of_eq rfl rfl rfl rfl) rfl

/-- A message that comes in order. -/
theorem processHeader (h : c.Inv) {header : MessageHeader}
    (hidle : c.state = .connectedIdle → (header.type = sizeRequest ∨ header.type = sizeResponseRequest ∨
      header.type = sizeResponse) → c.StreamFree)
    (hresponse : ∀ init, c.state = .initSizeResponse init → header.type ≠ sizeUpdate)
    (hrequest : ∀ init, c.state = .initSizeResponseRequest init → header.type = sizeResponse →
      init.sendInProgress = false) : (c.processHeader header).Inv := by
  unfold Connection.processHeader
  split
  · rename_i htype
    exact h.sizeRequestReceived fun hstate => hidle hstate (.inl htype)
  · split
    · rename_i htype
      exact h.sizeResponseRequestReceived (fun hstate => hidle hstate (.inr (.inl htype))) _
    · split
      · rename_i htype
        exact h.sizeResponseReceived (fun hstate => hidle hstate (.inr (.inr htype)))
          (fun init hstate => hrequest init hstate htype) _
      · split
        · exact h.of_line (h.line.of_eq rfl rfl rfl rfl) rfl
        · split
          · rename_i htype
            exact h.sizeUpdateReceived (fun init hstate => hresponse init hstate htype) _
          · exact h

theorem accumulateWindowUpdateSize (h : c.Inv) (size : Nat) : (c.accumulateWindowUpdateSize size).Inv := by
  refine h.of_line ?_ (streamBook_accumulateWindowUpdateSize c size)
  unfold Connection.accumulateWindowUpdateSize
  split
  · exact h.line
  · exact h.line
  · exact h.line
  · exact h.line.of_eq rfl rfl rfl rfl

theorem evaluatePendingSend (h : c.Inv) : c.evaluatePendingSend.Inv :=
  h.of_line h.line.evaluatePendingSend (streamBook_evaluatePendingSend c)

theorem with_messageHeader (h : c.Inv) (header : Option MessageHeader) : { c with messageHeader := header }.Inv :=
  h.of_line (h.line.of_eq rfl rfl rfl rfl) rfl

end Inv

theorem StreamFree.of_book (h : c.StreamFree) (hbook : c'.streamBook = c.streamBook) : c'.StreamFree := by
  simp only [streamBook, Prod.mk.injEq] at hbook
  obtain ⟨-, hpending, hallocations, hwriter, -, -⟩ := hbook
  rw [StreamFree, hpending, hallocations, hwriter]
  exact h

/-- The header that is under construction. -/
def constructed (c : Connection) : MessageHeader := (constructHeader (c.messageHeader.getD .empty) c.receiveQueue).1

@[simp] theorem messageHeader_tryConstructHeader (c : Connection) :
    c.tryConstructHeader.messageHeader = some c.constructed :=
  messageHeader_accumulateWindowUpdateSize _ _

@[simp] theorem state_tryConstructHeader (c : Connection) : c.tryConstructHeader.state = c.state :=
  state_accumulateWindowUpdateSize _ _

@[simp] theorem streamBook_tryConstructHeader (c : Connection) : c.tryConstructHeader.streamBook = c.streamBook :=
  streamBook_accumulateWindowUpdateSize _ _

theorem nextHeader_of_isDone (hcontent : c.contentToReceive = 0) (hdone : c.constructed.isDone = true) :
    c.nextHeader = some c.constructed := by
  unfold nextHeader
  exact if_pos ⟨hcontent, hdone⟩

namespace Inv

theorem tryConstructHeader (h : c.Inv) : c.tryConstructHeader.Inv := by
  apply accumulateWindowUpdateSize
  exact h.of_line (h.line.of_eq rfl rfl rfl rfl) rfl

/-- A turn that ends with a header or without one. -/
theorem turn_header (h : c.Inv) (hcontent : c.contentToReceive = 0) {contiguous : Nat}
    (horderly : c.Orderly (.turn contiguous)) : c.tryConstructHeader.tryProcessHeader.Inv := by
  have hconstructed := h.tryConstructHeader
  unfold tryProcessHeader
  rw [messageHeader_tryConstructHeader]
  cases hdone : c.constructed.isDone with
  | false =>
      simp only [hdone, Bool.not_false, if_true]
      exact hconstructed
  | true =>
      have hnext := nextHeader_of_isDone hcontent hdone
      obtain ⟨hleaves, hresets⟩ := horderly
      simp only [leavesTransmission, resetsConnection, hnext, Option.any_some] at hleaves hresets
      have hfree (hidle : c.state = .connectedIdle) (hheader : (c.constructed.isFailed || c.constructed.type = sizeRequest
          || c.constructed.type = sizeResponseRequest || c.constructed.type = sizeResponse) = true) :
          c.tryConstructHeader.StreamFree := by
        refine StreamFree.of_book (hresets ?_) (streamBook_tryConstructHeader c)
        simp only [hidle, hheader, decide_true, Bool.or_true, Bool.and_true]
      simp only [hdone, Bool.not_true, Bool.false_eq_true, if_false]
      apply with_messageHeader
      split
      · rename_i hfailed
        apply hconstructed.reset
        · intro init hstate
          rw [state_tryConstructHeader] at hstate
          simp [hstate, hfailed] at hleaves
        · intro hstate
          rw [state_tryConstructHeader] at hstate
          exact hfree hstate (by simp [hfailed])
      · rename_i hfailed
        apply hconstructed.processHeader
        · intro hstate htype
          rw [state_tryConstructHeader] at hstate
          refine hfree hstate ?_
          rcases htype with htype | htype | htype <;> simp [htype]
        · intro init hstate htype
          rw [state_tryConstructHeader] at hstate
          simp [hstate, htype] at hleaves
        · intro init hstate htype
          rw [state_tryConstructHeader] at hstate
          simpa [hstate, htype, hfailed] using hleaves

theorem addContent (h : c.Inv) (copied : Copied) :
    (c.addContent copied).Inv ∧ (c.addContent copied).state = c.state ∧
      (c.addContent copied).streamBook = c.streamBook := by
  unfold Connection.addContent
  split
  · refine ⟨accumulateWindowUpdateSize ?_ _, state_accumulateWindowUpdateSize _ _,
      streamBook_accumulateWindowUpdateSize _ _⟩
    exact h.of_line (h.line.of_eq rfl rfl rfl rfl) rfl
  · exact ⟨h.of_line (h.line.of_eq rfl rfl rfl rfl) rfl, rfl, rfl⟩

theorem with_contentToReceive (h : c.Inv) (size : Nat) : { c with contentToReceive := size }.Inv :=
  h.of_line (h.line.of_eq rfl rfl rfl rfl) rfl

/-- A turn that receives content. -/
theorem turn_content (h : c.Inv) (hcontent : c.contentToReceive > 0) {contiguous amount : Nat}
    (horderly : c.Orderly (.turn contiguous))
    (hr : c.contentReceived (c.receiveQueue.take (min contiguous c.contentToReceive)) = some (c', amount)) :
    c'.Inv := by
  unfold contentReceived at hr
  split at hr
  · cases hr
    exact h.with_contentToReceive 0
  · cases hr
    exact h.with_contentToReceive 0
  · cases hr
    exact h.with_contentToReceive 0
  · rename_i hresponse
    obtain ⟨hadded, hstate, hbook⟩ := h.addContent (copyEscapedContent
      (c.receiveQueue.take (min contiguous c.contentToReceive)) c.isEscapeSeen)
    simp only at hr
    split at hr
    · cases hr
    · split at hr
      · cases hr
        exact hadded.with_contentToReceive _
      · rename_i hbreaks
        cases hr
        apply (hadded.with_contentToReceive 0).reset
        · intro init hinit
          exact hresponse init (hstate.symm.trans hinit)
        · intro hidle
          refine StreamFree.of_book (horderly.2 ?_) hbook
          have hidle : c.state = .connectedIdle := hstate.symm.trans hidle
          have hbroken : c.breaksContent contiguous = true := by
            simp only [breaksContent, Bool.and_eq_true, decide_eq_true_eq]
            exact ⟨hcontent, hbreaks⟩
          simp only [resetsConnection, hidle, hbroken, decide_true, Bool.true_or, Bool.and_true]

end Inv

/-! ## Completions -/

theorem StreamsHold.resetConnected (h : c.StreamsHold) (hfree : c.StreamFree) : c.resetConnected.StreamsHold := by
  obtain ⟨hpending, hallocations, hwriter⟩ := hfree
  exact ⟨⟨fun _ => ⟨hpending, hallocations, hwriter, rfl⟩, fun hne => absurd rfl hne, h.1.single⟩, h.2⟩

/-- The content has been sent, and the next send stream is made if it is wanted. -/
theorem streamsHold_sendStreamAllocatable (hallocations : c.allocations = 0) (hwriter : c.writer = false)
    (hready : c.contentReadyForSend = []) (hone : c.overlappedStream = false) :
    c.sendStreamAllocatable.StreamsHold := by
  unfold sendStreamAllocatable
  split
  · refine ⟨⟨fun havailable => ?_, fun hne => absurd hready hne, ?_⟩, hone⟩
    · cases havailable
    · simp [allocatedSendStream, hallocations, hwriter]
  · rename_i hpending
    refine ⟨⟨fun _ => ⟨?_, hallocations, hwriter, hready⟩, fun hne => absurd hready hne, ?_⟩, hone⟩
    · simpa using hpending
    · simp [hallocations, hwriter]

/-- The next part of the content is sent. -/
theorem inv_sendEscapedContent (hr : c.sendEscapedContent = some c') (hstreams : c.StreamsHold) (hfree : c.LineFree)
    {resetAfterSend : Bool} {size : Nat} (hstate : c.state = .connectedSendingContent resetAfterSend size) :
    c'.Inv := by
  have hpart (hready : c.contentReadyForSend ≠ []) (range : List UInt8) (rawContentSize : Nat) :
      (c.sendPartialContent range rawContentSize).Inv := by
    simp only [sendPartialContent, hstate]
    refine ⟨LineFree.enter ?_ ?_ ?_, hstreams⟩
    · exact { hfree with }
    · exact .inr ⟨rawContentSize, rfl⟩
    · exact fun _ _ _ => hready
  unfold sendEscapedContent at hr
  split at hr
  · rename_i hready
    cases hr
    exact hpart (by simp [hready]) _ _
  · rename_i hready
    cases hr
    exact hpart (by simp [hready]) _ _
  · cases hr

theorem state_sendStreamAllocatable (c : Connection) : c.sendStreamAllocatable.state = c.state ∧
    c.sendStreamAllocatable.transmission = c.transmission ∧
    c.sendStreamAllocatable.overlappedSend = c.overlappedSend := by
  unfold sendStreamAllocatable
  split <;> exact ⟨rfl, rfl, rfl⟩

/-- Content is sent to the end when no send stream is in use. A reset needs that none is requested. -/
theorem inv_endContent (hfree : c.LineFree) (hallocations : c.allocations = 0) (hwriter : c.writer = false)
    (havailable : c.sendStreamAvailable = false) (hone : c.overlappedStream = false) {resetAfterSend : Bool}
    (hreset : resetAfterSend = true → c.pendingSendStream = 0) : (c.endContent resetAfterSend).Inv := by
  -- the state in which the send stream has been given back
  have hback : ∃ m : Connection, m.StreamsHold ∧ m.LineFree ∧ (resetAfterSend = true → m.StreamFree) ∧
      c.endContent resetAfterSend = if resetAfterSend then m.resetConnected else m.goStateConnectedIdle := by
    by_cases hready : c.contentReadyForSend = []
    · refine ⟨c.sendStreamAllocatable, streamsHold_sendStreamAllocatable hallocations hwriter hready hone, ?_, ?_, ?_⟩
      · obtain ⟨-, htransmission, honce⟩ := c.state_sendStreamAllocatable
        exact ⟨htransmission.trans hfree.none, honce.trans hfree.once⟩
      · intro hr
        rw [sendStreamAllocatable, if_neg (not_not.mpr (hreset hr))]
        exact ⟨hreset hr, hallocations, hwriter⟩
      · rw [endContent, if_pos hready]
    · refine ⟨c, ⟨⟨?_, fun _ => ⟨hallocations, hwriter⟩, ?_⟩, hone⟩, hfree, ?_, ?_⟩
      · simp [havailable]
      · simp [hallocations, hwriter]
      · exact fun hr => ⟨hreset hr, hallocations, hwriter⟩
      · rw [endContent, if_neg hready]
  obtain ⟨m, hstreams, hline, hstreamFree, heq⟩ := hback
  rw [heq]
  split
  · rename_i hr
    exact ⟨hline.resetConnected, hstreams.resetConnected (hstreamFree hr)⟩
  · exact ⟨hline.goStateConnectedIdle, hstreams.of_book (streamBook_goStateConnectedIdle m)⟩

/-- A transmission is completed. -/
theorem Inv.sent (h : c.Inv) (horderly : c.Orderly .sent) (hr : c.step .sent = some c') : c'.Inv := by
  obtain ⟨transmission, htransmission, hdone⟩ := Option.bind_eq_some_iff.mp hr
  have hfree : LineFree { c with transmission := none } := ⟨rfl, h.line.once⟩
  have hreset := horderly.2
  simp only [resetsConnection] at hreset
  unfold onDone at hdone
  split at hdone
  · -- the size request
    split at hdone
    · cases hdone
      exact h.of_line ⟨⟨rfl, fun _ => rfl⟩, h.line.once, by simp⟩ rfl
    · split at hdone
      · cases hdone
        exact h.of_line hfree.goStateInitSizeResponseRequest rfl
      · cases hdone
        exact h.of_line hfree.goStateInitSizeResponse rfl
  · -- the size response request
    split at hdone
    · cases hdone
      exact h.of_line hfree.goStateInitSizeResponseRequest rfl
    · cases hdone
      exact h.of_line ⟨rfl, h.line.once, by simp⟩ rfl
  · -- the size response
    split at hdone
    · cases hdone
      exact h.of_line hfree.goStateInitSizeResponseRequest rfl
    · cases hdone
      exact h.of_line hfree.goStateConnectedIdle (streamBook_goStateConnectedIdle _)
  · -- the header of the content
    rename_i hstate
    exact inv_sendEscapedContent hdone h.streams hfree hstate
  · -- a part of the content
    rename_i resetAfterSend size _ hstate
    have hready := h.line.ready _ _ hstate
    obtain ⟨hallocations, hwriter⟩ := h.streams.1.ready hready
    have hunavailable : c.sendStreamAvailable = false := by
      cases havailable : c.sendStreamAvailable with
      | false => rfl
      | true => exact absurd (h.streams.1.available havailable).2.2.2 hready
    split at hdone
    · cases hdone
      apply inv_endContent
      · exact ⟨rfl, h.line.once⟩
      · exact hallocations
      · exact hwriter
      · exact hunavailable
      · exact h.streams.2
      · rw [hstate] at hreset
        exact fun hr => (hreset hr).1
    · refine inv_sendEscapedContent hdone ⟨⟨?_, fun _ => ⟨hallocations, hwriter⟩, h.streams.1.single⟩, h.streams.2⟩
        ⟨rfl, h.line.once⟩ hstate
      intro havailable
      exact absurd havailable (by simp [discardSent, hunavailable])
  · -- a size update
    rename_i resetAfterSend hstate
    split at hdone
    · rename_i hafter
      cases hdone
      rw [hstate] at hreset
      refine ⟨LineFree.resetConnected ⟨rfl, h.line.once⟩, StreamsHold.resetConnected ?_ ?_⟩
      · exact h.streams
      · exact hreset hafter
    · cases hdone
      refine h.of_line (LineFree.goStateConnectedIdle ⟨rfl, h.line.once⟩) ?_
      exact streamBook_goStateConnectedIdle _
  · cases hdone

/-! ## Runs -/

theorem inv_create (sendBufferSize receiveBufferSize receivedDataQueueMaxSize minUpdateSize : Nat) :
    (create sendBufferSize receiveBufferSize receivedDataQueueMaxSize minUpdateSize).Inv := by
  refine ⟨LineFree.sendWindowSizeRequest ⟨rfl, rfl⟩ _ _, ⟨⟨fun _ => ⟨rfl, rfl, rfl, rfl⟩, ?_, ?_⟩, rfl⟩⟩
  · exact fun hne => absurd rfl hne
  · exact Nat.zero_le 1

theorem Inv.good (h : c.Inv) : c.Good where
  oneTransmission := h.line.once
  oneStream := h.streams.2
  served := fun hwaits => hwaits.2 (h.streams.1.available hwaits.1).1

theorem Inv.step (h : c.Inv) {e : Event} (horderly : c.Orderly e) (hr : c.step e = some c') : c'.Inv := by
  cases e with
  | received data =>
      simp only [Connection.step] at hr
      split at hr
      · cases hr
        exact h.of_line (h.line.of_eq rfl rfl rfl rfl) rfl
      · cases hr
  | turn contiguous =>
      simp only [Connection.step, turn] at hr
      split at hr
      · cases hr
      · split at hr
        · cases hr
        · split at hr
          · rename_i hcontent
            obtain ⟨⟨m, amount⟩, hm, rfl⟩ := Option.map_eq_some_iff.mp hr
            have hm := h.turn_content hcontent horderly hm
            refine Inv.evaluatePendingSend ?_
            exact hm.of_line (hm.line.of_eq rfl rfl rfl rfl) rfl
          · rename_i hcontent
            cases hr
            exact (h.turn_header (by omega) horderly).evaluatePendingSend
  | sent => exact h.sent horderly hr
  | windowRequestTimer =>
      simp only [Connection.step] at hr
      split at hr
      · rename_i init responseAfterSend hstate
        cases hr
        have hfits := h.line.fits
        rw [hstate] at hfits
        refine h.of_line (LineFree.sendWindowSizeRequest ⟨?_, h.line.once⟩ _ _) rfl
        simpa [hfits.2 rfl] using hfits.1
      · cases hr
  | requestSendStream sendSize =>
      simp only [Connection.step] at hr
      split at hr
      · split at hr
        · rename_i havailable
          obtain ⟨-, hallocations, hwriter, hready⟩ := h.streams.1.available havailable
          cases hr
          refine ⟨h.line.of_eq rfl rfl rfl rfl, ⟨⟨?_, fun hne => absurd hready hne, ?_⟩, h.streams.2⟩⟩
          · simp [allocatedSendStream]
          · simp [allocatedSendStream, hallocations, hwriter]
        · rename_i havailable
          cases hr
          refine ⟨h.line.of_eq rfl rfl rfl rfl, ⟨⟨?_, h.streams.1.ready, h.streams.1.single⟩, h.streams.2⟩⟩
          exact fun hav => absurd hav havailable
      · cases hr
  | sendStreamAvailable =>
      simp only [Connection.step] at hr
      split at hr
      · cases hr
      · rename_i hallocations
        have hsingle := h.streams.1.single
        have hwriter : c.writer = false := by
          cases hw : c.writer with
          | false => rfl
          | true =>
              simp only [hw, Bool.toNat_true] at hsingle
              omega
        cases hr
        refine ⟨h.line.of_eq rfl rfl rfl rfl, ⟨⟨?_, ?_, ?_⟩, ?_⟩⟩
        · exact fun hav => absurd (h.streams.1.available hav).2.1 hallocations
        · exact fun hne => absurd (h.streams.1.ready hne).1 hallocations
        · simp only [hwriter, Bool.toNat_false, Bool.toNat_true] at hsingle ⊢
          omega
        · simp [hwriter, h.streams.2]
  | written data =>
      simp only [Connection.step] at hr
      split at hr
      · rename_i hwritten
        have hwriter : c.writer = true := by
          simp only [Bool.and_eq_true] at hwritten
          exact hwritten.1
        have hsingle := h.streams.1.single
        simp only [hwriter, Bool.toNat_true] at hsingle
        cases hr
        refine ⟨{ h.line with ready := ?_ }, ⟨⟨?_, fun _ => ⟨by simp only; omega, rfl⟩, ?_⟩, h.streams.2⟩⟩
        · -- content is not sent while the send stream is held
          intro resetAfterSend size hstate
          have := (h.streams.1.ready (h.line.ready _ _ hstate)).2
          rw [hwriter] at this
          cases this
        · intro hav
          have := (h.streams.1.available hav).2.2.1
          rw [hwriter] at this
          cases this
        · simp only [Bool.toNat_false]
          omega
      · cases hr
  | evaluatePendingSend =>
      simp only [Connection.step] at hr
      split at hr
      · cases hr
      · cases hr
        apply Inv.evaluatePendingSend
        exact h.of_line (h.line.of_eq rfl rfl rfl rfl) rfl
  | readAndAck amount =>
      simp only [Connection.step] at hr
      split at hr
      · have hread : ∀ queue, Inv { c with observerNotified := false, receivedDataQueue := queue } := fun queue =>
          h.of_line (h.line.of_eq rfl rfl rfl rfl) rfl
        split at hr
        · cases hr
          exact hread _
        · cases hr
          exact hread _
        · cases hr
          exact hread _
        · cases hr
          exact ((hread _).accumulateWindowUpdateSize amount).evaluatePendingSend
      · cases hr

/-- **A connection whose steps are all orderly keeps its promises.** In every state of such a run
there has been one transmission and one send stream at a time, and no request waits for a send stream
that is available. -/
theorem good_of_orderly (sendBufferSize receiveBufferSize receivedDataQueueMaxSize minUpdateSize : Nat)
    (events : List Event)
    (h : EventSystem.Along step Orderly
      (create sendBufferSize receiveBufferSize receivedDataQueueMaxSize minUpdateSize) events) :
    EventSystem.Always step Good
      (create sendBufferSize receiveBufferSize receivedDataQueueMaxSize minUpdateSize) events := by
  intro earlier hp c hc
  have hinv := run_invariant_along Inv (fun _ _ _ hi ho hs => hi.step ho hs)
    (along_of_earlier h hp) hc (inv_create _ _ _ _)
  exact hinv.good

theorem orderly_of_eq_false {e : Event} (hleaves : c.leavesTransmission e = false)
    (hresets : c.resetsConnection e = false) : c.Orderly e :=
  ⟨hleaves, fun hreset => absurd hreset (by simp [hresets])⟩

/-- The peer answers the size request, a send stream is held, another one is requested, and then a byte
arrives that is no header. -/
theorem not_good_of_reset : ¬ ∀ (events : List Event) (c : Connection),
    run step (create 8 16 16 4) events = some c → c.Good := by
  intro hall
  have h := hall [.sent, .received [0xfc, 0, 16], .turn 3, .sent, .requestSendStream 2, .sendStreamAvailable,
    .requestSendStream 2, .received [0], .turn 1] _ rfl
  exact h.served (by decide)

/-- A run with a handshake and one message. -/
theorem good_of_orderly_message : ∃ c : Connection,
    EventSystem.Always step Good (create 8 16 16 4)
      [.sent, .received [0xfc, 0, 16], .turn 3, .sent, .requestSendStream 2, .sendStreamAvailable, .written [1, 2],
        .evaluatePendingSend, .sent, .sent]
    ∧ run step (create 8 16 16 4)
      [.sent, .received [0xfc, 0, 16], .turn 3, .sent, .requestSendStream 2, .sendStreamAvailable, .written [1, 2],
        .evaluatePendingSend, .sent, .sent] = some c
    ∧ c.state = .connectedIdle ∧ c.sendStreamAvailable = true := by
  refine ⟨_, good_of_orderly 8 16 16 4 _ ?_, rfl, rfl, rfl⟩
  refine along_cons rfl (orderly_of_eq_false rfl rfl) (along_cons rfl (orderly_of_eq_false rfl rfl) ?_)
  refine along_cons rfl (orderly_of_eq_false rfl rfl) (along_cons rfl (orderly_of_eq_false rfl rfl) ?_)
  refine along_cons rfl (orderly_of_eq_false rfl rfl) (along_cons rfl (orderly_of_eq_false rfl rfl) ?_)
  refine along_cons rfl (orderly_of_eq_false rfl rfl) (along_cons rfl (orderly_of_eq_false rfl rfl) ?_)
  exact along_cons rfl (orderly_of_eq_false rfl rfl) (along_cons rfl (orderly_of_eq_false rfl rfl) trivial)

end Connection

end EmbeddedInfra.ConnectionSerial
