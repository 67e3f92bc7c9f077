import EmbeddedInfra.Services.Network.ConnectionSerialRuns

set_option autoImplicit false

/-! # Content on a serial line

The size of a content message is computed by one loop, over the escaped lengths and up to the border of the
peer's window; the bytes are then sent in parts, by another loop, an escaped byte as a part of its own. The
two agree as long as the border does not lie inside an escaped byte.
-/

namespace EmbeddedInfra.ConnectionSerial

/-! ## The escaped form -/

/-- What is sent for a byte of the content. -/
def escapedUnit (byte : UInt8) : List UInt8 := if isEscapedByte byte then [escape, byte] else [byte]

/-- What is sent for content. -/
def escaped (content : List UInt8) : List UInt8 := content.flatMap escapedUnit

@[simp] theorem escaped_nil : escaped [] = [] := rfl

@[simp] theorem escaped_cons (byte : UInt8) (rest : List UInt8) :
    escaped (byte :: rest) = escapedUnit byte ++ escaped rest := rfl

@[simp] theorem escaped_append (first second : List UInt8) :
    escaped (first ++ second) = escaped first ++ escaped second :=
  List.flatMap_append

theorem length_escapedUnit (byte : UInt8) :
    (escapedUnit byte).length = if isEscapedByte byte then 2 else 1 := by
  unfold escapedUnit
  split <;> rfl

theorem length_escapedUnit_pos (byte : UInt8) : 0 < (escapedUnit byte).length := by
  rw [length_escapedUnit]
  split <;> omega

theorem length_le_length_escaped (content : List UInt8) : content.length ≤ (escaped content).length := by
  induction content with
  | nil => exact le_rfl
  | cons byte rest ih =>
      have hunit := length_escapedUnit_pos byte
      rw [escaped_cons, List.length_append, List.length_cons]
      omega

/-- Content without bytes to escape is sent as it is. -/
theorem escaped_of_plain {content : List UInt8} (h : ∀ byte ∈ content, isEscapedByte byte = false) :
    escaped content = content := by
  induction content with
  | nil => rfl
  | cons byte rest ih =>
      rw [List.forall_mem_cons] at h
      rw [escaped_cons, ih h.2, escapedUnit, h.1]
      rfl

/-! ## The window -/

/-- No byte to escape lies across the border of the window, and a header has room for the size. -/
structure FitsWindow (window : Nat) (content : List UInt8) : Prop where
  border : ∀ before byte after, content = before ++ byte :: after → isEscapedByte byte = true →
    (escaped before).length + 1 ≠ window
  room : min window (escaped content).length < 2 ^ 16

/-- The border of the window lies between two bytes of the content, or inside a byte to escape. -/
theorem units_or_straddle (content : List UInt8) {window : Nat} (h : window ≤ (escaped content).length) :
    (∃ k ≤ content.length, (escaped (content.take k)).length = window) ∨
      ∃ before byte after, content = before ++ byte :: after ∧ isEscapedByte byte = true ∧
        (escaped before).length + 1 = window := by
  induction content generalizing window with
  | nil =>
      obtain rfl : window = 0 := Nat.le_zero.mp h
      exact Or.inl ⟨0, le_rfl, rfl⟩
  | cons byte rest ih =>
      rw [escaped_cons, List.length_append] at h
      rcases Nat.lt_or_ge window (escapedUnit byte).length with hinside | hbehind
      · rcases Nat.eq_zero_or_pos window with rfl | hpos
        · exact Or.inl ⟨0, Nat.zero_le _, rfl⟩
        · -- the unit has two bytes, and the window ends behind the first one
          have hunit := length_escapedUnit byte
          split at hunit
          · rename_i hescaped
            refine Or.inr ⟨[], byte, rest, rfl, hescaped, ?_⟩
            simp only [escaped_nil, List.length_nil]
            omega
          · omega
      · rcases @ih (window - (escapedUnit byte).length) (by omega) with
          ⟨k, hk, hlength⟩ | ⟨before, byte', after, rfl, hescaped, hlength⟩
        · refine Or.inl ⟨k + 1, Nat.succ_le_succ hk, ?_⟩
          rw [List.take_succ_cons, escaped_cons, List.length_append, hlength]
          omega
        · refine Or.inr ⟨byte :: before, byte', after, rfl, hescaped, ?_⟩
          rw [escaped_cons, List.length_append]
          omega

/-- The size of a message is that of some whole bytes. -/
theorem FitsWindow.units {window : Nat} {content : List UInt8} (h : FitsWindow window content) :
    ∃ k ≤ content.length, (escaped (content.take k)).length = min window (escaped content).length := by
  rcases Nat.le_total window (escaped content).length with hle | hge
  · rw [min_eq_left hle]
    rcases units_or_straddle content hle with hunits | ⟨before, byte, after, hsplit, hescaped, hlength⟩
    · exact hunits
    · exact absurd hlength (h.border before byte after hsplit hescaped)
  · exact ⟨content.length, le_rfl, by rw [List.take_length, min_eq_right hge]⟩

/-- When the window ends inside a byte to escape, no whole bytes fill it. -/
theorem length_ne_of_straddle {before after removed rest : List UInt8} {byte : UInt8}
    (hsplit : before ++ byte :: after = removed ++ rest) (hescaped : isEscapedByte byte = true) :
    (escaped removed).length ≠ (escaped before).length + 1 := by
  have hunit : (escapedUnit byte).length = 2 := by rw [length_escapedUnit, if_pos hescaped]
  rcases List.append_eq_append_iff.mp hsplit with ⟨part, rfl, hpart⟩ | ⟨part, rfl, hpart⟩
  · rw [escaped_append, List.length_append]
    rcases part with _ | ⟨first, part⟩
    · simp
    · obtain ⟨rfl, -⟩ := List.cons.inj hpart
      rw [escaped_cons, List.length_append, hunit]
      omega
  · rw [escaped_append, List.length_append]
    omega

namespace Connection

/-- The room for content in the peer's buffer: it keeps room for this header, and for a size update. -/
def window (c : Connection) : Nat := c.peerBufferSize - 2 * headerSize

theorem contentSize_eq_min {maxContentSize size : Nat} (h : size < maxContentSize) (content : List UInt8) :
    contentSize maxContentSize content size = min maxContentSize (size + (escaped content).length) := by
  induction content generalizing size with
  | nil => simp [contentSize, h.le]
  | cons byte rest ih =>
      rw [contentSize, escaped_cons, List.length_append, length_escapedUnit]
      generalize (if isEscapedByte byte = true then 2 else 1) = incr
      split
      · rw [min_eq_left (by omega)]
      · rw [ih (by omega), Nat.add_assoc]

theorem contentSizeToSend_eq {c : Connection} (h : c.totalContentSizeToSend = 0) :
    c.contentSizeToSend = min c.window (escaped c.contentReadyForSend).length := by
  have hwindow : (if c.peerBufferSize > 2 * headerSize then c.peerBufferSize - 2 * headerSize else 0) = c.window := by
    unfold window
    split <;> omega
  unfold contentSizeToSend
  rw [if_neg (not_not.mpr h)]
  dsimp only
  rw [hwindow]
  rcases Nat.eq_zero_or_pos c.window with hzero | hpos
  · rw [hzero, Nat.zero_min]
    cases c.contentReadyForSend with
    | nil => rfl
    | cons byte rest => simp [contentSize]
  · rw [contentSize_eq_min hpos, Nat.zero_add]

/-! ## Messages with content -/

/-- A connection that is about to send content. -/
structure BeginsContent (c : Connection) : Prop where
  idle : c.state = .connectedIdle
  noUpdate : c.updatePossible = false
  size : c.contentSizeToSend ≠ 0

/-- The size in the header that is being transmitted. -/
def announcedSize (c : Connection) : Nat :=
  let header := (c.transmission.map (·.data)).getD []
  MessageHeader.size { headerContent := header, isComplete := true, isFailed := false }

/-- A part of the content has been transmitted, and is taken from the content. -/
inductive PartSent (c : Connection) : List UInt8 → Connection → Prop where
  | taken {data : List UInt8} {rawContentSize partialContentSizeBeingSent : Nat} {resetAfterSend : Bool}
      (htransmission : c.transmission = some { data := data, onDone := .partialContentSent rawContentSize })
      (hstate : c.state = .connectedSendingContent resetAfterSend partialContentSizeBeingSent) :
      PartSent c data ({ c with transmission := none }.discardSent rawContentSize partialContentSizeBeingSent)

/-- A content message on its way, with what has been transmitted behind its header. -/
inductive Message (c : Connection) : List UInt8 → Connection → Prop where
  | begins : Message c [] c.evaluateConnected
  | headerSent {transmitted : List UInt8} {m m' : Connection} (h : Message c transmitted m)
      (hheader : m.transmission.map (·.onDone) = some .contentHeaderSent) (hstep : m.step .sent = some m') :
      Message c transmitted m'
  -- the message goes on as long as some of its size is left
  | partSent {transmitted data : List UInt8} {m taken m' : Connection} (h : Message c transmitted m)
      (hpart : m.PartSent data taken) (hleft : taken.totalContentSizeToSend ≠ 0) (hstep : m.step .sent = some m') :
      Message c (transmitted ++ data) m'
  | other {transmitted : List UInt8} {m m' : Connection} {e : Event} (h : Message c transmitted m)
      (hother : e ≠ .sent) (hstep : m.step e = some m') : Message c transmitted m'

/-- What is left of the size and of the content agrees with what has been transmitted. -/
structure Agrees (size : Nat) (content transmitted : List UInt8) (m : Connection) : Prop where
  size : m.totalContentSizeToSend + transmitted.length = size
  content : ∃ removed, content = removed ++ m.contentReadyForSend ∧ transmitted = escaped removed

/-- What is promised of a message: it agrees at all times, and it is completed. -/
structure FramesContent (c : Connection) : Prop where
  underway : ∀ transmitted m, c.Message transmitted m →
    Agrees c.evaluateConnected.announcedSize c.contentReadyForSend transmitted m
  parts : ∀ transmitted m data taken, c.Message transmitted m → m.PartSent data taken →
    Agrees c.evaluateConnected.announcedSize c.contentReadyForSend (transmitted ++ data) taken
  completed : ∀ transmitted m, c.Message transmitted m → ∃ more m' data taken,
    c.Message (transmitted ++ more) m' ∧ m'.PartSent data taken ∧ taken.totalContentSizeToSend = 0

/-! ## What happens besides -/

/-- The size of the part that is being sent, while content is sent. -/
def partSize (c : Connection) : Option Nat :=
  match c.state with
  | .connectedSendingContent _ size => some size
  | _ => none

/-- What a message consists of: it is changed by completed transmissions only. -/
def messageBook (c : Connection) : Option Nat × List UInt8 × Nat × Option Transmission × Bool × Nat × Bool :=
  (c.partSize, c.contentReadyForSend, c.totalContentSizeToSend, c.transmission, c.sendStreamAvailable, c.allocations,
    c.writer)

variable {c m m' : Connection} {size : Nat} {k raw : Nat} {transmitted : List UInt8}

theorem partSize_of_book (hbook : m'.messageBook = m.messageBook) : m'.partSize = m.partSize := congrArg (·.1) hbook

theorem exists_state_of_partSize (h : c.partSize = some size) :
    ∃ resetAfterSend, c.state = .connectedSendingContent resetAfterSend size := by
  unfold partSize at h
  split at h
  · rename_i resetAfterSend _ hstate
    cases h
    exact ⟨resetAfterSend, hstate⟩
  · cases h

theorem messageBook_reset (h : c.partSize = some size) : c.reset.messageBook = c.messageBook := by
  obtain ⟨resetAfterSend, hstate⟩ := exists_state_of_partSize h
  simp [reset, messageBook, partSize, hstate]

theorem messageBook_accumulateWindowUpdateSize (amount : Nat) :
    (c.accumulateWindowUpdateSize amount).messageBook = c.messageBook := by
  unfold accumulateWindowUpdateSize
  split <;> rfl

section

variable (h : c.partSize = some size)
include h

theorem messageBook_evaluatePendingSend : c.evaluatePendingSend.messageBook = c.messageBook := by
  obtain ⟨resetAfterSend, hstate⟩ := exists_state_of_partSize h
  simp [evaluatePendingSend, hstate]

theorem messageBook_processHeader (header : MessageHeader) :
    (c.processHeader header).messageBook = c.messageBook := by
  obtain ⟨resetAfterSend, hstate⟩ := exists_state_of_partSize h
  have hreset := messageBook_reset h
  have hrequest : c.sizeRequestReceived = c.reset := by simp [sizeRequestReceived, hstate]
  have hresponseRequest : c.sizeResponseRequestReceived header.size = c.reset := by
    simp [sizeResponseRequestReceived, hstate]
  have hresponse : c.sizeResponseReceived header.size = c.reset := by simp [sizeResponseReceived, hstate]
  have hupdate : (c.sizeUpdateReceived header.size).messageBook = c.messageBook := by
    simp [sizeUpdateReceived, hstate, messageBook, partSize]
  unfold processHeader
  rw [hrequest, hresponseRequest, hresponse]
  split
  · exact hreset
  · split
    · exact hreset
    · split
      · exact hreset
      · split
        · rfl
        · split
          · exact hupdate
          · rfl

theorem messageBook_tryProcessHeader : c.tryProcessHeader.messageBook = c.messageBook := by
  unfold tryProcessHeader
  split
  · rfl
  · split
    · rfl
    · split
      · exact messageBook_reset h
      · exact messageBook_processHeader h _

theorem messageBook_contentReceived {range : List UInt8} {result : Connection × Nat}
    (hresult : c.contentReceived range = some result) : result.1.messageBook = c.messageBook := by
  obtain ⟨resetAfterSend, hstate⟩ := exists_state_of_partSize h
  have hadded (copied : Copied) (left : Nat) :
      Connection.messageBook { c.addContent copied with contentToReceive := left } = c.messageBook := by
    unfold addContent
    dsimp only
    split
    · exact messageBook_accumulateWindowUpdateSize _
    · rfl
  simp only [contentReceived, hstate] at hresult
  split at hresult
  · cases hresult
  · split at hresult
    · cases hresult
      exact hadded _ _
    · cases hresult
      have hbook := hadded (copyEscapedContent range c.isEscapeSeen) 0
      exact (messageBook_reset ((partSize_of_book hbook).trans h)).trans hbook

/-- The user has no send stream, and the other events leave the message alone. -/
theorem messageBook_other (hunavailable : c.sendStreamAvailable = false)
    (hallocations : c.allocations = 0) (hwriter : c.writer = false) {e : Event} (hother : e ≠ .sent)
    (hstep : c.step e = some m) : m.messageBook = c.messageBook := by
  obtain ⟨resetAfterSend, hstate⟩ := exists_state_of_partSize h
  cases e with
  | received data =>
      simp only [step] at hstep
      split at hstep
      · cases hstep
        rfl
      · cases hstep
  | turn contiguous =>
      simp only [step, turn] at hstep
      split at hstep
      · cases hstep
      · split at hstep
        · cases hstep
        · split at hstep
          · obtain ⟨⟨result, amount⟩, hresult, rfl⟩ := Option.map_eq_some_iff.mp hstep
            have hbook : Connection.messageBook { result with receiveQueue := result.receiveQueue.drop amount } =
                c.messageBook := messageBook_contentReceived h hresult
            have hsize := (partSize_of_book hbook).trans h
            exact (messageBook_evaluatePendingSend hsize).trans hbook
          · cases hstep
            have hconstructed : c.tryConstructHeader.messageBook = c.messageBook :=
              messageBook_accumulateWindowUpdateSize _
            have hsize := (partSize_of_book hconstructed).trans h
            have hprocessed := messageBook_tryProcessHeader hsize
            have hsize' := (partSize_of_book hprocessed).trans hsize
            exact (messageBook_evaluatePendingSend hsize').trans (hprocessed.trans hconstructed)
  | sent => exact absurd rfl hother
  | windowRequestTimer => simp [step, hstate] at hstep
  | requestSendStream sendSize =>
      simp only [step, hunavailable] at hstep
      split at hstep
      · cases hstep
        simp [messageBook, partSize, hunavailable]
      · cases hstep
  | sendStreamAvailable => simp [step, hallocations] at hstep
  | written data => simp [step, hwriter] at hstep
  | evaluatePendingSend =>
      simp only [step] at hstep
      split at hstep
      · cases hstep
      · cases hstep
        exact messageBook_evaluatePendingSend h
  | readAndAck amount =>
      simp only [step] at hstep
      split at hstep
      · have hread : ∀ queue, partSize { c with observerNotified := false, receivedDataQueue := queue } = some size :=
          fun _ => h
        split at hstep
        · cases hstep
          rfl
        · cases hstep
          rfl
        · cases hstep
          rfl
        · cases hstep
          have hbook := messageBook_accumulateWindowUpdateSize
            (c := { c with observerNotified := false, receivedDataQueue := c.receivedDataQueue.drop amount }) amount
          have hsize := (partSize_of_book hbook).trans (hread _)
          exact (messageBook_evaluatePendingSend hsize).trans hbook
      · cases hstep

end

/-! ## The parts of a message -/

/-- The first byte to escape among some whole bytes: those before it are plain. -/
theorem firstEscapedByte_of_units {content : List UInt8} (h : k ≤ content.length) :
    ∃ n ≤ k, firstEscapedByte (escaped (content.take k)).length content = some n ∧
      (∀ byte ∈ content.take n, isEscapedByte byte = false) ∧
      (n = 0 → k = 0 ∨ ∃ byte rest, content = byte :: rest ∧ isEscapedByte byte = true) := by
  induction k generalizing content with
  | zero => exact ⟨0, le_rfl, by simp [firstEscapedByte], by simp, fun _ => Or.inl rfl⟩
  | succ k ih =>
      rcases content with _ | ⟨byte, rest⟩
      · simp at h
      · have hlength := length_escapedUnit byte
        rw [List.take_succ_cons, escaped_cons, List.length_append, hlength]
        cases hescaped : isEscapedByte byte with
        | true =>
            refine ⟨0, Nat.zero_le _, ?_, by simp, fun _ => Or.inr ⟨byte, rest, rfl, hescaped⟩⟩
            rw [if_pos rfl, Nat.add_comm]
            simp [firstEscapedByte, hescaped]
        | false =>
            obtain ⟨n, hn, hfirst, hplain, -⟩ := ih (by simpa using h)
            refine ⟨n + 1, Nat.succ_le_succ hn, ?_, ?_, fun hzero => by omega⟩
            · rw [if_neg (by simp), Nat.add_comm]
              simp [firstEscapedByte, hescaped, hfirst]
            · rw [List.take_succ_cons, List.forall_mem_cons]
              exact ⟨hescaped, hplain⟩

/-- The transmission of a part: some whole bytes of the content, in their escaped form. -/
structure SendsPart (m : Connection) (raw : Nat) : Prop where
  transmission : m.transmission =
    some { data := escaped (m.contentReadyForSend.take raw), onDone := .partialContentSent raw }
  partSize : m.partSize = some (escaped (m.contentReadyForSend.take raw)).length
  pos : 0 < raw

/-- The next part is sent, when what is left of the size is that of some whole bytes. -/
theorem sendEscapedContent_of_units (hpart : m.partSize = some size)
    (hk : k ≤ m.contentReadyForSend.length)
    (htotal : m.totalContentSizeToSend = (escaped (m.contentReadyForSend.take k)).length)
    (hleft : m.totalContentSizeToSend ≠ 0) :
    ∃ m' raw, m.sendEscapedContent = some m' ∧ raw ≤ k ∧ m'.SendsPart raw ∧
      m'.contentReadyForSend = m.contentReadyForSend ∧ m'.totalContentSizeToSend = m.totalContentSizeToSend ∧
      m'.sendStreamAvailable = m.sendStreamAvailable ∧ m'.allocations = m.allocations ∧ m'.writer = m.writer := by
  obtain ⟨resetAfterSend, hstate⟩ := exists_state_of_partSize hpart
  obtain ⟨n, hn, hfirst, hplain, hzero⟩ := firstEscapedByte_of_units hk
  rw [← htotal] at hfirst
  have hsends (range : List UInt8) (raw : Nat) : m.sendPartialContent range raw =
      { m with state := .connectedSendingContent resetAfterSend range.length }.sendData range
        (.partialContentSent raw) := by
    simp only [sendPartialContent, hstate]
  rcases Nat.eq_zero_or_pos n with rfl | hpos
  · rcases hzero rfl with rfl | ⟨byte, rest, hready, hescaped⟩
    · rw [List.take_zero] at htotal
      exact absurd htotal hleft
    · -- an escaped byte is a part of its own
      have hrange : [escape, byte] = escaped (m.contentReadyForSend.take 1) := by
        simp [hready, escapedUnit, hescaped]
      have hk' : 1 ≤ k := by
        rcases Nat.eq_zero_or_pos k with rfl | hk'
        · rw [List.take_zero] at htotal
          exact absurd htotal hleft
        · exact hk'
      refine ⟨m.sendPartialContent [escape, byte] 1, 1, ?_, hk', ?_⟩
      · rw [hready] at hfirst
        simp [sendEscapedContent, hfirst, hready]
      · rw [hsends, hrange]
        exact ⟨⟨rfl, rfl, Nat.one_pos⟩, rfl, rfl, rfl, rfl, rfl⟩
  · have hrange : m.contentReadyForSend.take n = escaped (m.contentReadyForSend.take n) :=
      (escaped_of_plain hplain).symm
    refine ⟨m.sendPartialContent (m.contentReadyForSend.take n) n, n, ?_, hn, ?_⟩
    · rcases hready : m.contentReadyForSend with _ | ⟨byte, rest⟩
      · rw [hready] at hk
        simp at hk
        omega
      · obtain ⟨n, rfl⟩ : ∃ n', n = n' + 1 := ⟨n - 1, by omega⟩
        rw [hready] at hfirst
        simp [sendEscapedContent, hfirst, hready]
    · rw [hsends]
      refine ⟨⟨?_, ?_, hpos⟩, rfl, rfl, rfl, rfl, rfl⟩
      · exact congrArg (fun data => some (Transmission.mk data (.partialContentSent n))) hrange
      · exact congrArg (fun data => some (List.length data)) hrange

/-- What holds of a message on its way. The rest of its size is that of `k` whole bytes of the content. -/
structure Underway (c : Connection) (transmitted : List UInt8) (m : Connection) (k : Nat) : Prop where
  sending : ∃ size, m.partSize = some size
  closed : m.sendStreamAvailable = false ∧ m.allocations = 0 ∧ m.writer = false
  agrees : Agrees c.evaluateConnected.announcedSize c.contentReadyForSend transmitted m
  bound : k ≤ m.contentReadyForSend.length
  total : m.totalContentSizeToSend = (escaped (m.contentReadyForSend.take k)).length
  left : m.totalContentSizeToSend ≠ 0
  line : m.transmission.map (·.onDone) = some .contentHeaderSent ∨ ∃ raw ≤ k, m.SendsPart raw

theorem SendsPart.of_book (h : m.SendsPart raw) (hbook : m'.messageBook = m.messageBook) :
    m'.SendsPart raw := by
  simp only [messageBook, Prod.mk.injEq] at hbook
  rcases hbook with ⟨hpart, hready, -, htransmission, -⟩
  constructor
  · rw [htransmission, hready]
    exact h.transmission
  · rw [hpart, hready]
    exact h.partSize
  · exact h.pos

theorem Underway.of_book (h : Underway c transmitted m k)
    (hbook : m'.messageBook = m.messageBook) : Underway c transmitted m' k := by
  have hline := h.line
  have hagrees := h.agrees
  have hbook' := hbook
  simp only [messageBook, Prod.mk.injEq] at hbook'
  rcases hbook' with ⟨hpart, hready, htotal, htransmission, havailable, hallocations, hwriter⟩
  constructor
  · rw [hpart]
    exact h.sending
  · rw [havailable, hallocations, hwriter]
    exact h.closed
  · constructor
    · rw [htotal]
      exact hagrees.size
    · rw [hready]
      exact hagrees.content
  · rw [hready]
    exact h.bound
  · rw [htotal, hready]
    exact h.total
  · rw [htotal]
    exact h.left
  · rcases hline with hheader | ⟨raw, hraw, hsends⟩
    · rw [htransmission]
      exact Or.inl hheader
    · exact Or.inr ⟨raw, hraw, hsends.of_book hbook⟩

/-- The size in the header has sixteen bits. -/
theorem size_range (amount : Nat) :
    MessageHeader.size
      { headerContent := MessageHeader.range content amount, isComplete := true, isFailed := false } =
      amount % 2 ^ 16 := by
  have hrange : MessageHeader.range content amount =
      [content, UInt8.ofNat (amount / 256), UInt8.ofNat amount] := rfl
  rw [hrange]
  simp only [MessageHeader.size, List.getD_cons_succ, List.getD_cons_zero, UInt8.toNat_ofNat']
  omega

section

variable (h : c.BeginsContent)
include h

theorem BeginsContent.evaluateConnected :
    c.evaluateConnected = c.goStateConnectedSendingContent c.contentSizeToSend := by
  unfold Connection.evaluateConnected
  rw [if_neg (by simp [h.noUpdate]), if_pos h.size]

theorem BeginsContent.totalContentSizeToSend : c.totalContentSizeToSend = 0 := by
  by_contra hne
  have hsize := h.size
  simp [contentSizeToSend, hne] at hsize

theorem BeginsContent.size_eq :
    c.contentSizeToSend = min c.window (escaped c.contentReadyForSend).length :=
  contentSizeToSend_eq h.totalContentSizeToSend

theorem BeginsContent.announcedSize :
    c.evaluateConnected.announcedSize = c.contentSizeToSend % 2 ^ 16 := by
  rw [h.evaluateConnected]
  exact size_range _

/-- The user has no send stream while there is content. -/
theorem BeginsContent.closed (hstreams : c.StreamsHold) :
    c.sendStreamAvailable = false ∧ c.allocations = 0 ∧ c.writer = false := by
  have hready := ready_of_contentSizeToSend h.size
  refine ⟨?_, hstreams.1.ready hready⟩
  by_contra havailable
  exact hready (hstreams.1.available (by simpa using havailable)).2.2.2

theorem BeginsContent.underway (hstreams : c.StreamsHold)
    (hfits : FitsWindow c.window c.contentReadyForSend) : ∃ k, Underway c [] c.evaluateConnected k := by
  obtain ⟨k, hk, hlength⟩ := hfits.units
  have hsize := h.size_eq
  have hannounced := h.announcedSize
  rw [hsize, Nat.mod_eq_of_lt hfits.room] at hannounced
  refine ⟨k, ?_⟩
  have hgo := h.evaluateConnected
  constructor
  · rw [hgo]
    exact ⟨0, rfl⟩
  · rw [hgo]
    exact h.closed hstreams
  · constructor
    · rw [hannounced, hgo]
      exact hsize
    · rw [hgo]
      exact ⟨[], rfl, rfl⟩
  · rw [hgo]
    exact hk
  · rw [hgo]
    exact hsize.trans hlength.symm
  · rw [hgo]
    exact h.size
  · rw [hgo]
    exact Or.inl rfl

end

/-- The next part of the message is sent. -/
theorem Underway.sends (hpart : m.partSize = some size)
    (hclosed : m.sendStreamAvailable = false ∧ m.allocations = 0 ∧ m.writer = false)
    (hagrees : Agrees c.evaluateConnected.announcedSize c.contentReadyForSend transmitted m)
    (hk : k ≤ m.contentReadyForSend.length)
    (htotal : m.totalContentSizeToSend = (escaped (m.contentReadyForSend.take k)).length)
    (hleft : m.totalContentSizeToSend ≠ 0) : ∃ m', m.sendEscapedContent = some m' ∧
      Underway c transmitted m' k ∧ (∃ raw, m'.SendsPart raw) ∧
      m'.totalContentSizeToSend = m.totalContentSizeToSend := by
  obtain ⟨m', raw, hsend, hraw, hsends, hready, htotal', havailable, hallocations, hwriter⟩ :=
    sendEscapedContent_of_units hpart hk htotal hleft
  refine ⟨m', hsend, ?_, ⟨raw, hsends⟩, htotal'⟩
  constructor
  · exact ⟨_, hsends.partSize⟩
  · rw [havailable, hallocations, hwriter]
    exact hclosed
  · constructor
    · rw [htotal']
      exact hagrees.size
    · rw [hready]
      exact hagrees.content
  · rw [hready]
    exact hk
  · rw [htotal', hready]
    exact htotal
  · rw [htotal']
    exact hleft
  · exact Or.inr ⟨raw, hraw, hsends⟩

theorem step_sent {transmission : Transmission} (h : m.transmission = some transmission) :
    m.step .sent = { m with transmission := none }.onDone transmission.onDone m.state := by
  simp only [step, h, Option.bind_some]

theorem onDone_header {state : State} {resetAfterSend : Bool}
    (h : state = .connectedSendingContent resetAfterSend size) :
    m.onDone .contentHeaderSent state = m.sendEscapedContent := by
  rw [h]
  rfl

theorem onDone_part {state : State} {resetAfterSend : Bool}
    (h : state = .connectedSendingContent resetAfterSend size)
    (hleft : (m.discardSent raw size).totalContentSizeToSend ≠ 0) :
    m.onDone (.partialContentSent raw) state = (m.discardSent raw size).sendEscapedContent := by
  rw [h]
  exact if_neg hleft

/-- The header has been transmitted: the first part is sent. -/
theorem Underway.headerSent (h : Underway c transmitted m k)
    (hheader : m.transmission.map (·.onDone) = some .contentHeaderSent) :
    ∃ m', m.step .sent = some m' ∧ Underway c transmitted m' k ∧ ∃ raw, m'.SendsPart raw := by
  obtain ⟨size, hpart⟩ := h.sending
  obtain ⟨resetAfterSend, hstate⟩ := exists_state_of_partSize hpart
  obtain ⟨transmission, htransmission, hdone⟩ := Option.map_eq_some_iff.mp hheader
  have hagrees : Agrees c.evaluateConnected.announcedSize c.contentReadyForSend transmitted
      { m with transmission := none } := { h.agrees with }
  rw [step_sent htransmission, hdone, onDone_header hstate]
  obtain ⟨m', hsend, hm', hsends, -⟩ :=
    Underway.sends (m := { m with transmission := none }) hpart h.closed hagrees h.bound h.total h.left
  exact ⟨m', hsend, hm', hsends⟩

theorem size_lt (header : MessageHeader) : header.size < 2 ^ 16 := by
  have h1 := (header.headerContent.getD 1 0).toNat_lt
  have h2 := (header.headerContent.getD 2 0).toNat_lt
  unfold MessageHeader.size
  omega

theorem subtract_of_le {a b : Nat} (h : b ≤ a) (ha : a < 2 ^ 16) : subtract a b = a - b := by
  unfold subtract sizeRange
  omega

/-- A part has been transmitted: it has something of the size, and the rest is that of whole bytes again. -/
theorem Underway.taken {transmitted data : List UInt8} {k : Nat} {taken : Connection} (h : Underway c transmitted m k)
    (hpart : m.PartSent data taken) :
    Agrees c.evaluateConnected.announcedSize c.contentReadyForSend (transmitted ++ data) taken ∧
      taken.totalContentSizeToSend < m.totalContentSizeToSend ∧
      (taken.totalContentSizeToSend ≠ 0 → ∃ m' k', m.step .sent = some m' ∧ Underway c (transmitted ++ data) m' k' ∧
        (∃ raw, m'.SendsPart raw) ∧ m'.totalContentSizeToSend = taken.totalContentSizeToSend) := by
  cases hpart with
  | @taken raw size resetAfterSend htransmission hstate =>
      rcases h.line with hheader | ⟨raw', hraw, hsends⟩
      · rw [htransmission] at hheader
        cases hheader
      · have heq := hsends.transmission.symm.trans htransmission
        simp only [Option.some_inj, Transmission.mk.injEq, Callback.partialContentSent.injEq] at heq
        rcases heq with ⟨hdata, rfl⟩
        obtain rfl : size = data.length := by
          have hsize := hsends.partSize
          rw [hdata] at hsize
          unfold partSize at hsize
          rw [hstate] at hsize
          exact Option.some_inj.mp hsize
        have hunits : m.contentReadyForSend.take k = m.contentReadyForSend.take raw' ++
            (m.contentReadyForSend.drop raw').take (k - raw') := by
          rw [← List.take_add, Nat.add_sub_cancel' hraw]
        have htotal := h.total
        rw [hunits, escaped_append, List.length_append, hdata] at htotal
        have hrange : m.totalContentSizeToSend < 2 ^ 16 := by
          have hannounced := h.agrees.size
          have hlt : c.evaluateConnected.announcedSize < 2 ^ 16 := size_lt _
          omega
        have hrest : subtract m.totalContentSizeToSend data.length =
            (escaped ((m.contentReadyForSend.drop raw').take (k - raw'))).length := by
          rw [subtract_of_le (by omega) hrange]
          omega
        have hpos : 0 < data.length := by
          have hlength := length_le_length_escaped (m.contentReadyForSend.take raw')
          have hbound := h.bound
          have hpos := hsends.pos
          rw [hdata, List.length_take] at hlength
          omega
        have hagrees : Agrees c.evaluateConnected.announcedSize c.contentReadyForSend (transmitted ++ data)
            ({ m with transmission := none }.discardSent raw' data.length) := by
          constructor
          · calc subtract m.totalContentSizeToSend data.length + (transmitted ++ data).length
                = m.totalContentSizeToSend + transmitted.length := by
                  rw [hrest, List.length_append]
                  omega
              _ = c.evaluateConnected.announcedSize := h.agrees.size
          · rcases h.agrees.content with ⟨removed, hcontent, htransmitted⟩
            refine ⟨removed ++ m.contentReadyForSend.take raw', ?_, ?_⟩
            · calc c.contentReadyForSend
                  = removed ++ m.contentReadyForSend := hcontent
                _ = removed ++ (m.contentReadyForSend.take raw' ++ m.contentReadyForSend.drop raw') := by
                    rw [List.take_append_drop]
                _ = _ := (List.append_assoc ..).symm
            · rw [escaped_append, htransmitted, hdata]
        refine ⟨hagrees, ?_, ?_⟩
        · calc subtract m.totalContentSizeToSend data.length
              = (escaped ((m.contentReadyForSend.drop raw').take (k - raw'))).length := hrest
            _ < m.totalContentSizeToSend := by omega
        · intro hleft
          rw [step_sent htransmission, onDone_part hstate hleft]
          have hbound := h.bound
          have hpart : ({ m with transmission := none }.discardSent raw' data.length).partSize = some data.length :=
            hsends.partSize.trans (by rw [hdata])
          have hk : k - raw' ≤
              ({ m with transmission := none }.discardSent raw' data.length).contentReadyForSend.length := by
            calc k - raw' ≤ m.contentReadyForSend.length - raw' := Nat.sub_le_sub_right hbound raw'
              _ = (m.contentReadyForSend.drop raw').length := List.length_drop.symm
          obtain ⟨m', hsend, hm'⟩ := Underway.sends hpart h.closed hagrees hk hrest hleft
          exact ⟨m', _, hsend, hm'⟩

/-- The invariant holds all along the message. -/
theorem Message.underway (h : c.Message transmitted m)
    (hbegin : ∃ k, Underway c [] c.evaluateConnected k) : ∃ k, Underway c transmitted m k := by
  induction h with
  | begins => exact hbegin
  | headerSent _ hheader hstep ih =>
      rcases ih with ⟨k, hk⟩
      obtain ⟨m', hm', hunderway, -⟩ := hk.headerSent hheader
      obtain rfl := Option.some_inj.mp (hm'.symm.trans hstep)
      exact ⟨k, hunderway⟩
  | partSent _ hpart hleft hstep ih =>
      rcases ih with ⟨k, hk⟩
      obtain ⟨m', k', hm', hunderway, -⟩ := (hk.taken hpart).2.2 hleft
      obtain rfl := Option.some_inj.mp (hm'.symm.trans hstep)
      exact ⟨k', hunderway⟩
  | other _ hother hstep ih =>
      rcases ih with ⟨k, hk⟩
      obtain ⟨size, hpart⟩ := hk.sending
      rcases hk.closed with ⟨havailable, hallocations, hwriter⟩
      exact ⟨k, hk.of_book (messageBook_other hpart havailable hallocations hwriter hother hstep)⟩

/-- The part that is being transmitted is the next one to be taken. -/
theorem SendsPart.partSent (h : m.SendsPart raw) : ∃ data taken, m.PartSent data taken := by
  obtain ⟨resetAfterSend, hstate⟩ := exists_state_of_partSize h.partSize
  exact ⟨_, _, .taken h.transmission hstate⟩

/-- Each part takes something of the size, so that the message comes to its end. -/
theorem Message.completed (h : c.Message transmitted m)
    (hbegin : ∃ k, Underway c [] c.evaluateConnected k) : ∃ more m' data taken,
      c.Message (transmitted ++ more) m' ∧ m'.PartSent data taken ∧ taken.totalContentSizeToSend = 0 := by
  -- from a state in which a part is being sent, by induction on what is left of the size
  have hparts (left : Nat) : ∀ {transmitted : List UInt8} {m : Connection}, c.Message transmitted m →
      (∃ raw, m.SendsPart raw) → m.totalContentSizeToSend ≤ left → ∃ more m' data taken,
        c.Message (transmitted ++ more) m' ∧ m'.PartSent data taken ∧ taken.totalContentSizeToSend = 0 := by
    induction left with
    | zero =>
        intro transmitted m hm _ hle
        obtain ⟨k, hk⟩ := hm.underway hbegin
        exact absurd (Nat.le_zero.mp hle) hk.left
    | succ left ih =>
        rintro transmitted m hm ⟨raw, hsends⟩ hle
        obtain ⟨k, hk⟩ := hm.underway hbegin
        obtain ⟨data, taken, hpart⟩ := hsends.partSent
        obtain ⟨-, hless, hnext⟩ := hk.taken hpart
        by_cases hleft : taken.totalContentSizeToSend = 0
        · exact ⟨[], m, data, taken, by rwa [List.append_nil], hpart, hleft⟩
        · obtain ⟨m', k', hstep, -, hsends', htotal⟩ := hnext hleft
          obtain ⟨more, m'', data', taken', hm'', hend⟩ :=
            ih (hm.partSent hpart hleft hstep) hsends' (by omega)
          rw [List.append_assoc] at hm''
          exact ⟨data ++ more, m'', data', taken', hm'', hend⟩
  obtain ⟨k, hk⟩ := h.underway hbegin
  rcases hk.line with hheader | ⟨raw, -, hsends⟩
  · obtain ⟨m', hstep, -, hsends⟩ := hk.headerSent hheader
    exact hparts _ (h.headerSent hheader hstep) hsends le_rfl
  · exact hparts _ h ⟨raw, hsends⟩ le_rfl

/-! ## The two loops agree -/

/-- **A content message consists of what its header announces exactly when the border of the window does not
lie inside a byte to escape** and the size has room in the header. The bytes are then those of the escaped
form of the content that is taken from the send buffer, and the rest of the size comes down to zero. -/
theorem framesContent_iff (hbegins : c.BeginsContent) (hstreams : c.StreamsHold) :
    c.FramesContent ↔ FitsWindow (c.peerBufferSize - 2 * headerSize) c.contentReadyForSend := by
  have hsize : c.contentSizeToSend = min (c.peerBufferSize - 2 * headerSize) (escaped c.contentReadyForSend).length :=
    hbegins.size_eq
  have hbeginTotal : c.evaluateConnected.totalContentSizeToSend = c.contentSizeToSend := by
    rw [hbegins.evaluateConnected]
    rfl
  constructor
  · intro h
    have hannounced : c.contentSizeToSend = c.contentSizeToSend % 2 ^ 16 := by
      have hbegin := (h.underway [] _ .begins).size
      rw [hbegins.announcedSize, hbeginTotal] at hbegin
      exact hbegin
    constructor
    · -- the message is completed by whole bytes, none of which ends inside the byte to escape
      intro before byte after hsplit hescaped hborder
      obtain ⟨more, m, data, taken, hm, hpart, hend⟩ := h.completed [] _ .begins
      rcases h.parts _ m data taken hm hpart with ⟨htotal, removed, hcontent, htransmitted⟩
      rw [hend, Nat.zero_add, htransmitted, hbegins.announcedSize, ← hannounced, hsize] at htotal
      have hlong : (escaped before).length + 1 ≤ (escaped c.contentReadyForSend).length := by
        have hunit := length_escapedUnit_pos byte
        rw [hsplit, escaped_append, escaped_cons, List.length_append, List.length_append]
        omega
      rw [← hborder, min_eq_left hlong] at htotal
      exact length_ne_of_straddle (hsplit.symm.trans hcontent) hescaped htotal
    · rw [← hsize, hannounced]
      exact Nat.mod_lt _ (by norm_num)
  · intro hfits
    have hbegin := hbegins.underway hstreams hfits
    constructor
    · intro transmitted m hm
      obtain ⟨k, hk⟩ := hm.underway hbegin
      exact hk.agrees
    · intro transmitted m data taken hm hpart
      obtain ⟨k, hk⟩ := hm.underway hbegin
      exact (hk.taken hpart).1
    · intro transmitted m hm
      exact hm.completed hbegin

/-- The connection after the handshake with a peer whose buffer has room for nine bytes, when content has
been written. -/
def withContent (content : List UInt8) : Connection where
  sendBufferSize := 8
  receiveBufferSize := 16
  receivedDataQueueMaxSize := 16
  minUpdateSize := 4
  contentToReceive := 0
  messageHeader := none
  pendingSendStream := 0
  receivedDataQueue := []
  contentReadyForSend := content
  receiveQueue := []
  state := .connectedIdle
  sendStreamAvailable := false
  observerNotified := false
  peerBufferSize := 9
  accumulatedWindowSizeUpdate := none
  updateInProgress := false
  isEscapeSeen := false
  totalContentSizeToSend := 0
  transmission := none
  allocations := 0
  evaluations := 1
  writer := false
  overlappedSend := false
  overlappedStream := false

theorem streamsHold_withContent {content : List UInt8} : (withContent content).StreamsHold :=
  ⟨⟨(fun h => nomatch h), fun _ => ⟨rfl, rfl⟩, Nat.zero_le 1⟩, rfl⟩

/-- The window ends behind the escaped byte. -/
theorem framesContent_behind_escape : (withContent [1, 0xf9, 2]).FramesContent := by
  refine (framesContent_iff ⟨rfl, rfl, by decide⟩ streamsHold_withContent).mpr ⟨?_, by decide⟩
  intro before byte after hsplit hescaped
  have hsplit : [1, 0xf9, 2] = before ++ byte :: after := hsplit
  rcases before with _ | ⟨first, _ | ⟨second, before⟩⟩
  · decide
  · obtain ⟨rfl, -⟩ := List.cons.inj hsplit
    decide
  · have htail := List.cons.inj hsplit
    obtain rfl := htail.1
    obtain rfl := (List.cons.inj htail.2).1
    have hone : (escapedUnit 1).length = 1 := rfl
    have htwo : (escapedUnit 0xf9).length = 2 := rfl
    simp only [escaped_cons, List.length_append, hone, htwo]
    change _ ≠ 3
    omega

/-- The window ends inside the escaped byte: behind a message of three bytes four are sent. -/
theorem not_framesContent_inside_escape :
    EventSystem.run step (create 8 16 16 4)
      [.sent, .received [sizeResponseRequest, 0, 9], .turn 3, .sent, .requestSendStream 3, .sendStreamAvailable,
        .written [1, 2, 0xf9]] = some (withContent [1, 2, 0xf9]) ∧
      (withContent [1, 2, 0xf9]).BeginsContent ∧ ¬ (withContent [1, 2, 0xf9]).FramesContent := by
  refine ⟨rfl, ⟨rfl, rfl, by decide⟩, fun h => ?_⟩
  have hheader := Message.headerSent (c := withContent [1, 2, 0xf9]) .begins rfl rfl
  have hplain := Message.partSent hheader (.taken rfl rfl) (by decide) rfl
  have hsize := (h.parts _ _ _ _ hplain (.taken rfl rfl)).size
  exact absurd hsize (by decide)

end Connection

end EmbeddedInfra.ConnectionSerial
