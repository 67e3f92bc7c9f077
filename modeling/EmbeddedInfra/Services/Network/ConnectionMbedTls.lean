import EmbeddedInfra.Lib.EventSystem

set_option autoImplicit false

/-! # Sending over TLS

`services::ConnectionMbedTls` collects what its observer writes in a buffer, and passes that to
`mbedtls_ssl_write`, which takes the first bytes of it, or asks for the same call again when something has been sent
or received. What mbedTLS answers, and which of the functions that it was given it calls on the way, is part of an
event.
-/

namespace EmbeddedInfra.MbedTls

open EventSystem

/-! ## The send buffer -/

/-- `BoundedDeque<uint8_t>`: the position of the first byte in its storage, and the bytes. -/
structure SendBuffer where
  start : Nat := 0
  contents : List UInt8 := []
deriving DecidableEq, Repr

namespace SendBuffer

def maxSize : Nat := 2048

/-- `contiguous_range(begin())`: up to the end of the storage. -/
def contiguousRange (b : SendBuffer) : List UInt8 := b.contents.take (maxSize - b.start)

/-- `erase(begin(), begin() + n)` moves the other bytes to the front. -/
def erase (b : SendBuffer) (n : Nat) : SendBuffer := { b with contents := b.contents.drop n }

/-- `insert(end(), ...)` -/
def insert (b : SendBuffer) (range : List UInt8) : SendBuffer := { b with contents := b.contents ++ range }

end SendBuffer

/-! ## The connection -/

/-- mbedTLS sends or receives encrypted data, of some size. -/
inductive SslCallback where
  | sslSend (size : Nat)
  | sslReceive (size : Nat)
deriving DecidableEq, Repr

/-- What `mbedtls_ssl_handshake` and `mbedtls_ssl_write` return. -/
inductive TlsResult where
  | success (n : Nat)
  | want
  | failure
deriving DecidableEq, Repr

structure TlsCall where
  result : TlsResult
  callbacks : List SslCallback := []
deriving DecidableEq, Repr

/-- The sending half, with the actions that are scheduled. `streamWriter` is the number of bytes written through the
stream that is granted. What mbedTLS has `accepted` and what has been `written` are kept; `refused` is a write that has
to be repeated, and `changed` says that another one came in its place. -/
structure ConnectionMbedTls where
  sendBuffer : SendBuffer := {}
  streamWriter : Option Nat := none
  requestedSendSize : Nat := 0
  initialHandshake : Bool := true
  encryptedSendWriter : Bool := false
  encryptedSendStreamSize : Nat := 0
  encryptedRequested : Bool := true
  flushScheduled : Bool := false
  trySendScheduled : Nat := 0
  grantScheduled : Nat := 0
  closed : Bool := false
  accepted : List UInt8 := []
  written : List UInt8 := []
  refused : Option (List UInt8) := none
  changed : Bool := false
  aborted : Bool := false
deriving DecidableEq, Repr

namespace ConnectionMbedTls

def tryAllocateSendStream (s : ConnectionMbedTls) : ConnectionMbedTls :=
  if s.streamWriter.isSome then { s with aborted := true }
  else if s.requestedSendSize ≤ SendBuffer.maxSize - s.sendBuffer.contents.length then
    { s with grantScheduled := s.grantScheduled + 1, requestedSendSize := 0 }
  else s

/-- `SslSend` and `SslReceive` -/
def callback (s : ConnectionMbedTls) : SslCallback → ConnectionMbedTls
  | .sslSend size =>
      if s.encryptedSendWriter && s.encryptedSendStreamSize != 0 then
        let sent := min size s.encryptedSendStreamSize
        { s with encryptedSendStreamSize := s.encryptedSendStreamSize - sent
                 flushScheduled := s.flushScheduled || sent != 0 }
      else s
  | .sslReceive size => if size = 0 then s else { s with trySendScheduled := s.trySendScheduled + 1 }

/-- A range is passed to `mbedtls_ssl_write`, which had refused one. -/
def pass (s : ConnectionMbedTls) (range : List UInt8) : ConnectionMbedTls :=
  if s.refused.isSome && s.refused != some range then { s with changed := true } else s

/-- The end of `TrySend` -/
def afterSend (s : ConnectionMbedTls) : ConnectionMbedTls :=
  if s.requestedSendSize ≠ 0 then s.tryAllocateSendStream else s

/-- What `TrySend` does with the answer of `mbedtls_ssl_write`: whether it goes on, and its state. `none` for an
answer that mbedTLS does not give. -/
def written? (s : ConnectionMbedTls) (range : List UInt8) : TlsResult → Option (Bool × ConnectionMbedTls)
  | .want => some (false, { s with refused := some range })
  | .failure => some (false, { s with encryptedSendWriter := false, closed := true })
  | .success n =>
      if 1 ≤ n ∧ n ≤ range.length then
        let s := { s with sendBuffer := s.sendBuffer.erase n, accepted := s.accepted ++ range.take n, refused := none }
        some (if n < range.length then (false, s.afterSend) else (true, s))
      else none

/-- The same for `mbedtls_ssl_handshake`. -/
def handshaken? (s : ConnectionMbedTls) : TlsResult → Option (Bool × ConnectionMbedTls)
  | .want => some (false, s)
  | .failure => some (false, { s with encryptedSendWriter := false, closed := true })
  | .success _ => some (true, { s with initialHandshake := false })

/-- One turn of the loop of `TrySend` -/
def turn (s : ConnectionMbedTls) (call : TlsCall) : Option (Bool × ConnectionMbedTls) :=
  if s.initialHandshake then (call.callbacks.foldl callback s).handshaken? call.result
  else
    let range := s.sendBuffer.contiguousRange
    (call.callbacks.foldl callback (s.pass range)).written? range call.result

/-- `TrySend`, with the answers that mbedTLS gives. -/
def trySend : List TlsCall → ConnectionMbedTls → Option ConnectionMbedTls
  | [], s => if s.initialHandshake || !s.sendBuffer.contents.isEmpty then none else some s.afterSend
  | call :: calls, s =>
      if s.initialHandshake || !s.sendBuffer.contents.isEmpty then
        match s.turn call with
        | some (true, s) => trySend calls s
        | some (false, s) => if calls.isEmpty then some s else none
        | none => none
      else none

end ConnectionMbedTls

/-- What the observer, the connection below and the event dispatcher do. A call of `TrySend` has the answers of
mbedTLS. -/
inductive Event where
  | requestSendStream (sendSize : Nat)
  | sendStreamGranted
  | insert (range : List UInt8)
  | streamReleased (calls : List TlsCall)
  | encryptedSendStreamAvailable (calls : List TlsCall)
  | scheduledTrySend (calls : List TlsCall)
  | flush (maxSendStreamSize : Nat)
  /-- `mbedtls_ssl_read` calls the functions that it was given. -/
  | dataReceived (callbacks : List SslCallback)
deriving DecidableEq, Repr

open ConnectionMbedTls in
/-- `none` for what cannot happen: a stream is requested when there is none, and no more is written than `Available`
says. -/
def step (s : ConnectionMbedTls) (e : Event) : Option ConnectionMbedTls :=
  if s.closed || s.aborted then none
  else
    match e with
    | .requestSendStream sendSize =>
        if s.requestedSendSize = 0 ∧ s.streamWriter = none ∧ s.grantScheduled = 0 ∧ 0 < sendSize ∧
            sendSize ≤ SendBuffer.maxSize then
          some { s with requestedSendSize := sendSize }.tryAllocateSendStream
        else none
    | .sendStreamGranted =>
        if 0 < s.grantScheduled then
          if s.streamWriter.isSome then some { s with aborted := true }
          else some { s with grantScheduled := s.grantScheduled - 1, streamWriter := some 0 }
        else none
    | .insert range =>
        match s.streamWriter with
        | some sent =>
            if range.length ≤ SendBuffer.maxSize - sent then
              if s.sendBuffer.contents.length + range.length ≤ SendBuffer.maxSize then
                some { s with sendBuffer := s.sendBuffer.insert range, written := s.written ++ range,
                              streamWriter := some (sent + range.length) }
              else some { s with aborted := true }
            else none
        | none => none
    | .streamReleased calls =>
        match s.streamWriter with
        | some sent =>
            -- the destructor of the stream; after it another one can be granted
            (if sent ≠ 0 then trySend calls s else if calls.isEmpty then some s else none).map fun s =>
              { s with streamWriter := none }
        | none => none
    | .encryptedSendStreamAvailable calls =>
        if s.encryptedRequested then trySend calls { s with encryptedSendWriter := true, encryptedRequested := false }
        else none
    | .scheduledTrySend calls =>
        if 0 < s.trySendScheduled then trySend calls { s with trySendScheduled := s.trySendScheduled - 1 } else none
    | .flush maxSendStreamSize =>
        if s.flushScheduled then
          some { s with flushScheduled := false, encryptedSendWriter := false, encryptedRequested := true,
                        encryptedSendStreamSize := maxSendStreamSize }
        else none
    | .dataReceived callbacks => some (callbacks.foldl callback s)

/-- The connection when `InitTls` has requested a stream. -/
def ConnectionMbedTls.initial (maxSendStreamSize : Nat) : ConnectionMbedTls :=
  { encryptedSendStreamSize := maxSendStreamSize }

/-! ## What is promised -/

/-- **No plaintext is lost**: a write that was refused is repeated as it was, the buffer has room for what is written,
and what mbedTLS has accepted and what is in the buffer are what was written. -/
structure ConnectionMbedTls.KeepsPlaintext (s : ConnectionMbedTls) : Prop where
  unchanged : s.changed = false
  fits : s.sendBuffer.contents.length ≤ SendBuffer.maxSize ∧ s.aborted = false
  bytes : s.accepted ++ s.sendBuffer.contents = s.written

/-- What is written fits in the buffer, and nothing is written while a write has to be repeated. -/
def Orderly (s : ConnectionMbedTls) : Event → Prop
  | .insert range => s.sendBuffer.contents.length + range.length ≤ SendBuffer.maxSize ∧ (s.refused ≠ none → range = [])
  | _ => True

/-! ## The invariant -/

/-- The bytes in the buffer begin at the start of its storage; a write that was refused was all of them. -/
structure Inv (s : ConnectionMbedTls) : Prop where
  keeps : s.KeepsPlaintext
  start : s.sendBuffer.start = 0
  refused : ∀ range, s.refused = some range → range = s.sendBuffer.contents
  requested : s.requestedSendSize ≠ 0 → s.streamWriter = none ∧ s.grantScheduled = 0
  granted : s.grantScheduled ≠ 0 → s.grantScheduled = 1 ∧ s.streamWriter = none

variable {s s' : ConnectionMbedTls}

/-- The buffer is passed as a whole. -/
theorem Inv.contiguousRange_eq (h : Inv s) : s.sendBuffer.contiguousRange = s.sendBuffer.contents := by
  rw [SendBuffer.contiguousRange, h.start, Nat.sub_zero, List.take_of_length_le h.keeps.fits.1]

/-- What mbedTLS does on its way does not concern the plaintext. -/
theorem Inv.callback (h : Inv s) (c : SslCallback) : Inv (s.callback c) := by
  cases c with
  | sslSend size =>
      simp only [ConnectionMbedTls.callback]
      split
      · exact { h with keeps := { h.keeps with } }
      · exact h
  | sslReceive size =>
      simp only [ConnectionMbedTls.callback]
      split
      · exact h
      · exact { h with keeps := { h.keeps with } }

theorem Inv.callbacks (h : Inv s) (cs : List SslCallback) : Inv (cs.foldl ConnectionMbedTls.callback s) := by
  induction cs generalizing s with
  | nil => exact h
  | cons c cs ih => exact ih (h.callback c)

theorem callbacks_sendBuffer (cs : List SslCallback) (s : ConnectionMbedTls) :
    (cs.foldl ConnectionMbedTls.callback s).sendBuffer = s.sendBuffer := by
  induction cs generalizing s with
  | nil => rfl
  | cons c cs ih =>
      rw [List.foldl_cons, ih]
      cases c <;> simp only [ConnectionMbedTls.callback] <;> split <;> rfl

theorem Inv.pass (h : Inv s) : s.pass s.sendBuffer.contents = s := by
  rw [ConnectionMbedTls.pass, if_neg]
  cases hrefused : s.refused with
  | none => simp
  | some range => simp [h.refused range hrefused]

theorem Inv.tryAllocateSendStream (h : Inv s) (hrequested : s.requestedSendSize ≠ 0) : Inv s.tryAllocateSendStream := by
  obtain ⟨hwriter, hgrant⟩ := h.requested hrequested
  rw [ConnectionMbedTls.tryAllocateSendStream, hwriter]
  simp only [Option.isSome_none, Bool.false_eq_true, if_false]
  split
  · refine ⟨{ h.keeps with }, h.start, h.refused, by simp, ?_⟩
    exact fun _ => ⟨by simp [hgrant], rfl⟩
  · exact h

theorem Inv.afterSend (h : Inv s) : Inv s.afterSend := by
  rw [ConnectionMbedTls.afterSend]
  split
  case isTrue hrequested => exact h.tryAllocateSendStream hrequested
  case isFalse => exact h

/-- A write is answered. -/
theorem Inv.written? {result : TlsResult} {continues : Bool} (h : Inv s)
    (hwritten : s.written? s.sendBuffer.contents result = some (continues, s')) : Inv s' := by
  cases result with
  | want =>
      cases hwritten
      refine { h with keeps := { h.keeps with }, refused := ?_ }
      intro range hrange
      cases hrange
      rfl
  | failure =>
      cases hwritten
      exact { h with keeps := { h.keeps with } }
  | success n =>
      simp only [ConnectionMbedTls.written?, Option.ite_none_right_eq_some, Option.some.injEq] at hwritten
      obtain ⟨⟨-, hn⟩, hresult⟩ := hwritten
      have hsent : Inv { s with sendBuffer := s.sendBuffer.erase n,
                                accepted := s.accepted ++ s.sendBuffer.contents.take n, refused := none } := by
        refine { h with keeps := ⟨h.keeps.unchanged, ⟨?_, h.keeps.fits.2⟩, ?_⟩, refused := by nofun }
        · show (s.sendBuffer.contents.drop n).length ≤ _
          rw [List.length_drop]
          exact le_trans (Nat.sub_le _ _) h.keeps.fits.1
        · show (s.accepted ++ s.sendBuffer.contents.take n) ++ s.sendBuffer.contents.drop n = _
          rw [List.append_assoc, List.take_append_drop]
          exact h.keeps.bytes
      split at hresult
      · cases hresult
        exact hsent.afterSend
      · cases hresult
        exact hsent

theorem Inv.turn {call : TlsCall} {continues : Bool} (h : Inv s) (hturn : s.turn call = some (continues, s')) : Inv s' := by
  rw [ConnectionMbedTls.turn] at hturn
  split at hturn
  · have hcalled := h.callbacks call.callbacks
    cases hresult : call.result <;> rw [hresult] at hturn <;> cases hturn
    · exact { hcalled with keeps := { hcalled.keeps with } }
    · exact hcalled
    · exact { hcalled with keeps := { hcalled.keeps with } }
  · have hcalled := h.callbacks call.callbacks
    simp only [h.contiguousRange_eq, h.pass] at hturn
    rw [← callbacks_sendBuffer call.callbacks s] at hturn
    exact hcalled.written? hturn

/-- **The loop** of `TrySend` -/
theorem Inv.trySend {calls : List TlsCall} (h : Inv s) (hsend : ConnectionMbedTls.trySend calls s = some s') : Inv s' := by
  induction calls generalizing s with
  | nil =>
      simp only [ConnectionMbedTls.trySend, Option.ite_none_left_eq_some, Option.some.injEq] at hsend
      rw [← hsend.2]
      exact h.afterSend
  | cons call calls ih =>
      simp only [ConnectionMbedTls.trySend, Option.ite_none_right_eq_some] at hsend
      obtain ⟨-, hsend⟩ := hsend
      cases hturn : s.turn call with
      | none => simp [hturn] at hsend
      | some found =>
          obtain ⟨continues, m⟩ := found
          have hm := h.turn hturn
          cases continues with
          | true =>
              simp only [hturn] at hsend
              exact ih hm hsend
          | false =>
              simp only [hturn, Option.ite_none_right_eq_some, Option.some.injEq] at hsend
              rw [← hsend.2]
              exact hm

/-! ## Runs -/

theorem Inv.step {e : Event} (h : Inv s) (horderly : Orderly s e) (hstep : step s e = some s') : Inv s' := by
  simp only [MbedTls.step, Option.ite_none_left_eq_some] at hstep
  obtain ⟨-, hstep⟩ := hstep
  cases e with
  | requestSendStream sendSize =>
      simp only [Option.ite_none_right_eq_some, Option.some.injEq] at hstep
      obtain ⟨⟨-, hwriter, hgrant, hpos, -⟩, rfl⟩ := hstep
      refine Inv.tryAllocateSendStream ?_ (Nat.ne_of_gt hpos)
      exact ⟨{ h.keeps with }, h.start, h.refused, fun _ => ⟨hwriter, hgrant⟩, h.granted⟩
  | sendStreamGranted =>
      simp only [Option.ite_none_right_eq_some] at hstep
      obtain ⟨hscheduled, hstep⟩ := hstep
      obtain ⟨hone, hwriter⟩ := h.granted (Nat.ne_of_gt hscheduled)
      rw [hwriter] at hstep
      simp only [Option.isSome_none, Bool.false_eq_true, if_false, Option.some.injEq] at hstep
      rw [← hstep]
      refine ⟨{ h.keeps with }, h.start, h.refused, ?_, ?_⟩
      · intro hrequested
        exact absurd (h.requested hrequested).2 (Nat.ne_of_gt hscheduled)
      · intro hmore
        exact absurd (by simp [hone]) hmore
  | insert range =>
      obtain ⟨hroom, hrefused⟩ := horderly
      cases hwriter : s.streamWriter with
      | none => simp [hwriter] at hstep
      | some sent =>
          simp only [hwriter, Option.ite_none_right_eq_some, if_pos hroom, Option.some.injEq] at hstep
          obtain ⟨-, rfl⟩ := hstep
          have hnone : s.requestedSendSize = 0 := by
            by_contra hrequested
            cases hwriter.symm.trans (h.requested hrequested).1
          have hgrant : s.grantScheduled = 0 := by
            by_contra hgranted
            cases hwriter.symm.trans (h.granted hgranted).2
          refine ⟨⟨h.keeps.unchanged, ⟨?_, h.keeps.fits.2⟩, ?_⟩, h.start, ?_, ?_, ?_⟩
          · show (s.sendBuffer.contents ++ range).length ≤ _
            rw [List.length_append]
            exact hroom
          · show s.accepted ++ (s.sendBuffer.contents ++ range) = s.written ++ range
            rw [← List.append_assoc, h.keeps.bytes]
          · intro refused hsome
            show refused = s.sendBuffer.contents ++ range
            rw [hrefused (by rw [show s.refused = some refused from hsome]; nofun), List.append_nil]
            exact h.refused refused hsome
          · exact fun hrequested => absurd hnone hrequested
          · exact fun hgranted => absurd hgrant hgranted
  | streamReleased calls =>
      cases hwriter : s.streamWriter with
      | none => simp [hwriter] at hstep
      | some sent =>
          simp only [hwriter, Option.map_eq_some_iff] at hstep
          obtain ⟨m, hsend, rfl⟩ := hstep
          have hm : Inv m := by
            split at hsend
            · exact h.trySend hsend
            · simp only [Option.ite_none_right_eq_some, Option.some.injEq] at hsend
              rw [← hsend.2]
              exact h
          refine ⟨{ hm.keeps with }, hm.start, hm.refused, ?_, ?_⟩
          · exact fun hrequested => ⟨rfl, (hm.requested hrequested).2⟩
          · exact fun hgranted => ⟨(hm.granted hgranted).1, rfl⟩
  | encryptedSendStreamAvailable calls | scheduledTrySend calls =>
      simp only [Option.ite_none_right_eq_some] at hstep
      refine Inv.trySend ?_ hstep.2
      exact { h with keeps := { h.keeps with } }
  | flush maxSendStreamSize =>
      simp only [Option.ite_none_right_eq_some, Option.some.injEq] at hstep
      rw [← hstep.2]
      exact { h with keeps := { h.keeps with } }
  | dataReceived callbacks =>
      cases hstep
      exact h.callbacks callbacks

theorem inv_initial (maxSendStreamSize : Nat) : Inv (ConnectionMbedTls.initial maxSendStreamSize) := by
  refine ⟨⟨rfl, ⟨Nat.zero_le _, rfl⟩, rfl⟩, rfl, by nofun, ?_, ?_⟩
  · exact fun hrequested => absurd rfl hrequested
  · exact fun hgranted => absurd rfl hgranted

/-- **No plaintext is lost** in a run in which what is written fits in the buffer, and nothing is written while a write
has to be repeated. -/
theorem keepsPlaintext_of_run {maxSendStreamSize : Nat} {events : List Event}
    (horderly : Along step Orderly (ConnectionMbedTls.initial maxSendStreamSize) events)
    (hrun : run step (ConnectionMbedTls.initial maxSendStreamSize) events = some s) : s.KeepsPlaintext :=
  (run_invariant_along Inv (fun _ _ _ hs he hstep => hs.step he hstep) horderly hrun
    (inv_initial maxSendStreamSize)).keeps

/-- Two bytes are written and refused, and sent when there is an encrypted stream again. -/
def resending : List Event :=
  [.encryptedSendStreamAvailable [⟨.success 0, [.sslSend 100]⟩], .requestSendStream 2, .sendStreamGranted, .insert [1, 2],
    .streamReleased [⟨.want, [.sslSend 50]⟩], .flush 100, .encryptedSendStreamAvailable [⟨.success 2, [.sslSend 50]⟩]]

def resent : ConnectionMbedTls :=
  { initialHandshake := false, encryptedSendWriter := true, encryptedSendStreamSize := 50, encryptedRequested := false,
    flushScheduled := true, accepted := [1, 2], written := [1, 2] }

theorem keepsPlaintext_of_run_resending :
    run step (ConnectionMbedTls.initial 100) resending = some resent ∧ resent.KeepsPlaintext := by
  have hrun : run step (ConnectionMbedTls.initial 100) resending = some resent := by decide
  refine ⟨hrun, keepsPlaintext_of_run ?_ hrun⟩
  refine along_cons rfl trivial (along_cons rfl trivial (along_cons rfl trivial (along_cons rfl ⟨by decide, by decide⟩
    (along_cons rfl trivial (along_cons rfl trivial (along_cons rfl trivial trivial))))))

/-- A byte is written and refused, and another stream is granted. -/
def refusing : List Event :=
  [.encryptedSendStreamAvailable [⟨.success 0, [.sslSend 100]⟩], .requestSendStream 1, .sendStreamGranted, .insert [1],
    .streamReleased [⟨.want, [.sslSend 50]⟩], .requestSendStream 1, .sendStreamGranted]

def refusedByte : ConnectionMbedTls :=
  { sendBuffer := ⟨0, [1]⟩, streamWriter := some 0, initialHandshake := false, encryptedSendWriter := true,
    encryptedRequested := false, flushScheduled := true, written := [1], refused := some [1] }

theorem run_refusing : run step (ConnectionMbedTls.initial 100) refusing = some refusedByte := by decide

theorem step_insert_refusedByte {range : List UInt8} (hrange : range.length = 2048) :
    step refusedByte (.insert range) = some { refusedByte with aborted := true } := by
  simp [step, refusedByte, SendBuffer.maxSize, hrange]

/-- The write is repeated with another byte; and the stream has room for as many bytes as the buffer can have, which
has one. -/
theorem not_keepsPlaintext_of_run :
    (∃ s, run step (ConnectionMbedTls.initial 100) (refusing ++ [.insert [2], .streamReleased [⟨.success 2, []⟩]]) = some s ∧
      ¬ s.KeepsPlaintext) ∧
    ∃ s, run step (ConnectionMbedTls.initial 100) (refusing ++ [.insert (List.replicate 2048 0)]) = some s ∧
      ¬ s.KeepsPlaintext := by
  constructor
  · refine ⟨_, run_append.mpr ⟨refusedByte, run_refusing, rfl⟩, ?_⟩
    intro h
    exact absurd h.unchanged (by decide)
  · have hinsert := step_insert_refusedByte (List.length_replicate : (List.replicate 2048 (0 : UInt8)).length = 2048)
    refine ⟨_, run_append.mpr ⟨refusedByte, run_refusing, run_cons.mpr ⟨_, hinsert, rfl⟩⟩, ?_⟩
    intro h
    exact absurd h.fits.2 (by decide)

end EmbeddedInfra.MbedTls
