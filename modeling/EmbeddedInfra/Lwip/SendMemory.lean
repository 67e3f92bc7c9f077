import EmbeddedInfra.Lib.CircularSlots
import EmbeddedInfra.Lib.EventSystem
import Mathlib.Data.List.GetD

set_option autoImplicit false

/-! # The send memory of a connection

`ConnectionLwIp` hands the memory of its streams to `tcp_write`, which does not copy it: `lwIP` transmits,
and transmits again, from that memory until it is acknowledged. Blocks are taken from `sendMemoryPool`
when a stream is allocated, and given back when a stream is released without data or when the `sent`
callback has acknowledged all bytes of a block.
-/

namespace EmbeddedInfra.LwIp

/-- A byte of the storage of `sendMemoryPool`: the slot of its block, and its position in the block. -/
abbrev Address := Nat × Nat

abbrev Memory := Address → UInt8

/-- `ConstByteRange`, inside one block -/
structure ByteRange where
  block : Nat
  offset : Nat
  size : Nat
deriving DecidableEq

namespace ByteRange

/-- What `clear` leaves. -/
def none : ByteRange := ⟨0, 0, 0⟩

def empty (r : ByteRange) : Bool := r.size = 0

def addresses (r : ByteRange) : List Address := (List.range r.size).map fun i => (r.block, r.offset + i)

def read (memory : Memory) (r : ByteRange) : List UInt8 := r.addresses.map memory

/-- `pop_front` -/
def popFront (r : ByteRange) (size : Nat) : ByteRange := ⟨r.block, r.offset + size, r.size - size⟩

end ByteRange

namespace Memory

/-- `emplace_back` constructs a block, and sets all its bytes to zero. -/
def construct (memory : Memory) (block : Nat) : Memory := fun a => if a.1 = block then 0 else memory a

/-- `std::copy` into a block -/
def copy (memory : Memory) (block position : Nat) (data : List UInt8) : Memory := fun a =>
  if a.1 = block ∧ position ≤ a.2 ∧ a.2 < position + data.length then data.getD (a.2 - position) 0 else memory a

end Memory

/-- The configuration of `lwIP`, and the maximum segment size of the connection, a `u16_t`. -/
structure Config where
  tcpSndQueueLen : Nat
  tcpMss : Nat
  mss : UInt16

/-- `StreamWriterLwIp`; `content` is what its user has written. -/
structure StreamWriter where
  streamRange : ByteRange
  offset : Nat
  content : List UInt8
deriving DecidableEq

def StreamWriter.processed (w : StreamWriter) : ByteRange := ⟨w.streamRange.block, w.streamRange.offset, w.offset⟩

/-- The bytes with those from a position on replaced. -/
def overwritten (bytes : List UInt8) (position : Nat) (data : List UInt8) : List UInt8 :=
  bytes.take position ++ data ++ bytes.drop (position + data.length)

/-- The part of `ConnectionLwIp` that sends, what `lwIP` knows of it, and what its user has written. -/
structure Connection (c : Config) where
  requestedSendSize : Nat
  /-- The ranges of the scheduled events that emplace a stream. -/
  scheduled : List ByteRange
  streamWriter : Option StreamWriter
  sendBuffer : ByteRange
  retrySendTimer : Bool
  sendBuffers : List ByteRange
  sendMemoryPool : CircularSlots c.tcpSndQueueLen
  memory : Memory
  /-- All bytes that `tcp_write` accepted. -/
  accepted : List UInt8
  acknowledged : Nat
  /-- Where `lwIP` reads the accepted bytes that are not acknowledged. -/
  transmitting : List Address
  /-- What the streams that have been released contained. -/
  written : List UInt8

inductive Event
  | requestSendStream (size : Nat)
  /-- The scheduled event is executed: the observer gets its stream. -/
  | sendStreamAvailable
  /-- `Insert` in the stream -/
  | insert (data : List UInt8)
  /-- `Overwrite` of what is in the stream -/
  | overwrite (marker : Nat) (data : List UInt8)
  /-- The stream is released; `accepts` is the answer of `tcp_write`, if it is called. -/
  | release (accepts : Bool)
  /-- The retry timer expires. -/
  | retry (accepts : Bool)
  /-- The callback `sent` -/
  | sent (len : Nat)
deriving DecidableEq

/-- The bytes that the event acknowledges. -/
def Event.acknowledges : Event → Nat
  | .sent len => len
  | _ => 0

namespace Connection

variable {c : Config}

def initial (c : Config) : Connection c :=
  ⟨0, [], none, .none, false, [], .empty _, fun _ => 0, [], 0, [], []⟩

/-- `tcp_write` of the first bytes of a buffer, without copying -/
def tcpWrite (s : Connection c) (buffer : ByteRange) (size : Nat) : Connection c :=
  { s with
    accepted := s.accepted ++ (buffer.read s.memory).take size
    transmitting := s.transmitting ++ buffer.addresses.take size }

/-- `SendBuffer`; no connection is left when the deque is full. -/
def doSendBuffer (s : Connection c) (buffer : ByteRange) (accepts : Bool) : Option (Connection c) :=
  if accepts then
    if s.sendBuffers.length = c.tcpSndQueueLen then none
    else
      -- `tcp_write` takes the size as a `u16_t`
      let s := s.tcpWrite buffer (buffer.size % 65536)
      some { s with sendBuffers := s.sendBuffers ++ [buffer], sendBuffer := .none }
  else some { s with sendBuffer := buffer, retrySendTimer := true }

/-- The new block at the back of the pool is scheduled for a stream. -/
def scheduleStream (s : Connection c) (pool : CircularSlots c.tcpSndQueueLen) : Connection c :=
  { s with
    sendMemoryPool := pool
    memory := s.memory.construct s.sendMemoryPool.next
    scheduled := s.scheduled ++ [⟨s.sendMemoryPool.next, 0, min c.tcpMss s.requestedSendSize⟩]
    requestedSendSize := 0 }

def tryAllocateSendStream (s : Connection c) : Option (Connection c) :=
  if s.streamWriter.isSome then none
  else if s.sendBuffers.length ≠ c.tcpSndQueueLen ∧ s.sendMemoryPool.full = false ∧ s.sendBuffer.empty = true then
    s.sendMemoryPool.pushBack.map s.scheduleStream
  else some s

def requestSendStream (s : Connection c) (sendSize : Nat) : Option (Connection c) :=
  if s.requestedSendSize = 0 ∧ sendSize ≠ 0 ∧ sendSize ≤ c.mss.toNat then
    { s with requestedSendSize := sendSize }.tryAllocateSendStream
  else none

/-- The event that `TryAllocateSendStream` schedules. -/
def sendStreamAvailable (s : Connection c) : Option (Connection c) :=
  match s.scheduled, s.streamWriter with
  | range :: rest, .none => some { s with scheduled := rest, streamWriter := some ⟨range, 0, []⟩ }
  | _, _ => none

/-- `ByteOutputStreamWriter::Insert` -/
def insert (s : Connection c) (data : List UInt8) : Option (Connection c) :=
  s.streamWriter.map fun w =>
    let data := data.take (w.streamRange.size - w.offset)
    { s with
      memory := s.memory.copy w.streamRange.block (w.streamRange.offset + w.offset) data
      streamWriter := some { w with offset := w.offset + data.length, content := w.content ++ data } }

/-- The user copies bytes into the range that `ByteOutputStreamWriter::Overwrite` returns. -/
def overwrite (s : Connection c) (marker : Nat) (data : List UInt8) : Option (Connection c) :=
  s.streamWriter.map fun w =>
    { s with
      memory := s.memory.copy w.streamRange.block (w.streamRange.offset + marker) data
      streamWriter := some { w with content := overwritten w.content marker data } }

/-- `~StreamWriterLwIp` -/
def release (s : Connection c) (accepts : Bool) : Option (Connection c) :=
  s.streamWriter.bind fun w =>
    let s := { s with streamWriter := none, written := s.written ++ w.content }
    -- the block of the stream was the last one to be emplaced
    if w.processed.empty then s.sendMemoryPool.popBack.map fun pool => { s with sendMemoryPool := pool }
    else s.doSendBuffer w.processed accepts

/-- The retry timer calls `SendBuffer`. -/
def retry (s : Connection c) (accepts : Bool) : Option (Connection c) :=
  if s.retrySendTimer then { s with retrySendTimer := false }.doSendBuffer s.sendBuffer accepts else none

/-- The loop of `Sent`; nothing is left when a deque is empty. -/
def releaseSent {n : Nat} : List ByteRange → CircularSlots n → Nat → Option (List ByteRange × CircularSlots n)
  | sendBuffers, pool, 0 => some (sendBuffers, pool)
  | [], _, _ + 1 => none
  | front :: rest, pool, len + 1 =>
      -- `len` is a `u16_t`, and the size is cast to it
      if front.size ≤ len + 1 then pool.popFront.bind fun pool => releaseSent rest pool (len + 1 - front.size % 65536)
      else some (front.popFront (len + 1) :: rest, pool)

/-- The connection after the loop of `Sent`. -/
def acknowledge (s : Connection c) (len : Nat) (left : List ByteRange × CircularSlots c.tcpSndQueueLen) : Connection c :=
  { s with
    sendBuffers := left.1
    sendMemoryPool := left.2
    acknowledged := s.acknowledged + len
    transmitting := s.transmitting.drop len }

def sent (s : Connection c) (len : Nat) : Option (Connection c) :=
  (releaseSent s.sendBuffers s.sendMemoryPool len).bind fun left =>
    if s.requestedSendSize ≠ 0 then (s.acknowledge len left).tryAllocateSendStream else some (s.acknowledge len left)

/-- One event; no connection is left when an assertion fails. -/
def step (s : Connection c) : Event → Option (Connection c)
  | .requestSendStream size => s.requestSendStream size
  | .sendStreamAvailable => s.sendStreamAvailable
  | .insert data => s.insert data
  | .overwrite marker data => s.overwrite marker data
  | .release accepts => s.release accepts
  | .retry accepts => s.retry accepts
  | .sent len => s.sent len

/-- The buffer that waits for its retry. -/
def refused (s : Connection c) : List ByteRange := if s.sendBuffer.empty then [] else [s.sendBuffer]

/-- The stream that is being allocated or filled. -/
def allocated (s : Connection c) : List ByteRange :=
  s.scheduled ++ s.streamWriter.toList.map StreamWriter.streamRange

/-- What the user and `lwIP` promise: one request at a time, a stream is used while it is there, and no
more is acknowledged than has been accepted. -/
def Permitted (s : Connection c) : Event → Prop
  | .requestSendStream size =>
      s.requestedSendSize = 0 ∧ s.allocated = [] ∧ 0 < size ∧ size ≤ c.mss.toNat
  | .sendStreamAvailable => s.scheduled ≠ []
  | .insert _ => s.streamWriter.isSome
  | .overwrite marker data => s.streamWriter.any fun w => marker + data.length ≤ w.offset
  | .release _ => s.streamWriter.isSome
  | .retry _ => s.retrySendTimer = true
  | .sent len => len < 65536 ∧ len ≤ s.transmitting.length

instance (s : Connection c) : DecidablePred s.Permitted
  | .requestSendStream _ => inferInstanceAs (Decidable (_ ∧ _ ∧ _ ∧ _))
  | .sendStreamAvailable => inferInstanceAs (Decidable (_ ≠ _))
  | .insert _ => inferInstanceAs (Decidable (_ = true))
  | .overwrite _ _ => inferInstanceAs (Decidable (_ = true))
  | .release _ => inferInstanceAs (Decidable (_ = true))
  | .retry _ => inferInstanceAs (Decidable (_ = true))
  | .sent _ => inferInstanceAs (Decidable (_ ∧ _))

/-- The memory of a connection is kept until it is acknowledged. -/
structure Kept (s : Connection c) : Prop where
  /-- The pool holds exactly these blocks, in this order. -/
  blocks : s.sendMemoryPool.occupied = (s.sendBuffers ++ s.refused ++ s.allocated).map ByteRange.block
  /-- At most one stream is being allocated or filled. -/
  single : s.allocated.length ≤ 1
  /-- No range extends beyond its block. -/
  inside : ∀ r ∈ s.sendBuffers ++ s.refused ++ s.allocated, r.offset + r.size ≤ c.tcpMss
  /-- `lwIP` reads from the buffers of `sendBuffers`, in order. -/
  reads : s.transmitting = s.sendBuffers.flatMap ByteRange.addresses
  /-- A block that `lwIP` reads from is not used for another buffer or stream. -/
  notReused : ∀ a ∈ s.transmitting, ∀ r ∈ s.refused ++ s.allocated, r.block ≠ a.1
  /-- `lwIP` finds there what it accepted. -/
  unaltered : s.transmitting.map s.memory = s.accepted.drop s.acknowledged
  /-- The accepted bytes are the written bytes; those of the refused buffer are still to be accepted. -/
  inOrder : s.written = s.accepted ++ s.refused.flatMap (ByteRange.read s.memory)

/-- The pending request gets its stream, unless there is no room or a buffer waits for its retry. -/
def Served (before after : Connection c) : Prop :=
  before.requestedSendSize ≠ 0 →
    (after.requestedSendSize = 0 ∧
      ∃ block, after.scheduled = [⟨block, 0, min c.tcpMss before.requestedSendSize⟩]) ∨
    (after.requestedSendSize = before.requestedSendSize ∧
      (after.sendBuffers.length = c.tcpSndQueueLen ∨ after.sendMemoryPool.full = true ∨ after.refused ≠ []))

end Connection

/-! ## Memory -/

namespace Memory

/-- Nothing changes outside a block. -/
def Outside (block : Nat) (memory memory' : Memory) : Prop := ∀ a : Address, a.1 ≠ block → memory' a = memory a

theorem construct_outside (memory : Memory) (block : Nat) : Outside block memory (memory.construct block) := by
  intro a ha
  exact if_neg ha

theorem copy_outside (memory : Memory) (block position : Nat) (data : List UInt8) :
    Outside block memory (memory.copy block position data) := by
  intro a ha
  exact if_neg fun h => ha h.1

theorem Outside.map_eq {block : Nat} {memory memory' : Memory} (h : Outside block memory memory')
    {addresses : List Address} (ha : ∀ a ∈ addresses, a.1 ≠ block) : addresses.map memory' = addresses.map memory :=
  List.map_congr_left fun a hmem => h a (ha a hmem)

end Memory

variable {r : ByteRange} {a : Address}

namespace ByteRange

@[simp] theorem length_addresses (r : ByteRange) : r.addresses.length = r.size := by
  simp [addresses]

@[simp] theorem length_read (memory : Memory) (r : ByteRange) : (r.read memory).length = r.size := by
  simp [read]

theorem block_of_mem (h : a ∈ r.addresses) : a.1 = r.block := by
  obtain ⟨i, -, rfl⟩ := List.mem_map.mp h
  rfl

theorem empty_iff : r.empty = true ↔ r.size = 0 := by
  simp [empty]

/-- The addresses of a range are those of its first bytes, and those that `pop_front` leaves. -/
theorem drop_addresses (r : ByteRange) (size : Nat) : (r.popFront size).addresses = r.addresses.drop size := by
  apply List.ext_getElem
  · simp [popFront]
  · intro i _ _
    simp [addresses, popFront, Nat.add_assoc]

theorem getElem_read (memory : Memory) (r : ByteRange) (i : Nat) (h : i < (r.read memory).length) :
    (r.read memory)[i] = memory (r.block, r.offset + i) := by
  simp [read, addresses]

/-- Bytes that are copied behind the end of a range extend it. -/
theorem read_copy_append (memory : Memory) (block offset size : Nat) (data : List UInt8) :
    read (memory.copy block (offset + size) data) ⟨block, offset, size + data.length⟩
      = read memory ⟨block, offset, size⟩ ++ data := by
  apply List.ext_getElem
  · simp
  · intro i hi _
    rw [length_read] at hi
    rw [getElem_read]
    dsimp only at hi
    -- the copy starts where the range ends: its old bytes are outside
    by_cases hlt : i < size
    · rw [List.getElem_append_left (by simpa using hlt), getElem_read]
      exact if_neg (by dsimp only; omega)
    · rw [List.getElem_append_right (by simpa using hlt)]
      simp only [length_read, Memory.copy, true_and]
      rw [if_pos (by omega), show offset + i - (offset + size) = i - size by omega,
        List.getD_eq_getElem _ _ (by omega)]

/-- Bytes that are copied into a range replace those that were there. -/
theorem read_copy_inside (memory : Memory) (r : ByteRange) (position : Nat) (data : List UInt8)
    (h : position + data.length ≤ r.size) :
    r.read (memory.copy r.block (r.offset + position) data) = overwritten (r.read memory) position data := by
  apply List.ext_getElem
  · simp [overwritten]
    omega
  · intro i hi _
    rw [length_read] at hi
    rw [getElem_read]
    simp only [overwritten, Memory.copy, List.getElem_append, List.getElem_take, List.getElem_drop, getElem_read,
      List.length_append, List.length_take, length_read, true_and]
    split_ifs with h1 h2 h3 h3
    all_goals try omega
    · rw [List.getD_eq_getElem _ _ (by omega)]
      congr 1
      omega
    · rfl
    · rw [Nat.min_eq_left (by omega)]
      congr 3
      omega

end ByteRange

/-! ## The invariant -/

namespace Connection

variable {c : Config} {s : Connection c} {w : StreamWriter} {buffer : ByteRange}
  {accepts : Bool} {s' : Connection c}

/-- What holds between the events. -/
structure Inv (s : Connection c) : Prop where
  blocks : s.sendMemoryPool.occupied = (s.sendBuffers ++ s.refused ++ s.allocated).map ByteRange.block
  single : s.allocated.length ≤ 1
  separate : s.refused = [] ∨ s.allocated = []
  pending : s.requestedSendSize ≠ 0 → s.allocated = []
  inside : ∀ r ∈ s.sendBuffers ++ s.refused ++ s.allocated, r.offset + r.size ≤ c.tcpMss
  short : ∀ r ∈ s.refused ++ s.allocated, r.size ≤ c.mss.toNat
  requested : s.requestedSendSize ≤ c.mss.toNat
  filled : ∀ w, s.streamWriter = some w → w.offset ≤ w.streamRange.size ∧ w.processed.read s.memory = w.content
  timer : s.retrySendTimer = true ↔ s.refused ≠ []
  reads : s.transmitting = s.sendBuffers.flatMap ByteRange.addresses
  counted : s.acknowledged ≤ s.accepted.length
  unaltered : s.transmitting.map s.memory = s.accepted.drop s.acknowledged
  inOrder : s.written = s.accepted ++ s.refused.flatMap (ByteRange.read s.memory)

theorem initial_inv : Inv (initial c) where
  blocks := rfl
  single := Nat.zero_le 1
  separate := .inl rfl
  pending _ := rfl
  inside := by simp [initial, refused, allocated, ByteRange.none, ByteRange.empty]
  short := by simp [initial, refused, allocated, ByteRange.none, ByteRange.empty]
  requested := Nat.zero_le _
  filled := by simp [initial]
  timer := by simp [initial, refused, ByteRange.none, ByteRange.empty]
  reads := rfl
  counted := Nat.zero_le _
  unaltered := rfl
  inOrder := rfl

/-- The blocks that `lwIP` reads from are those of `sendBuffers`. -/
theorem Inv.exists_buffer (h : Inv s) (ha : a ∈ s.transmitting) :
    a.1 ∈ s.sendBuffers.map ByteRange.block := by
  rw [h.reads] at ha
  obtain ⟨r, hr, har⟩ := List.mem_flatMap.mp ha
  rw [ByteRange.block_of_mem har]
  exact List.mem_map_of_mem hr

theorem Inv.notReused (h : Inv s) (ha : a ∈ s.transmitting)
    (hr : r ∈ s.refused ++ s.allocated) : r.block ≠ a.1 := by
  have hnodup := s.sendMemoryPool.nodup_occupied
  rw [h.blocks, List.append_assoc, List.map_append] at hnodup
  intro heq
  refine List.disjoint_of_nodup_append hnodup (h.exists_buffer ha) ?_
  rw [← heq]
  exact List.mem_map_of_mem hr

theorem Inv.refused_eq (h : Inv s) (hr : r ∈ s.allocated) : s.refused = [] := by
  rcases h.separate with hrefused | hallocated
  · exact hrefused
  · rw [hallocated] at hr
    cases hr

theorem Inv.kept (h : Inv s) : Kept s where
  blocks := h.blocks
  single := h.single
  inside := h.inside
  reads := h.reads
  notReused _ ha _ hr := h.notReused ha hr
  unaltered := h.unaltered
  inOrder := h.inOrder

/-! ## Allocating a stream -/

theorem refused_of_empty (h : s.sendBuffer.empty = true) : s.refused = [] := if_pos h

theorem streamWriter_of_allocated (h : s.allocated = []) : s.scheduled = [] ∧ s.streamWriter = none := by
  have h' := List.append_eq_nil_iff.mp h
  refine ⟨h'.1, ?_⟩
  cases hw : s.streamWriter with
  | none => rfl
  | some w =>
      rw [hw] at h'
      cases h'.2

theorem streamWriter_ne_some (h : s.allocated = []) (w : StreamWriter) : s.streamWriter ≠ some w := by
  rw [(streamWriter_of_allocated h).2]
  exact (Option.some_ne_none w).symm

/-- A new block is none of those that are in use. -/
theorem Inv.construct_map (h : Inv s) (hroom : s.sendMemoryPool.count < c.tcpSndQueueLen) :
    s.transmitting.map (s.memory.construct s.sendMemoryPool.next) = s.transmitting.map s.memory := by
  apply (Memory.construct_outside s.memory s.sendMemoryPool.next).map_eq
  intro a ha heq
  apply s.sendMemoryPool.next_notMem hroom
  rw [h.blocks, List.append_assoc, List.map_append, ← heq]
  exact List.mem_append_left _ (h.exists_buffer ha)

theorem allocated_scheduleStream (h : s.allocated = []) (pool : CircularSlots c.tcpSndQueueLen) :
    (s.scheduleStream pool).allocated = [⟨s.sendMemoryPool.next, 0, min c.tcpMss s.requestedSendSize⟩] := by
  obtain ⟨hscheduled, hwriter⟩ := streamWriter_of_allocated h
  simp [allocated, scheduleStream, hscheduled, hwriter]

theorem scheduleStream_inv (h : Inv s) (hnone : s.allocated = []) (hempty : s.refused = [])
    {pool : CircularSlots c.tcpSndQueueLen} (hroom : s.sendMemoryPool.count < c.tcpSndQueueLen)
    (hpush : s.sendMemoryPool.pushBack = some pool) : Inv (s.scheduleStream pool) := by
  have hrefused : (s.scheduleStream pool).refused = [] := hempty
  have hallocated := allocated_scheduleStream hnone pool
  have hblocks := h.blocks
  have hinside := h.inside
  have hinOrder := h.inOrder
  rw [hnone, hempty, List.append_nil, List.append_nil] at hblocks hinside
  rw [hempty] at hinOrder
  constructor
  case blocks =>
    rw [hrefused, hallocated, List.append_nil, List.map_append]
    exact (CircularSlots.occupied_of_pushBack hpush).trans (congrArg (· ++ _) hblocks)
  case single => simp [hallocated]
  case separate => exact .inl hrefused
  case pending => exact fun hn => absurd rfl hn
  case inside =>
    rw [hrefused, hallocated, List.append_nil]
    intro r hr
    rcases List.mem_append.mp hr with hr | hr
    · exact hinside r hr
    · rw [List.mem_singleton.mp hr]
      simp
  case short =>
    rw [hrefused, hallocated]
    intro r hr
    rw [List.mem_singleton.mp hr]
    exact (Nat.min_le_right _ _).trans h.requested
  case requested => exact Nat.zero_le _
  case filled =>
    intro w hw
    exact absurd hw (streamWriter_ne_some hnone w)
  case timer => exact h.timer
  case reads => exact h.reads
  case counted => exact h.counted
  case unaltered => exact (h.construct_map hroom).trans h.unaltered
  case inOrder =>
    rw [hrefused]
    exact hinOrder

theorem empty_of_refused (h : s.refused = []) : s.sendBuffer.empty = true := by
  by_contra hne
  have : s.refused = [s.sendBuffer] := if_neg hne
  rw [h] at this
  cases this

theorem tryAllocateSendStream_spec (h : Inv s) (hnone : s.allocated = []) :
    ∃ s', s.tryAllocateSendStream = some s' ∧ Inv s' ∧ Served s s' := by
  obtain ⟨hscheduled, hwriter⟩ := streamWriter_of_allocated hnone
  unfold tryAllocateSendStream
  rw [hwriter, if_neg (by simp)]
  split
  next hroom =>
      have hcount := CircularSlots.full_eq_false.mp hroom.2.1
      obtain ⟨pool, hpush⟩ := CircularSlots.pushBack_isSome hcount
      rw [hpush]
      refine ⟨_, rfl, scheduleStream_inv h hnone (refused_of_empty hroom.2.2) hcount hpush, ?_⟩
      intro _
      refine .inl ⟨rfl, s.sendMemoryPool.next, ?_⟩
      simp [scheduleStream, hscheduled]
  next hroom =>
      refine ⟨s, rfl, h, ?_⟩
      intro _
      refine .inr ⟨rfl, ?_⟩
      by_contra hn
      simp only [not_or, Bool.not_eq_true, not_not] at hn
      exact hroom ⟨hn.1, hn.2.1, empty_of_refused hn.2.2⟩

theorem requestSendStream_spec (h : Inv s) {size : Nat} (hp : Permitted s (.requestSendStream size)) :
    ∃ s', s.requestSendStream size = some s' ∧ Inv s' := by
  obtain ⟨hidle, hnone, hsize, hmss⟩ := hp
  unfold requestSendStream
  rw [if_pos ⟨hidle, by omega, hmss⟩]
  have hrequested : Inv { s with requestedSendSize := size } :=
    { h with pending := fun _ => hnone, requested := hmss }
  obtain ⟨s', hs', hinv, -⟩ := tryAllocateSendStream_spec hrequested hnone
  exact ⟨s', hs', hinv⟩

/-! ## Filling a stream -/

/-- The connection while its stream is given to the observer, or while the observer writes in it. -/
def writing (s : Connection c) (scheduled : List ByteRange) (w : StreamWriter) (memory : Memory) : Connection c :=
  { s with scheduled := scheduled, streamWriter := some w, memory := memory }

/-- Writing in the block of the stream changes none of the other blocks. -/
theorem Inv.writing (h : Inv s) {scheduled : List ByteRange} {memory : Memory}
    (hsame : s.allocated = scheduled ++ [w.streamRange])
    (houtside : Memory.Outside w.streamRange.block s.memory memory) (hoffset : w.offset ≤ w.streamRange.size)
    (hcontent : w.processed.read memory = w.content) : Inv (s.writing scheduled w memory) := by
  have hallocated : (s.writing scheduled w memory).allocated = s.allocated := hsame.symm
  have hmem : w.streamRange ∈ s.allocated := by simp [hsame]
  have hrefused := h.refused_eq hmem
  have hinOrder := h.inOrder
  rw [hrefused] at hinOrder
  constructor
  case blocks =>
    rw [hallocated]
    exact h.blocks
  case single =>
    rw [hallocated]
    exact h.single
  case separate => exact .inl hrefused
  case pending =>
    rw [hallocated]
    exact h.pending
  case inside =>
    rw [hallocated]
    exact h.inside
  case short =>
    rw [hallocated]
    exact h.short
  case requested => exact h.requested
  case filled =>
    intro w' hw'
    cases hw'
    exact ⟨hoffset, hcontent⟩
  case timer => exact h.timer
  case reads => exact h.reads
  case counted => exact h.counted
  case unaltered =>
    refine (houtside.map_eq ?_).trans h.unaltered
    intro a ha
    exact (h.notReused ha (List.mem_append_right _ hmem)).symm
  case inOrder =>
    have hrefused' : (s.writing scheduled w memory).refused = [] := hrefused
    rw [hrefused']
    exact hinOrder

theorem sendStreamAvailable_spec (h : Inv s) (hp : Permitted s .sendStreamAvailable) :
    ∃ s', s.sendStreamAvailable = some s' ∧ Inv s' := by
  have hsingle := h.single
  cases hscheduled : s.scheduled with
  | nil => exact absurd hscheduled hp
  | cons range rest =>
      cases hwriter : s.streamWriter with
      | some w =>
          simp [allocated, hscheduled, hwriter] at hsingle
      | none =>
          have hrest : rest = [] := by
            simpa [allocated, hscheduled, hwriter] using hsingle
          refine ⟨s.writing rest ⟨range, 0, []⟩ s.memory, ?_, ?_⟩
          · simp [sendStreamAvailable, hscheduled, hwriter, Connection.writing]
          · refine h.writing ?_ (fun _ _ => rfl) (Nat.zero_le _) rfl
            simp [allocated, hscheduled, hwriter, hrest]

/-- While there is a stream none is scheduled. -/
theorem Inv.allocated_eq (h : Inv s) (hw : s.streamWriter = some w) :
    s.scheduled = [] ∧ s.allocated = [w.streamRange] := by
  have hsingle := h.single
  have hscheduled : s.scheduled = [] := by
    simpa [allocated, hw] using hsingle
  refine ⟨hscheduled, ?_⟩
  simp [allocated, hscheduled, hw]

theorem insert_spec (h : Inv s) {data : List UInt8} (hp : Permitted s (.insert data)) :
    ∃ s', s.insert data = some s' ∧ Inv s' := by
  obtain ⟨w, hw⟩ := Option.isSome_iff_exists.mp hp
  obtain ⟨hscheduled, hallocated⟩ := h.allocated_eq hw
  obtain ⟨hoffset, hcontent⟩ := h.filled w hw
  let inserted := data.take (w.streamRange.size - w.offset)
  have hlength : inserted.length ≤ w.streamRange.size - w.offset := List.length_take_le _ _
  refine ⟨s.writing [] { w with offset := w.offset + inserted.length, content := w.content ++ inserted }
    (s.memory.copy w.streamRange.block (w.streamRange.offset + w.offset) inserted), ?_, ?_⟩
  · simp [Connection.insert, hw, Connection.writing, hscheduled, inserted]
  · refine h.writing hallocated (Memory.copy_outside _ _ _ _) ?_ ?_
    · dsimp only
      omega
    · rw [← hcontent]
      exact ByteRange.read_copy_append _ _ _ _ _

theorem overwrite_spec (h : Inv s) {marker : Nat} {data : List UInt8} (hp : Permitted s (.overwrite marker data)) :
    ∃ s', s.overwrite marker data = some s' ∧ Inv s' := by
  obtain ⟨w, hw, hmarker⟩ := (Option.any_eq_true _ _).mp hp
  obtain ⟨hscheduled, hallocated⟩ := h.allocated_eq hw
  obtain ⟨hoffset, hcontent⟩ := h.filled w hw
  refine ⟨s.writing [] { w with content := overwritten w.content marker data }
    (s.memory.copy w.streamRange.block (w.streamRange.offset + marker) data), ?_, ?_⟩
  · simp [Connection.overwrite, hw, Connection.writing, hscheduled]
  · refine h.writing hallocated (Memory.copy_outside _ _ _ _) hoffset ?_
    rw [← hcontent]
    exact ByteRange.read_copy_inside s.memory w.processed marker data (of_decide_eq_true hmarker)

/-! ## Sending a buffer -/

/-- The buffer that is sent next is the last one of the pool, and its bytes are the last ones written. -/
structure Sending (s : Connection c) (buffer : ByteRange) : Prop where
  blocks : s.sendMemoryPool.occupied = (s.sendBuffers ++ [buffer]).map ByteRange.block
  allocated : s.allocated = []
  inside : ∀ r ∈ s.sendBuffers ++ [buffer], r.offset + r.size ≤ c.tcpMss
  notEmpty : buffer.empty = false
  short : buffer.size ≤ c.mss.toNat
  requested : s.requestedSendSize ≤ c.mss.toNat
  timer : s.retrySendTimer = false
  reads : s.transmitting = s.sendBuffers.flatMap ByteRange.addresses
  counted : s.acknowledged ≤ s.accepted.length
  unaltered : s.transmitting.map s.memory = s.accepted.drop s.acknowledged
  inOrder : s.written = s.accepted ++ buffer.read s.memory

/-- The pool has a block for every buffer, so there is room for this one. -/
theorem Sending.room (h : Sending s buffer) : s.sendBuffers.length ≠ c.tcpSndQueueLen := by
  have hlength := s.sendMemoryPool.length_occupied
  have hfits := s.sendMemoryPool.fits
  rw [h.blocks, List.length_map, List.length_append, List.length_singleton] at hlength
  omega

/-- The connection after `tcp_write` has accepted the buffer. -/
def bufferAccepted (s : Connection c) (buffer : ByteRange) : Connection c :=
  { s with
    accepted := s.accepted ++ buffer.read s.memory
    transmitting := s.transmitting ++ buffer.addresses
    sendBuffers := s.sendBuffers ++ [buffer]
    sendBuffer := .none }

theorem bufferAccepted_inv (h : Sending s buffer) : Inv (s.bufferAccepted buffer) := by
  have hallocated : (s.bufferAccepted buffer).allocated = [] := h.allocated
  have hrefused : (s.bufferAccepted buffer).refused = [] := rfl
  constructor
  case blocks =>
    rw [hallocated, hrefused, List.append_nil, List.append_nil]
    exact h.blocks
  case single => simp [hallocated]
  case separate => exact .inl hrefused
  case pending => exact fun _ => hallocated
  case inside =>
    rw [hallocated, hrefused, List.append_nil, List.append_nil]
    exact h.inside
  case short => simp [hallocated, hrefused]
  case requested => exact h.requested
  case filled =>
    intro w hw
    exact absurd hw (streamWriter_ne_some hallocated w)
  case timer =>
    rw [hrefused]
    exact iff_of_false (Bool.eq_false_iff.mp h.timer) (by simp)
  case reads => simp [bufferAccepted, h.reads]
  case counted => exact h.counted.trans (by simp [bufferAccepted])
  case unaltered =>
    calc (s.transmitting ++ buffer.addresses).map s.memory
        = s.accepted.drop s.acknowledged ++ buffer.read s.memory := by
          rw [List.map_append, h.unaltered]
          rfl
      _ = (s.accepted ++ buffer.read s.memory).drop s.acknowledged :=
          (List.drop_append_of_le_length h.counted).symm
  case inOrder =>
    rw [hrefused, List.flatMap_nil, List.append_nil]
    exact h.inOrder

/-- The connection after `tcp_write` has refused the buffer. -/
def bufferRefused (s : Connection c) (buffer : ByteRange) : Connection c :=
  { s with sendBuffer := buffer, retrySendTimer := true }

theorem bufferRefused_inv (h : Sending s buffer) : Inv (s.bufferRefused buffer) := by
  have hallocated : (s.bufferRefused buffer).allocated = [] := h.allocated
  have hrefused : (s.bufferRefused buffer).refused = [buffer] := if_neg (Bool.eq_false_iff.mp h.notEmpty)
  constructor
  case blocks =>
    rw [hallocated, hrefused, List.append_nil]
    exact h.blocks
  case single => simp [hallocated]
  case separate => exact .inr hallocated
  case pending => exact fun _ => hallocated
  case inside =>
    rw [hallocated, hrefused, List.append_nil]
    exact h.inside
  case short =>
    intro r hr
    rw [hallocated, hrefused, List.append_nil] at hr
    rw [List.mem_singleton.mp hr]
    exact h.short
  case requested => exact h.requested
  case filled =>
    intro w hw
    exact absurd hw (streamWriter_ne_some hallocated w)
  case timer =>
    rw [hrefused]
    exact iff_of_true rfl (by simp)
  case reads => exact h.reads
  case counted => exact h.counted
  case unaltered => exact h.unaltered
  case inOrder =>
    rw [hrefused, List.flatMap_singleton]
    exact h.inOrder

theorem doSendBuffer_spec (h : Sending s buffer) (accepts : Bool) :
    ∃ s', s.doSendBuffer buffer accepts = some s' ∧ Inv s' := by
  unfold doSendBuffer
  cases accepts with
  | true =>
      have hshort := h.short
      have hmss := c.mss.toNat_lt
      rw [if_pos rfl, if_neg h.room, Nat.mod_eq_of_lt (by omega)]
      refine ⟨s.bufferAccepted buffer, ?_, bufferAccepted_inv h⟩
      unfold tcpWrite
      rw [List.take_of_length_le (by simp), List.take_of_length_le (by simp)]
      rfl
  | false => exact ⟨_, rfl, bufferRefused_inv h⟩

/-- The connection when the destructor of the stream runs. -/
def withoutStream (s : Connection c) (w : StreamWriter) : Connection c :=
  { s with streamWriter := none, written := s.written ++ w.content }

/-- The block of the stream is the last one of the pool. -/
theorem Inv.last_block (h : Inv s) (hw : s.streamWriter = some w) :
    s.sendMemoryPool.occupied = s.sendBuffers.map ByteRange.block ++ [w.streamRange.block] := by
  obtain ⟨-, hallocated⟩ := h.allocated_eq hw
  have hblocks := h.blocks
  rw [h.refused_eq (hallocated ▸ List.mem_singleton_self _), hallocated, List.append_nil, List.map_append] at hblocks
  exact hblocks

theorem Inv.sending (h : Inv s) (hw : s.streamWriter = some w) (hdata : w.processed.empty = false) :
    Sending (s.withoutStream w) w.processed := by
  obtain ⟨hscheduled, hallocated⟩ := h.allocated_eq hw
  obtain ⟨hoffset, hcontent⟩ := h.filled w hw
  have hmem : w.streamRange ∈ s.allocated := hallocated ▸ List.mem_singleton_self _
  have hrefused := h.refused_eq hmem
  constructor
  case blocks =>
    rw [List.map_append]
    exact h.last_block hw
  case allocated => simp [Connection.allocated, withoutStream, hscheduled]
  case inside =>
    intro r hr
    rcases List.mem_append.mp hr with hr | hr
    · exact h.inside r (List.mem_append_left _ (List.mem_append_left _ hr))
    · have := h.inside w.streamRange (List.mem_append_right _ hmem)
      rw [List.mem_singleton.mp hr]
      dsimp only [StreamWriter.processed]
      omega
  case notEmpty => exact hdata
  case short => exact hoffset.trans (h.short w.streamRange (List.mem_append_right _ hmem))
  case requested => exact h.requested
  case timer =>
    apply Bool.eq_false_iff.mpr
    intro htimer
    exact h.timer.mp htimer hrefused
  case reads => exact h.reads
  case counted => exact h.counted
  case unaltered => exact h.unaltered
  case inOrder =>
    have hinOrder := h.inOrder
    rw [hrefused, List.flatMap_nil, List.append_nil] at hinOrder
    exact congrArg₂ (· ++ ·) hinOrder hcontent.symm

/-- A stream without data leaves nothing behind. -/
theorem Inv.released (h : Inv s) (hw : s.streamWriter = some w) (hempty : w.processed.empty = true)
    {pool : CircularSlots c.tcpSndQueueLen} (hpool : pool.occupied = s.sendBuffers.map ByteRange.block) :
    Inv { s.withoutStream w with sendMemoryPool := pool } := by
  obtain ⟨hscheduled, hallocated⟩ := h.allocated_eq hw
  have hrefused := h.refused_eq (hallocated ▸ List.mem_singleton_self _)
  have hnothing : w.content = [] := by
    apply List.eq_nil_of_length_eq_zero
    rw [← (h.filled w hw).2, ByteRange.length_read]
    exact ByteRange.empty_iff.mp hempty
  have hallocated' : Connection.allocated { s.withoutStream w with sendMemoryPool := pool } = [] := by
    simp [Connection.allocated, withoutStream, hscheduled]
  have hrefused' : Connection.refused { s.withoutStream w with sendMemoryPool := pool } = [] := hrefused
  constructor
  case blocks =>
    rw [hallocated', hrefused', List.append_nil, List.append_nil]
    exact hpool
  case single => simp [hallocated']
  case separate => exact .inl hrefused'
  case pending => exact fun _ => hallocated'
  case inside =>
    rw [hallocated', hrefused', List.append_nil, List.append_nil]
    intro r hr
    exact h.inside r (List.mem_append_left _ (List.mem_append_left _ hr))
  case short => simp [hallocated', hrefused']
  case requested => exact h.requested
  case filled =>
    intro w' hw'
    cases hw'
  case timer => exact h.timer
  case reads => exact h.reads
  case counted => exact h.counted
  case unaltered => exact h.unaltered
  case inOrder =>
    rw [hrefused']
    have hinOrder := h.inOrder
    rw [hrefused] at hinOrder
    rw [← List.append_nil s.written, ← hnothing] at hinOrder
    exact hinOrder

theorem release_spec (h : Inv s) (hp : Permitted s (.release accepts)) :
    ∃ s', s.release accepts = some s' ∧ Inv s' := by
  obtain ⟨w, hw⟩ := Option.isSome_iff_exists.mp hp
  unfold release
  rw [hw, Option.bind_some]
  dsimp only
  split
  next hempty =>
      obtain ⟨pool, hpop, hpool⟩ := CircularSlots.popBack_of_concat (h.last_block hw)
      rw [hpop]
      exact ⟨_, rfl, h.released hw hempty hpool⟩
  next hdata => exact doSendBuffer_spec (h.sending hw (Bool.eq_false_iff.mpr hdata)) accepts

theorem retry_spec (h : Inv s) (hp : Permitted s (.retry accepts)) :
    ∃ s', s.retry accepts = some s' ∧ Inv s' := by
  have hwaits := h.timer.mp hp
  have hallocated := h.separate.resolve_left hwaits
  have hnotEmpty : s.sendBuffer.empty = false := by
    apply Bool.eq_false_iff.mpr
    intro hempty
    exact hwaits (refused_of_empty hempty)
  have hrefused : s.refused = [s.sendBuffer] := if_neg (Bool.eq_false_iff.mp hnotEmpty)
  have hblocks := h.blocks
  have hinside := h.inside
  have hinOrder := h.inOrder
  rw [hallocated, hrefused, List.append_nil] at hblocks hinside
  rw [hrefused, List.flatMap_singleton] at hinOrder
  unfold retry
  rw [if_pos (show s.retrySendTimer = true from hp)]
  apply doSendBuffer_spec
  exact
    { blocks := hblocks
      allocated := hallocated
      inside := hinside
      notEmpty := hnotEmpty
      short := h.short s.sendBuffer (by simp [hrefused])
      requested := h.requested
      timer := rfl
      reads := h.reads
      counted := h.counted
      unaltered := h.unaltered
      inOrder := hinOrder }

/-! ## Acknowledgements -/

/-- The loop of `Sent` gives back the blocks of the buffers that are acknowledged completely, and shortens
the buffer that is acknowledged in part. -/
theorem releaseSent_spec {n : Nat} (sendBuffers : List ByteRange) (pool : CircularSlots n) (len : Nat)
    (others : List Nat) (hpool : pool.occupied = sendBuffers.map ByteRange.block ++ others) (hshort : len < 65536)
    (hlen : len ≤ (sendBuffers.flatMap ByteRange.addresses).length) :
    ∃ left pool', releaseSent sendBuffers pool len = some (left, pool') ∧
      pool'.occupied = left.map ByteRange.block ++ others ∧
      left.flatMap ByteRange.addresses = (sendBuffers.flatMap ByteRange.addresses).drop len ∧
      ∀ m, (∀ r ∈ sendBuffers, r.offset + r.size ≤ m) → ∀ r ∈ left, r.offset + r.size ≤ m := by
  -- a turn takes the front away, with its part of the bytes that are acknowledged
  induction sendBuffers generalizing pool len with
  | nil =>
      -- nothing is left to be acknowledged, so that the deque is not popped when it is empty
      have hzero : len = 0 := by simpa using hlen
      subst hzero
      exact ⟨[], pool, rfl, hpool, rfl, fun _ h => h⟩
  | cons front rest ih =>
      rw [List.flatMap_cons, List.length_append, ByteRange.length_addresses] at hlen
      cases len with
      | zero => exact ⟨front :: rest, pool, rfl, hpool, rfl, fun _ h => h⟩
      | succ len =>
          unfold releaseSent
          rw [List.flatMap_cons]
          split
          next hall =>
              obtain ⟨pool', hpop, hpool'⟩ := CircularSlots.popFront_of_cons hpool
              rw [hpop, Option.bind_some, Nat.mod_eq_of_lt (by omega)]
              obtain ⟨left, pool'', hrest, hblocks, haddresses, hinside⟩ :=
                ih pool' (len + 1 - front.size) hpool' (by omega) (by omega)
              refine ⟨left, pool'', hrest, hblocks, ?_, ?_⟩
              · have hfront : front.addresses.drop (len + 1) = [] :=
                  List.drop_of_length_le (front.length_addresses.trans_le hall)
                rw [haddresses, List.drop_append, hfront, ByteRange.length_addresses, List.nil_append]
              · intro m hm
                exact hinside m fun r hr => hm r (List.mem_cons_of_mem _ hr)
          next hpart =>
              refine ⟨_, _, rfl, hpool, ?_, ?_⟩
              · rw [List.flatMap_cons, ByteRange.drop_addresses, List.drop_append_of_le_length]
                rw [ByteRange.length_addresses]
                omega
              · intro m hm r hr
                rcases List.mem_cons.mp hr with rfl | hr
                · have := hm front List.mem_cons_self
                  dsimp only [ByteRange.popFront]
                  omega
                · exact hm r (List.mem_cons_of_mem _ hr)

theorem sent_spec (h : Inv s) {len : Nat} (hp : Permitted s (.sent len)) :
    ∃ s', s.sent len = some s' ∧ Inv s' ∧ Served s s' := by
  obtain ⟨hshort, hlen⟩ := hp
  have hblocks := h.blocks
  rw [List.append_assoc, List.map_append] at hblocks
  have hcounted : len ≤ s.accepted.length - s.acknowledged := by
    rwa [← List.length_drop, ← h.unaltered, List.length_map]
  rw [h.reads] at hlen
  obtain ⟨left, pool, hrun, hpool, haddresses, hinside⟩ :=
    releaseSent_spec s.sendBuffers s.sendMemoryPool len _ hblocks hshort hlen
  have hacknowledged : Inv (s.acknowledge len (left, pool)) := by
    refine { h with blocks := ?_, inside := ?_, reads := ?_, counted := ?_, unaltered := ?_ }
    · rw [List.append_assoc, List.map_append]
      exact hpool
    · intro r hr
      rw [List.append_assoc] at hr
      rcases List.mem_append.mp hr with hr | hr
      · refine hinside c.tcpMss ?_ r hr
        intro r hr
        exact h.inside r (List.mem_append_left _ (List.mem_append_left _ hr))
      · refine h.inside r ?_
        rw [List.append_assoc]
        exact List.mem_append_right _ hr
    · exact (congrArg (List.drop len) h.reads).trans haddresses.symm
    · have := h.counted
      dsimp only [acknowledge]
      omega
    · calc (s.transmitting.drop len).map s.memory
          = (s.accepted.drop s.acknowledged).drop len := by rw [List.map_drop, h.unaltered]
        _ = s.accepted.drop (s.acknowledged + len) := List.drop_drop
  unfold sent
  rw [hrun, Option.bind_some]
  split
  next hpending => exact tryAllocateSendStream_spec hacknowledged (h.pending hpending)
  next hidle => exact ⟨_, rfl, hacknowledged, fun hpending => absurd hpending hidle⟩

/-! ## Runs -/

theorem step_spec (h : Inv s) {e : Event} (hp : Permitted s e) : ∃ s', s.step e = some s' ∧ Inv s' := by
  cases e with
  | requestSendStream size => exact requestSendStream_spec h hp
  | sendStreamAvailable => exact sendStreamAvailable_spec h hp
  | insert data => exact insert_spec h hp
  | overwrite marker data => exact overwrite_spec h hp
  | release accepts => exact release_spec h hp
  | retry accepts => exact retry_spec h hp
  | sent len =>
      obtain ⟨s', hs', hinv, -⟩ := sent_spec h hp
      exact ⟨s', hs', hinv⟩

theorem tryAllocateSendStream_acknowledged {s : Connection c} (h : s.tryAllocateSendStream = some s') : s'.acknowledged = s.acknowledged := by
  unfold tryAllocateSendStream at h
  split_ifs at h
  · obtain ⟨pool, -, rfl⟩ := Option.map_eq_some_iff.mp h
    rfl
  · rw [← Option.some.inj h]

theorem doSendBuffer_acknowledged {s : Connection c} (h : s.doSendBuffer buffer accepts = some s') :
    s'.acknowledged = s.acknowledged := by
  unfold doSendBuffer at h
  split_ifs at h <;> rw [← Option.some.inj h]
  rfl

theorem step_acknowledged {s : Connection c} {e : Event} (h : s.step e = some s') : s'.acknowledged = s.acknowledged + e.acknowledges := by
  cases e with
  | requestSendStream size =>
      simp only [step, requestSendStream] at h
      split_ifs at h
      have hsame := tryAllocateSendStream_acknowledged h
      exact hsame
  | sendStreamAvailable =>
      simp only [step, sendStreamAvailable] at h
      split at h
      · rw [← Option.some.inj h]
        rfl
      · cases h
  | insert | overwrite =>
      obtain ⟨w, -, rfl⟩ := Option.map_eq_some_iff.mp h
      rfl
  | release accepts =>
      obtain ⟨w, -, h⟩ := Option.bind_eq_some_iff.mp h
      dsimp only at h
      split_ifs at h
      · obtain ⟨pool, -, rfl⟩ := Option.map_eq_some_iff.mp h
        rfl
      · have hsame := doSendBuffer_acknowledged h
        exact hsame
  | retry accepts =>
      simp only [step, retry] at h
      split_ifs at h
      have hsame := doSendBuffer_acknowledged h
      exact hsame
  | sent len =>
      obtain ⟨left, -, h⟩ := Option.bind_eq_some_iff.mp h
      split_ifs at h
      · exact tryAllocateSendStream_acknowledged h
      · rw [← Option.some.inj h]
        rfl

/-- What is acknowledged is what the `sent` callbacks of the run have said. -/
theorem run_acknowledged {s : Connection c} {events : List Event} (h : EventSystem.run step s events = some s') :
    s'.acknowledged = s.acknowledged + (events.map Event.acknowledges).sum := by
  induction events generalizing s with
  | nil =>
      cases h
      rfl
  | cons e rest ih =>
      obtain ⟨m, hm, hrest⟩ := EventSystem.run_cons.mp h
      rw [ih hrest, step_acknowledged hm, List.map_cons, List.sum_cons, Nat.add_assoc]

/-- **The send memory is kept until it is acknowledged.** In every run in which the user and `lwIP` keep
their promises no assertion fails, no deque is pushed when it is full or popped when it is empty, the pool
holds exactly the blocks that are in use, `lwIP` finds in the memory the bytes that it accepted, which are
the bytes that were written, what is acknowledged is what the `sent` callbacks have said, and a `sent` callback
serves a pending request if there is room. -/
theorem memory_kept_until_acknowledged (c : Config) (events : List Event)
    (hpermitted : EventSystem.Along step Permitted (initial c) events) :
    ∃ s, EventSystem.run step (initial c) events = some s ∧ Kept s ∧
      s.acknowledged = (events.map Event.acknowledges).sum ∧
      ∀ len, Permitted s (.sent len) → ∃ s', s.step (.sent len) = some s' ∧ Served s s' := by
  obtain ⟨s, hrun, hinv⟩ := EventSystem.run_along Inv (fun s e h hp => step_spec h hp) hpermitted initial_inv
  refine ⟨s, hrun, hinv.kept, ?_, ?_⟩
  · rw [run_acknowledged hrun]
    exact Nat.zero_add _
  · intro len hp
    obtain ⟨s', hs', -, hserved⟩ := sent_spec hinv hp
    exact ⟨s', hs', hserved⟩

/-- A buffer is refused and accepted when it is tried again; a request waits until a byte of it is
acknowledged. -/
theorem memory_kept_until_acknowledged_retried :
    ∃ s, EventSystem.run step (initial ⟨2, 4, 4⟩)
        [.requestSendStream 3, .sendStreamAvailable, .insert [1, 2, 3, 4], .release false, .requestSendStream 2,
          .retry false, .retry true, .sent 1, .sendStreamAvailable, .insert [5], .overwrite 0 [6], .release true] = some s ∧
      Kept s ∧ s.acknowledged = 1 ∧
        ∀ len, Permitted s (.sent len) → ∃ s', s.step (.sent len) = some s' ∧ Served s s' := by
  apply memory_kept_until_acknowledged
  repeat refine EventSystem.along_cons rfl (by decide) ?_
  trivial

end Connection

end EmbeddedInfra.LwIp
