import EmbeddedInfra.Infra.Stream.BoundedDequeInputStream

set_option autoImplicit false

/-! # Reading a datagram

`DatagramExchangeLwIP::UdpReader` reads from a chain of packet buffers with one offset. It is compared with
`ByteInputStreamReader` over the bytes of all buffers.

`Extract` copies with a function of lwIP that goes along the chain. The other operations do not: `Empty()` is the wrong
way round, and with it what `Peek` reports; `ExtractContiguousRange` begins at the start of the buffer that the offset
lies in, and goes on behind the last one; `PeekContiguousRange` knows the first buffer alone.
-/

namespace EmbeddedInfra.Streams

inductive DatagramCall
  | reader (c : Call)
  /-- `PeekContiguousRange`, from there on until all the rest has been delivered. -/
  | peekContiguousRange (start : Nat)
deriving DecidableEq

namespace UdpReader

/-- A `pbuf` with those behind it: the bytes of each. -/
abbrev Chain := List (List UInt8)

/-- `buffer->tot_len` -/
def totLen (chain : Chain) : Nat := chain.flatten.length

/-- `bufferOffset` is a `uint16_t`. -/
def moved (r : Reader) (size : Nat) : Reader := { r with offset := (r.offset + size % 2 ^ 16) % 2 ^ 16 }

/-- What `pbuf_copy_partial` copies of a chain: at most so many bytes from an offset on. -/
abbrev CopyPartial := Chain → Nat → Nat → List UInt8

variable (copyPartial : CopyPartial) (chain : Chain)

def available (r : Reader) : Nat := totLen chain - r.offset

def empty (r : Reader) : Bool := available chain r != 0

def extract (r : Reader) (size : Nat) : Option ((List UInt8 × Bool) × Reader) :=
  let ok : Bool := size ≤ available chain r
  let size := min size (available chain r)
  let copied := copyPartial chain (size % 2 ^ 16) r.offset
  if copied.length = size then some ((copied, ok), moved r size) else none

/-- A byte that has not been copied has no value. -/
def peek (r : Reader) : Option (UInt8 × Bool) := do
  let result ← (copyPartial chain 1 r.offset)[0]?
  some (result, !empty chain r)

/-- The loop that looks for the buffer; behind the last one there is none. -/
def bufferAt : Chain → Nat → Option (List UInt8)
  | [], _ => none
  | buffer :: next, offset => if offset ≥ buffer.length then bufferAt next (offset - buffer.length) else some buffer

def extractContiguousRange (r : Reader) (max : Nat) : Option (List UInt8 × Reader) := do
  let currentBuffer ← bufferAt chain r.offset
  let result := currentBuffer.take max
  some (result, moved r result.length)

/-- From a position behind the end of the first buffer, the range would lie outside. -/
def peekContiguousRange (r : Reader) (start : Nat) : Option (List UInt8) := do
  let buffer ← chain.head?
  if r.offset + start ≤ buffer.length then some (buffer.drop (r.offset + start)) else none

def rewind (r : Reader) (marker : Nat) : Reader := { r with offset := r.markers.getD marker 0 % 2 ^ 16 }

end UdpReader

/-- Contiguous ranges, one after the other, until so many bytes have been delivered; the first argument bounds the
calls. -/
def delivered {σ : Type} (contiguous : σ → Nat → Option (List UInt8 × σ)) :
    Nat → Nat → σ → Option (List UInt8 × σ)
  | 0, missing, s => contiguous s missing
  | calls + 1, missing, s => do
      let (range, s) ← contiguous s missing
      if missing ≤ range.length then some (range, s)
      else
        let (later, s) ← delivered contiguous calls (missing - range.length) s
        some (range ++ later, s)

open UdpReader in
def UdpReader.call (copyPartial : CopyPartial) (chain : Chain) (r : Reader) :
    DatagramCall → Option (Delivered × Reader)
  | .reader (.extract size) => do
      let ((data, ok), r) ← extract copyPartial chain r size
      some (.bytes data ok, r)
  | .reader .peek => do
      let (element, ok) ← peek copyPartial chain r
      some (.bytes [element] ok, r)
  | .reader (.extractContiguousRange size) => do
      let (data, r) ← delivered (extractContiguousRange chain) size size r
      some (.bytes data true, r)
  | .peekContiguousRange start => do
      let size := totLen chain - (r.offset + start)
      let (data, _) ← delivered
        (fun start _ => (peekContiguousRange chain r start).map fun range => (range, start + range.length)) size size start
      some (.bytes data true, r)
  | .reader .available => some (.size (available chain r), r)
  | .reader .empty => some (.flag (empty chain r), r)
  | .reader .constructSaveMarker => some (.nothing, r.constructSaveMarker)
  | .reader (.rewind marker) => some (.nothing, rewind r marker)

/-- A call that stays within the data; `Extract` may ask for more, and fail. -/
def WithinDatagram (content : List UInt8) (r : Reader) : DatagramCall → Prop
  | .reader (.extract _) => True
  | .reader c => Within content r c
  | .peekContiguousRange start => r.offset + start ≤ content.length

instance (content : List UInt8) (r : Reader) : (c : DatagramCall) → Decidable (WithinDatagram content r c)
  | .reader (.extract _) => inferInstanceAs (Decidable True)
  | .reader .peek => inferInstanceAs (Decidable (Within content r .peek))
  | .reader (.extractContiguousRange size) => inferInstanceAs (Decidable (Within content r (.extractContiguousRange size)))
  | .reader .available => inferInstanceAs (Decidable True)
  | .reader .empty => inferInstanceAs (Decidable True)
  | .reader .constructSaveMarker => inferInstanceAs (Decidable True)
  | .reader (.rewind marker) => inferInstanceAs (Decidable (Within content r (.rewind marker)))
  | .peekContiguousRange start => inferInstanceAs (Decidable (r.offset + start ≤ content.length))

namespace ByteInputStreamReader

def datagramCall (content : List UInt8) (r : Reader) : DatagramCall → Delivered × Reader
  | .reader c => call content r c
  | .peekContiguousRange start => (.bytes (content.drop (r.offset + start)) true, r)

/-- Calls within the data. -/
def callWithin (content : List UInt8) (r : Reader) (c : DatagramCall) : Option (Delivered × Reader) :=
  if WithinDatagram content r c then some (datagramCall content r c) else none

end ByteInputStreamReader

/-- What a sequence of calls delivers. -/
def trace (call : Reader → DatagramCall → Option (Delivered × Reader)) :
    Reader → List DatagramCall → Option (List Delivered)
  | _, [] => some []
  | r, c :: calls => do
      let (result, r) ← call r c
      let results ← trace call r calls
      some (result :: results)

namespace UdpReader

variable {copyPartial : CopyPartial} {chain : Chain} {r r' : Reader} {c : DatagramCall}

/-- The offset is where a buffer begins. -/
def AtBorder (chain : Chain) (offset : Nat) : Prop := ∃ front back, chain = front ++ back ∧ offset = totLen front

/-- **The condition** of a call. -/
def Condition (chain : Chain) (r : Reader) : DatagramCall → Prop
  | .reader .peek => False
  | .reader .empty => False
  | .reader (.extractContiguousRange size) => r.offset < totLen chain ∧ (size = 0 ∨ AtBorder chain r.offset)
  | .peekContiguousRange _ => ∃ buffer next, chain = buffer :: next ∧ totLen next = 0
  | _ => True

/-! ## Contiguous ranges -/

theorem totLen_append (front back : Chain) : totLen (front ++ back) = totLen front + totLen back := by
  rw [totLen, List.flatten_append, List.length_append, totLen, totLen]

theorem totLen_cons (buffer : List UInt8) (next : Chain) : totLen (buffer :: next) = buffer.length + totLen next := by
  rw [totLen, List.flatten_cons, List.length_append, totLen]

/-- **At the start of a buffer, the next one with bytes is found.** -/
theorem bufferAt_border {front back : Chain} (h : 0 < totLen back) :
    ∃ empties buffer next, back = empties ++ buffer :: next ∧ totLen empties = 0 ∧ buffer ≠ [] ∧
      bufferAt (front ++ back) (totLen front) = some buffer := by
  induction front with
  | nil =>
      -- buffers without bytes are passed over
      induction back with
      | nil => exact absurd h (Nat.lt_irrefl 0)
      | cons buffer next ih =>
          rcases List.eq_nil_or_concat buffer with rfl | ⟨init, last, hlast⟩
          · obtain ⟨empties, buffer, next', hnext, hempties, hne, hfound⟩ := ih h
            refine ⟨[] :: empties, buffer, next', by rw [hnext]; rfl, hempties, hne, ?_⟩
            rw [List.nil_append, bufferAt, if_pos (show totLen [] ≥ ([] : List UInt8).length from Nat.zero_le _)]
            exact hfound
          · have hne : buffer ≠ [] := by simp [hlast]
            refine ⟨[], buffer, next, rfl, rfl, hne, ?_⟩
            rw [List.nil_append, bufferAt, if_neg]
            exact Nat.not_le_of_lt (List.length_pos_iff.mpr hne)
  | cons buffer front ih =>
      obtain ⟨empties, buffer', next, hback, hempties, hne, hfound⟩ := ih
      refine ⟨empties, buffer', next, hback, hempties, hne, ?_⟩
      rw [List.cons_append, bufferAt, totLen_cons, if_pos (Nat.le_add_right _ _), Nat.add_sub_cancel_left]
      exact hfound

theorem bufferAt_isSome {offset : Nat} (h : offset < totLen chain) : ∃ buffer, bufferAt chain offset = some buffer := by
  induction chain generalizing offset with
  | nil => exact absurd h (Nat.not_lt_zero _)
  | cons buffer next ih =>
      rw [totLen_cons] at h
      rw [bufferAt]
      split_ifs with hbehind
      · exact ih (by omega)
      · exact ⟨buffer, rfl⟩

theorem moved_eq {size : Nat} (h : r.offset + size < 2 ^ 16) : moved r size = { r with offset := r.offset + size } := by
  rw [moved, Nat.mod_eq_of_lt (by omega : size < 2 ^ 16), Nat.mod_eq_of_lt h]

theorem delivered_zero (hlt : r.offset < totLen chain) (htotal : totLen chain < 2 ^ 16) :
    delivered (extractContiguousRange chain) 0 0 r = some ([], r) := by
  obtain ⟨buffer, hbuffer⟩ := bufferAt_isSome hlt
  simp only [delivered, extractContiguousRange, hbuffer, Option.bind_eq_bind, Option.bind_some, List.take_zero,
    List.length_nil, @moved_eq r 0 (by omega)]
  rfl

/-- **From the start of a buffer on, contiguous ranges deliver the bytes that come next.** -/
theorem delivered_border {calls missing : Nat} (hcalls : missing ≤ calls) (htotal : totLen chain < 2 ^ 16)
    (hborder : AtBorder chain r.offset) (hlt : r.offset < totLen chain)
    (hmissing : r.offset + missing ≤ totLen chain) :
    delivered (extractContiguousRange chain) calls missing r =
      some ((chain.flatten.drop r.offset).take missing, { r with offset := r.offset + missing }) := by
  induction calls generalizing missing r with
  | zero =>
      obtain rfl : missing = 0 := Nat.le_zero.mp hcalls
      exact delivered_zero hlt htotal
  | succ calls ih =>
      obtain ⟨front, back, rfl, hoffset⟩ := hborder
      rw [totLen_append] at hlt hmissing htotal
      obtain ⟨empties, buffer, next, rfl, hempties, hne, hfound⟩ :=
        @bufferAt_border front back (by omega)
      have hpos := List.length_pos_iff.mpr hne
      have hback : totLen (empties ++ buffer :: next) = buffer.length + totLen next := by
        rw [totLen_append, hempties, Nat.zero_add, totLen_cons]
      have hnil : empties.flatten = [] := List.eq_nil_of_length_eq_zero hempties
      have hrest : (front ++ (empties ++ buffer :: next)).flatten.drop r.offset = buffer ++ next.flatten := by
        rw [List.flatten_append, hoffset, totLen, List.drop_left, List.flatten_append, hnil, List.nil_append,
          List.flatten_cons]
      have hmoved : moved r (buffer.take missing).length =
          { r with offset := r.offset + (buffer.take missing).length } := by
        refine moved_eq ?_
        rw [List.length_take]
        omega
      rw [← hoffset] at hfound
      rw [delivered, extractContiguousRange, hfound, hrest]
      simp only [Option.bind_eq_bind, Option.bind_some, hmoved]
      rw [List.length_take]
      split_ifs with hdone
      · -- the buffer has what is missing
        have hle : missing ≤ buffer.length := by omega
        rw [List.take_append_of_le_length hle, Nat.min_eq_left hle]
      · have hfull : min missing buffer.length = buffer.length := Nat.min_eq_right (by omega)
        have hsame : front ++ (empties ++ buffer :: next) = (front ++ empties ++ [buffer]) ++ next := by simp
        have hthere : totLen (front ++ empties ++ [buffer]) = r.offset + buffer.length := by
          rw [totLen_append, totLen_append, hempties, hoffset]
          simp [totLen]
        have hlater := @ih { r with offset := r.offset + buffer.length } (missing - buffer.length) (by omega)
          ⟨_, next, hsame, hthere.symm⟩ (by rw [totLen_append]; dsimp only; omega)
          (by rw [totLen_append]; dsimp only; omega)
        rw [hfull, hlater]
        simp only [Option.bind_some, Option.some.injEq, Prod.mk.injEq, Reader.mk.injEq, and_true]
        constructor
        · rw [← List.drop_drop, hrest, List.drop_left, List.take_of_length_le (by omega : buffer.length ≤ missing),
            List.take_append, List.take_of_length_le (by omega : buffer.length ≤ missing)]
        · omega

/-! ## Call by call -/

/-- The reader stays within the data, and so do its markers. -/
structure Inside (content : List UInt8) (r : Reader) : Prop where
  offset : r.offset ≤ content.length
  markers : ∀ m ∈ r.markers, m ≤ content.length

/-- What lwIP documents: as many bytes as there are, of all buffers. -/
def Copies (copyPartial : CopyPartial) : Prop :=
  ∀ chain n offset, copyPartial chain n offset = (chain.flatten.drop offset).take n

/-- **A call that meets the condition** delivers the same and leads to the same place. -/
theorem call_eq (hcopy : Copies copyPartial) (htotal : totLen chain < 2 ^ 16) (hr : Inside chain.flatten r)
    (hwithin : WithinDatagram chain.flatten r c) (hcondition : Condition chain r c) :
    call copyPartial chain r c = ByteInputStreamReader.callWithin chain.flatten r c := by
  have hoffset := hr.offset
  rw [ByteInputStreamReader.callWithin, if_pos hwithin, ByteInputStreamReader.datagramCall.eq_def]
  cases c with
  | reader c =>
      cases c with
      | extract size =>
          have hcopied : copyPartial chain (min size (available chain r)) r.offset =
              (chain.flatten.drop r.offset).take (min size (available chain r)) := hcopy _ _ _
          have hlength : ((chain.flatten.drop r.offset).take (min size (available chain r))).length =
              min size (available chain r) := by
            rw [List.length_take, List.length_drop]
            exact Nat.min_eq_left (Nat.min_le_right _ _)
          have hsmall : min size (available chain r) < 2 ^ 16 := by
            rw [available]
            omega
          have hmoved : moved r (min size (available chain r)) =
              { r with offset := r.offset + min size (available chain r) } := by
            refine moved_eq ?_
            rw [available, totLen] at *
            omega
          simp only [call, extract, Nat.mod_eq_of_lt hsmall, hcopied, if_pos hlength, hmoved]
          simp only [ByteInputStreamReader.call, ByteInputStreamReader.extract]
          rw [available, totLen] at *
          rw [hlength]
          rfl
      | peek => exact absurd hcondition id
      | extractContiguousRange size =>
          obtain ⟨hlt, hplace⟩ := hcondition
          have hsize : r.offset + size ≤ chain.flatten.length := by
            have hle : size ≤ chain.flatten.length - r.offset := hwithin
            omega
          have hdelivered : delivered (extractContiguousRange chain) size size r =
              some ((chain.flatten.drop r.offset).take size, { r with offset := r.offset + size }) := by
            rcases hplace with rfl | hborder
            · exact delivered_zero hlt htotal
            · exact delivered_border (Nat.le_refl size) htotal hborder hlt hsize
          simp only [call, hdelivered, ByteInputStreamReader.call,
            ByteInputStreamReader.concatenated_eq (Nat.le_refl size) hsize]
          rfl
      | available => rfl
      | empty => exact absurd hcondition id
      | constructSaveMarker => rfl
      | rewind marker =>
          have hmarker : marker < r.markers.length := hwithin
          have hmem : r.markers.getD marker 0 ∈ r.markers := by
            rw [List.getD_eq_getElem?_getD, List.getElem?_eq_getElem hmarker]
            exact List.getElem_mem hmarker
          have hle := hr.markers _ hmem
          rw [totLen] at htotal
          simp only [call, rewind, ByteInputStreamReader.call, Reader.rewind]
          rw [Nat.mod_eq_of_lt (by omega)]
  | peekContiguousRange start =>
      obtain ⟨buffer, next, rfl, hnext⟩ := hcondition
      have hflatten : (buffer :: next).flatten = buffer := by
        rw [List.flatten_cons, List.eq_nil_of_length_eq_zero hnext, List.append_nil]
      have hwithin' : r.offset + start ≤ buffer.length := by
        rw [← hflatten]
        exact hwithin
      have hrange : peekContiguousRange (buffer :: next) r start = some (buffer.drop (r.offset + start)) := by
        rw [peekContiguousRange, List.head?_cons]
        exact if_pos hwithin'
      have hdelivered (calls : Nat) : delivered
          (fun start _ => (peekContiguousRange (buffer :: next) r start).map fun range => (range, start + range.length))
          calls (buffer.length - (r.offset + start)) start =
            some (buffer.drop (r.offset + start), start + (buffer.drop (r.offset + start)).length) := by
        -- one range is all the rest
        cases calls with
        | zero => rw [delivered, hrange, Option.map_some]
        | succ calls =>
            rw [delivered, hrange]
            simp only [Option.map_some, Option.bind_eq_bind, Option.bind_some, List.length_drop, le_refl, if_true]
      simp only [call, totLen, hflatten, hdelivered]
      rfl

theorem inside_of_call {content : List UInt8} {delivered : Delivered} (hr : Inside content r)
    (h : ByteInputStreamReader.callWithin content r c = some (delivered, r')) : Inside content r' := by
  rw [ByteInputStreamReader.callWithin] at h
  split_ifs at h with hwithin
  cases c with
  | reader c =>
      obtain rfl := congrArg Prod.snd (Option.some.inj h)
      cases c with
      | extract size =>
          have hstays : r.offset + ((content.drop r.offset).take (min size (content.length - r.offset))).length ≤
              content.length := by
            have hoffset := hr.offset
            rw [List.length_take, List.length_drop]
            omega
          exact ⟨hstays, hr.markers⟩
      | peek => exact hr
      | extractContiguousRange size =>
          obtain ⟨hoffset, hmarkers⟩ := call_within (c := .extractContiguousRange size) hr.offset hr.markers hwithin
          exact ⟨hoffset, hmarkers⟩
      | available => exact hr
      | empty => exact hr
      | constructSaveMarker =>
          obtain ⟨hoffset, hmarkers⟩ := call_within (c := .constructSaveMarker) hr.offset hr.markers hwithin
          exact ⟨hoffset, hmarkers⟩
      | rewind marker =>
          obtain ⟨hoffset, hmarkers⟩ := call_within (c := .rewind marker) hr.offset hr.markers hwithin
          exact ⟨hoffset, hmarkers⟩
  | peekContiguousRange start =>
      obtain rfl := congrArg Prod.snd (Option.some.inj h)
      exact hr

theorem trace_eq (hcopy : Copies copyPartial) (htotal : totLen chain < 2 ^ 16) {calls : List DatagramCall}
    {results : List Delivered} (hr : Inside chain.flatten r)
    (hcondition : EventSystem.Along
      (fun r c => (ByteInputStreamReader.callWithin chain.flatten r c).map Prod.snd) (Condition chain) r calls)
    (h : trace (ByteInputStreamReader.callWithin chain.flatten) r calls = some results) :
    trace (call copyPartial chain) r calls = some results := by
  induction calls generalizing r results with
  | nil => exact h
  | cons c calls ih =>
      obtain ⟨hhere, hlater⟩ := hcondition
      obtain ⟨⟨result, r'⟩, hcall, hrest⟩ := Option.bind_eq_some_iff.mp h
      obtain ⟨results', htrace, hresults⟩ := Option.bind_eq_some_iff.mp hrest
      have hwithin : WithinDatagram chain.flatten r c := by
        by_contra hnot
        rw [ByteInputStreamReader.callWithin, if_neg hnot] at hcall
        cases hcall
      have hsame := ih (inside_of_call hr hcall) (hlater r' (by simp only [hcall, Option.map_some])) htrace
      rw [trace, call_eq hcopy htotal hr hwithin hhere, hcall]
      simp only [Option.bind_eq_bind, Option.bind_some, hsame]
      exact hresults

end UdpReader

open UdpReader in
/-- **The datagram is read**, by every sequence of calls that all meet the condition. -/
theorem udpReader_reads (copyPartial : CopyPartial) (hcopy : Copies copyPartial) (chain : Chain)
    (htotal : totLen chain ≤ 65535) (calls : List DatagramCall) (results : List Delivered)
    (h : trace (ByteInputStreamReader.callWithin chain.flatten) {} calls = some results)
    (hcondition : EventSystem.Along
      (fun r c => (ByteInputStreamReader.callWithin chain.flatten r c).map Prod.snd) (Condition chain) {} calls) :
    trace (UdpReader.call copyPartial chain) {} calls = some results :=
  trace_eq hcopy (Nat.lt_succ_of_le htotal) ⟨Nat.zero_le _, fun _ hm => (nomatch hm)⟩ hcondition h

/-- `pbuf_copy_partial` -/
def pbufCopyPartial : UdpReader.CopyPartial := fun chain n offset => (chain.flatten.drop offset).take n

theorem udpReader_reads_twoBuffers :
    trace (UdpReader.call pbufCopyPartial [[1, 2], [], [3, 4, 5]]) {}
        [.reader .constructSaveMarker, .reader (.extractContiguousRange 4), .reader .available, .reader (.extract 2),
          .reader (.rewind 0), .reader (.extract 3)] =
      some [.nothing, .bytes [1, 2, 3, 4] true, .size 1, .bytes [5] false, .nothing, .bytes [1, 2, 3] true] := by
  refine udpReader_reads pbufCopyPartial (fun _ _ _ => rfl) _ (by decide) _ _ (by decide) ?_
  refine ⟨trivial, ?_⟩
  rintro r hr
  obtain rfl := Option.some.inj hr
  refine ⟨⟨by decide, Or.inr ⟨[], _, rfl, rfl⟩⟩, ?_⟩
  rintro r hr
  obtain rfl := Option.some.inj hr
  refine ⟨trivial, fun _ _ => ⟨trivial, fun _ _ => ⟨trivial, fun _ _ => ⟨trivial, fun _ _ => trivial⟩⟩⟩⟩

/-- A datagram of one byte, of which `Empty()` says that there is none. -/
theorem udpReader_not_reads :
    ¬ ∀ (chain : UdpReader.Chain) (calls : List DatagramCall) (results : List Delivered),
      UdpReader.totLen chain ≤ 65535 →
      trace (ByteInputStreamReader.callWithin chain.flatten) {} calls = some results →
      trace (UdpReader.call pbufCopyPartial chain) {} calls = some results := by
  intro h
  have hempty := h [[1]] [.reader .empty] [.flag false] (by decide) (by decide)
  exact absurd hempty (by decide)

end EmbeddedInfra.Streams
