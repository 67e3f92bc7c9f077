import EmbeddedInfra.Infra.Stream.ByteStreams
import EmbeddedInfra.Lib.EventSystem

set_option autoImplicit false

/-! # Reading from a bounded deque

`infra::BoundedDequeInputStreamReader` reads the bytes of a deque, whose storage is circular: a range of
it is contiguous only up to the end of the storage. It is compared with `infra::ByteInputStreamReader`,
which reads from a contiguous range.
-/

namespace EmbeddedInfra.Streams

/-- `BoundedDeque<uint8_t>`; storage that is not allocated holds any bytes. -/
structure BoundedDeque where
  storage : List UInt8
  start : Nat
  numAllocated : Nat
  fits : numAllocated ≤ storage.length
  aligned : 0 < numAllocated → start < storage.length

namespace BoundedDeque

def index (d : BoundedDeque) (elementIndex : Nat) : Nat :=
  let index := d.start + elementIndex
  if index < d.storage.length then index else index - d.storage.length

/-- `operator[]` -/
def element (d : BoundedDeque) (position : Nat) : UInt8 := d.storage.getD (d.index position) 0

/-- The bytes of the deque, in order. -/
def content (d : BoundedDeque) : List UInt8 := (List.range d.numAllocated).map d.element

/-- `contiguous_range`, from an iterator with this index on -/
def contiguousRange (d : BoundedDeque) (start : Nat) : List UInt8 :=
  if d.numAllocated ≠ 0 then
    let i := d.index start
    between d.storage i (min (i + d.numAllocated - start) d.storage.length)
  else []

end BoundedDeque

/-- Both readers consist of an offset; the markers are those that its user holds. -/
structure Reader where
  offset : Nat := 0
  markers : List Nat := []
deriving DecidableEq

inductive Call
  | extract (size : Nat)
  | peek
  /-- `ExtractContiguousRange`, until this many bytes have been delivered. -/
  | extractContiguousRange (size : Nat)
  | available
  | empty
  | constructSaveMarker
  /-- `Rewind` to one of the markers. -/
  | rewind (marker : Nat)
deriving DecidableEq

/-- What a call delivers, and what it reports to the error policy. -/
inductive Delivered
  | bytes (data : List UInt8) (ok : Bool)
  | size (size : Nat)
  | flag (flag : Bool)
  | nothing
deriving DecidableEq

namespace Reader

def constructSaveMarker (r : Reader) : Reader := { r with markers := r.markers ++ [r.offset] }

def rewind (r : Reader) (marker : Nat) : Reader := { r with offset := r.markers.getD marker 0 }

/-- Calls of `ExtractContiguousRange`, each for what is still missing. -/
def concatenated (extractContiguousRange : Reader → Nat → List UInt8 × Reader) :
    Nat → Nat → Reader → List UInt8 × Reader
  | 0, _, r => ([], r)
  | calls + 1, missing, r =>
      if missing = 0 then ([], r)
      else
        let (range, r) := extractContiguousRange r missing
        let (later, r) := concatenated extractContiguousRange calls (missing - range.length) r
        (range ++ later, r)

end Reader

/-! ## `ByteInputStreamReader` -/

namespace ByteInputStreamReader

variable (range : List UInt8)

def extract (r : Reader) (size : Nat) : (List UInt8 × Bool) × Reader :=
  let remaining := range.length - r.offset
  let data := (range.drop r.offset).take (min size remaining)
  ((data, size ≤ remaining), { r with offset := r.offset + data.length })

def peek (r : Reader) : UInt8 × Bool := (range.getD r.offset 0, 1 ≤ range.length - r.offset)

def extractContiguousRange (r : Reader) (max : Nat) : List UInt8 × Reader :=
  let result := (range.drop r.offset).take max
  (result, { r with offset := r.offset + result.length })

def available (r : Reader) : Nat := range.length - r.offset

def empty (r : Reader) : Bool := r.offset = range.length

def call (r : Reader) : Call → Delivered × Reader
  | .extract size =>
      let ((data, ok), r) := extract range r size
      (.bytes data ok, r)
  | .peek =>
      let (element, ok) := peek range r
      (.bytes [element] ok, r)
  | .extractContiguousRange size =>
      let (data, r) := r.concatenated (extractContiguousRange range) size size
      (.bytes data true, r)
  | .available => (.size (available range r), r)
  | .empty => (.flag (empty range r), r)
  | .constructSaveMarker => (.nothing, r.constructSaveMarker)
  | .rewind marker => (.nothing, r.rewind marker)

end ByteInputStreamReader

/-! ## `BoundedDequeInputStreamReader` -/

namespace BoundedDequeInputStreamReader

variable (container : BoundedDeque)

/-- The loop of `Extract`; the first argument bounds its turns. -/
def extractLoop : Nat → Nat → Reader → List UInt8 × Reader
  | 0, _, r => ([], r)
  | turns + 1, missing, r =>
      if missing ≠ 0 ∧ container.numAllocated ≠ r.offset then
        let part := (container.contiguousRange r.offset).take missing
        let (later, r) := extractLoop turns (missing - part.length) { r with offset := r.offset + part.length }
        (part ++ later, r)
      else ([], r)

def extract (r : Reader) (size : Nat) : (List UInt8 × Bool) × Reader :=
  let (data, r') := extractLoop container (size + 1) size r
  ((data, size ≤ container.numAllocated - r.offset), r')

/-- `Peek` calls `Extract` for an element that is zero at first. -/
def peek (r : Reader) : (UInt8 × Bool) × Reader :=
  let ((data, ok), r) := extract container r 1
  ((data.headD 0, ok), r)

def extractContiguousRange (r : Reader) (max : Nat) : List UInt8 × Reader :=
  let result := (container.contiguousRange r.offset).take max
  (result, { r with offset := r.offset + result.length })

def available (r : Reader) : Nat := container.numAllocated - r.offset

def empty (r : Reader) : Bool := r.offset = container.numAllocated

def call (r : Reader) : Call → Delivered × Reader
  | .extract size =>
      let ((data, ok), r) := extract container r size
      (.bytes data ok, r)
  | .peek =>
      let ((element, ok), r) := peek container r
      (.bytes [element] ok, r)
  | .extractContiguousRange size =>
      let (data, r) := r.concatenated (extractContiguousRange container) size size
      (.bytes data true, r)
  | .available => (.size (available container r), r)
  | .empty => (.flag (empty container r), r)
  | .constructSaveMarker => (.nothing, r.constructSaveMarker)
  | .rewind marker => (.nothing, r.rewind marker)

end BoundedDequeInputStreamReader

/-! ## The contiguous ranges of a deque -/

namespace BoundedDeque

variable (d : BoundedDeque) {start : Nat}

@[simp] theorem length_content : d.content.length = d.numAllocated := by simp [content]

/-- Inside the storage, the next element is the next byte. -/
theorem index_add {j : Nat} (hstart : start < d.numAllocated)
    (hj : d.index start + j < d.storage.length) : d.index (start + j) = d.index start + j := by
  have := d.fits
  have := d.aligned (by omega)
  simp only [index] at hj ⊢
  split_ifs at hj ⊢ <;> omega

/-- How much of the content is contiguous. -/
def contiguous (start : Nat) : Nat := min (d.numAllocated - start) (d.storage.length - d.index start)

theorem contiguous_pos (hstart : start < d.numAllocated) : 0 < d.contiguous start := by
  have := d.fits
  have := d.aligned (by omega)
  simp only [contiguous, index]
  split_ifs <;> omega

/-- **A contiguous range is a part of the content.** -/
theorem contiguousRange_eq (hstart : start ≤ d.numAllocated) :
    d.contiguousRange start = (d.content.drop start).take (d.contiguous start) := by
  have hfits := d.fits
  rcases Nat.lt_or_ge start d.numAllocated with hlt | hge
  · have hpos := d.contiguous_pos hlt
    have hsize : min (d.index start + d.numAllocated - start) d.storage.length - d.index start =
        d.contiguous start := by
      simp only [contiguous]
      omega
    rw [contiguousRange, if_pos (by omega), between, hsize]
    refine List.ext_getElem? ?_
    intro j
    rw [List.getElem?_take, List.getElem?_take]
    split_ifs with hj
    · have hinside : d.index start + j < d.storage.length := by
        simp only [contiguous] at hj
        omega
      have hcontent : start + j < d.numAllocated := by
        simp only [contiguous] at hj
        omega
      rw [List.getElem?_drop, List.getElem?_drop, content, List.getElem?_map,
        List.getElem?_range hcontent, Option.map_some, element, d.index_add hlt hinside,
        List.getD_eq_getElem?_getD, List.getElem?_eq_getElem hinside, Option.getD_some]
    · rfl
  · have heq : start = d.numAllocated := by omega
    have hnone : d.content.drop start = [] := List.drop_eq_nil_of_le (by simp [heq])
    rw [hnone, List.take_nil, contiguousRange]
    split_ifs
    · simp [between, heq]
    · rfl

end BoundedDeque

/-! ## The two readers, call by call -/

namespace BoundedDequeInputStreamReader

variable {d : BoundedDeque} {r : Reader}

/-- What a contiguous range leaves to be read. -/
theorem part_append {start missing : Nat} (hstart : start < d.numAllocated) (hmissing : 0 < missing) :
    0 < ((d.contiguousRange start).take missing).length ∧
      ((d.contiguousRange start).take missing).length ≤ missing ∧
      start + ((d.contiguousRange start).take missing).length ≤ d.numAllocated ∧
      (d.content.drop start).take missing = (d.contiguousRange start).take missing ++
        (d.content.drop (start + ((d.contiguousRange start).take missing).length)).take
          (missing - ((d.contiguousRange start).take missing).length) := by
  have hpos := d.contiguous_pos hstart
  have hle : d.contiguous start ≤ d.numAllocated - start := Nat.min_le_left _ _
  have hpart : (d.contiguousRange start).take missing =
      (d.content.drop start).take (min missing (d.contiguous start)) := by
    rw [d.contiguousRange_eq (by omega), List.take_take]
  have hlength : ((d.content.drop start).take (min missing (d.contiguous start))).length =
      min missing (d.contiguous start) := by
    rw [List.length_take, List.length_drop, d.length_content]
    omega
  rw [hpart, hlength]
  refine ⟨by omega, by omega, by omega, ?_⟩
  rw [← List.drop_drop, ← List.take_add]
  congr 1
  omega

/-- **The loop of `Extract` delivers the bytes that come next**, across the end of the storage. -/
theorem extractLoop_eq (turns missing : Nat) (hturns : missing < turns) (hr : r.offset ≤ d.numAllocated) :
    extractLoop d turns missing r =
      ((d.content.drop r.offset).take missing,
        { r with offset := r.offset + min missing (d.numAllocated - r.offset) }) := by
  -- a turn delivers at least one byte, so that the turns last for what is missing
  induction turns generalizing missing r with
  | zero => omega
  | succ turns ih =>
      rw [extractLoop]
      split_ifs with hmore
      · obtain ⟨hpos, hle, hinside, happend⟩ := @part_append d r.offset missing (by omega) (by omega)
        dsimp only
        rw [ih _ (by omega) hinside, happend]
        refine Prod.ext rfl ?_
        simp only [Reader.mk.injEq, and_true]
        omega
      · have hend : missing = 0 ∨ d.numAllocated = r.offset := by omega
        rcases hend with rfl | hend
        · simp
        · rw [List.drop_eq_nil_of_le (by simp [hend]), List.take_nil, hend]
          simp

/-- Repeated calls of `ExtractContiguousRange` deliver them too. -/
theorem concatenated_eq (calls missing : Nat) (hcalls : missing ≤ calls)
    (hr : r.offset + missing ≤ d.numAllocated) :
    r.concatenated (extractContiguousRange d) calls missing =
      ((d.content.drop r.offset).take missing, { r with offset := r.offset + missing }) := by
  induction calls generalizing missing r with
  | zero =>
      obtain rfl : missing = 0 := by omega
      simp [Reader.concatenated]
  | succ calls ih =>
      rw [Reader.concatenated]
      split_ifs with hzero
      · simp [hzero]
      · obtain ⟨hpos, hle, hinside, happend⟩ := @part_append d r.offset missing (by omega) (by omega)
        simp only [extractContiguousRange]
        rw [ih _ (by omega) (by dsimp only; omega), happend]
        refine Prod.ext rfl ?_
        simp only [Reader.mk.injEq, and_true]
        omega

end BoundedDequeInputStreamReader

variable {r : Reader} {d : BoundedDeque}

namespace ByteInputStreamReader

theorem concatenated_eq {range : List UInt8} {calls missing : Nat} (hcalls : missing ≤ calls)
    (hr : r.offset + missing ≤ range.length) :
    r.concatenated (extractContiguousRange range) calls missing =
      ((range.drop r.offset).take missing, { r with offset := r.offset + missing }) := by
  have hlength : ((range.drop r.offset).take missing).length = missing := by
    rw [List.length_take, List.length_drop]
    omega
  have hdone (calls : Nat) (r : Reader) : r.concatenated (extractContiguousRange range) calls 0 = ([], r) := by
    cases calls <;> simp [Reader.concatenated]
  -- the range is contiguous: one call delivers everything
  cases calls with
  | zero =>
      obtain rfl : missing = 0 := by omega
      rw [hdone]
      simp
  | succ calls =>
      by_cases hzero : missing = 0
      · rw [hzero, hdone]
        simp
      · rw [Reader.concatenated, if_neg hzero]
        simp only [extractContiguousRange, hlength, Nat.sub_self, hdone, List.append_nil]

end ByteInputStreamReader

/-! ## Every sequence of calls -/

/-- The two readers, and whether they have delivered the same so far. -/
structure Readers where
  deque : Reader := {}
  byte : Reader := {}
  same : Bool := true
deriving DecidableEq

/-- The call stays within the content. -/
def Within (content : List UInt8) (r : Reader) : Call → Prop
  | .extract size => size ≤ content.length - r.offset
  | .peek => r.offset < content.length
  | .extractContiguousRange size => size ≤ content.length - r.offset
  | .available => True
  | .empty => True
  | .constructSaveMarker => True
  | .rewind marker => marker < r.markers.length

instance (content : List UInt8) (r : Reader) : (c : Call) → Decidable (Within content r c)
  | .extract size => inferInstanceAs (Decidable (size ≤ content.length - r.offset))
  | .peek => inferInstanceAs (Decidable (r.offset < content.length))
  | .extractContiguousRange size => inferInstanceAs (Decidable (size ≤ content.length - r.offset))
  | .available => inferInstanceAs (Decidable True)
  | .empty => inferInstanceAs (Decidable True)
  | .constructSaveMarker => inferInstanceAs (Decidable True)
  | .rewind marker => inferInstanceAs (Decidable (marker < r.markers.length))

/-- The same call to both readers. -/
def callBoth (d : BoundedDeque) (s : Readers) (c : Call) : Option Readers :=
  if Within d.content s.byte c then
    let fromDeque := BoundedDequeInputStreamReader.call d s.deque c
    let fromByte := ByteInputStreamReader.call d.content s.byte c
    some {
      deque := fromDeque.2
      byte := fromByte.2
      same := s.same && decide (fromDeque.1 = fromByte.1) }
  else none

/-- The readers agree: they have delivered the same, and have the same left. -/
structure Agree (d : BoundedDeque) (s : Readers) : Prop where
  same : s.same = true
  available : BoundedDequeInputStreamReader.available d s.deque =
    ByteInputStreamReader.available d.content s.byte
  empty : BoundedDequeInputStreamReader.empty d s.deque = ByteInputStreamReader.empty d.content s.byte

/-- They are at the same place, and so are the markers. -/
structure Together (d : BoundedDeque) (s : Readers) : Prop where
  same : s.same = true
  eq : s.deque = s.byte
  offset : s.byte.offset ≤ d.numAllocated
  markers : ∀ m ∈ s.byte.markers, m ≤ d.numAllocated

variable {s : Readers} {c : Call}

theorem Together.agree (h : Together d s) : Agree d s := by
  refine ⟨h.same, ?_, ?_⟩
  · rw [h.eq, BoundedDequeInputStreamReader.available, ByteInputStreamReader.available, d.length_content]
  · rw [h.eq, BoundedDequeInputStreamReader.empty, ByteInputStreamReader.empty, d.length_content]

/-- **Every call but `Peek` delivers the same and leads to the same place.** -/
theorem call_eq (hr : r.offset ≤ d.numAllocated) (hc : Within d.content r c) (hpeek : c ≠ .peek) :
    BoundedDequeInputStreamReader.call d r c = ByteInputStreamReader.call d.content r c := by
  have hlength := d.length_content
  cases c with
  | extract size =>
      simp only [Within, hlength] at hc
      simp only [BoundedDequeInputStreamReader.call, ByteInputStreamReader.call,
        BoundedDequeInputStreamReader.extract, ByteInputStreamReader.extract,
        BoundedDequeInputStreamReader.extractLoop_eq _ _ (Nat.lt_succ_self size) hr, hlength,
        Nat.min_eq_left hc]
      have hdata : ((d.content.drop r.offset).take size).length = size := by
        rw [List.length_take, List.length_drop, hlength]
        omega
      rw [hdata]
  | peek => exact absurd rfl hpeek
  | extractContiguousRange size =>
      simp only [Within, hlength] at hc
      simp only [BoundedDequeInputStreamReader.call, ByteInputStreamReader.call]
      rw [BoundedDequeInputStreamReader.concatenated_eq _ _ (le_refl size) (by omega),
        ByteInputStreamReader.concatenated_eq (le_refl size) (by rw [hlength]; omega)]
  | available =>
      simp only [BoundedDequeInputStreamReader.call, ByteInputStreamReader.call,
        BoundedDequeInputStreamReader.available, ByteInputStreamReader.available, hlength]
  | empty =>
      simp only [BoundedDequeInputStreamReader.call, ByteInputStreamReader.call,
        BoundedDequeInputStreamReader.empty, ByteInputStreamReader.empty, hlength]
  | constructSaveMarker => rfl
  | rewind marker => rfl

/-- The contiguous reader stays within its content. -/
theorem call_within {content : List UInt8} (hr : r.offset ≤ content.length)
    (hmarkers : ∀ m ∈ r.markers, m ≤ content.length) (hc : Within content r c) :
    (ByteInputStreamReader.call content r c).2.offset ≤ content.length ∧
      ∀ m ∈ (ByteInputStreamReader.call content r c).2.markers, m ≤ content.length := by
  cases c with
  | extract size =>
      refine ⟨?_, hmarkers⟩
      simp only [ByteInputStreamReader.call, ByteInputStreamReader.extract, List.length_take, List.length_drop]
      omega
  | extractContiguousRange size =>
      simp only [Within] at hc
      simp only [ByteInputStreamReader.call]
      rw [ByteInputStreamReader.concatenated_eq (le_refl size) (by omega)]
      exact ⟨by dsimp only; omega, hmarkers⟩
  | constructSaveMarker =>
      refine ⟨hr, ?_⟩
      intro m hm
      rcases List.mem_append.mp hm with hm | hm
      · exact hmarkers m hm
      · rw [List.mem_singleton.mp hm]
        exact hr
  | rewind marker =>
      refine ⟨?_, hmarkers⟩
      have hmem : r.markers.getD marker 0 ∈ r.markers := by
        rw [List.getD_eq_getElem?_getD, List.getElem?_eq_getElem hc]
        exact List.getElem_mem hc
      exact hmarkers _ hmem
  | peek => exact ⟨hr, hmarkers⟩
  | available => exact ⟨hr, hmarkers⟩
  | empty => exact ⟨hr, hmarkers⟩

theorem Together.call {s' : Readers} (h : Together d s) (hpeek : c ≠ .peek)
    (hstep : callBoth d s c = some s') : Together d s' := by
  obtain ⟨hsame, heq, hoffset, hmarkers⟩ := h
  unfold callBoth at hstep
  split_ifs at hstep with hc
  have hcall := call_eq hoffset hc hpeek
  rw [heq, hcall] at hstep
  cases hstep
  rw [← d.length_content] at hoffset hmarkers
  obtain ⟨hoffset', hmarkers'⟩ := call_within hoffset hmarkers hc
  rw [d.length_content] at hoffset' hmarkers'
  exact ⟨by simp [hsame], rfl, hoffset', hmarkers'⟩

/-- **`Peek` takes the byte out of the deque reader.** -/
theorem Together.peek {s' : Readers} (h : Together d s) (hstep : callBoth d s .peek = some s') :
    ¬ Agree d s' := by
  obtain ⟨-, heq, hoffset, -⟩ := h
  unfold callBoth at hstep
  split_ifs at hstep with hc
  rintro ⟨-, havailable, -⟩
  rw [← Option.some.inj hstep] at havailable
  have hlt : s.byte.offset < d.numAllocated := by rw [← d.length_content]; exact hc
  have hmoved : (BoundedDequeInputStreamReader.call d s.deque .peek).2.offset = s.byte.offset + 1 := by
    rw [heq]
    simp only [BoundedDequeInputStreamReader.call, BoundedDequeInputStreamReader.peek,
      BoundedDequeInputStreamReader.extract,
      BoundedDequeInputStreamReader.extractLoop_eq 2 1 (by decide) hoffset]
    omega
  simp only [BoundedDequeInputStreamReader.available, ByteInputStreamReader.available, d.length_content,
    hmoved] at havailable
  have hstays : (ByteInputStreamReader.call d.content s.byte .peek).2.offset = s.byte.offset := rfl
  omega

/-- **The readers agree along a sequence of calls if and only if none of them is a `Peek`.** The storage
of the deque may be aligned in any way, and the calls come in any order that stays within the content. -/
theorem readers_agree_iff (d : BoundedDeque) {calls : List Call} {s' : Readers}
    (h : EventSystem.run (callBoth d) {} calls = some s') :
    EventSystem.Always (callBoth d) (Agree d) {} calls ↔ ∀ c ∈ calls, c ≠ .peek := by
  have hstart : Together d {} := ⟨rfl, rfl, Nat.zero_le _, by simp⟩
  rw [← EventSystem.along_iff_forall h]
  refine EventSystem.always_iff_along (Together d) (fun s hs => hs.agree) ?_ ?_ hstart h
  · intro s c s' hs hc hstep
    exact hs.call hc hstep
  · intro s c s' hs hc hstep
    obtain rfl : c = .peek := not_not.mp hc
    exact hs.peek hstep

/-- A deque whose content goes on at the beginning of its storage. -/
def wrapped : BoundedDeque where
  storage := [7, 8, 1, 2, 3, 4, 5, 6]
  start := 2
  numAllocated := 8
  fits := le_refl 8
  aligned := fun _ => Nat.le_add_left 3 5

/-- Reading across the end of the storage, and again from a marker. -/
theorem readers_agree_iff_wrapped :
    EventSystem.Always (callBoth wrapped) (Agree wrapped) {}
      [.extract 4, .constructSaveMarker, .extract 3, .available, .rewind 0, .extractContiguousRange 4, .empty] := by
  refine (@readers_agree_iff wrapped _ ⟨⟨8, [4]⟩, ⟨8, [4]⟩, true⟩ ?_).mpr ?_
  · decide
  · decide

/-- **`Peek`, then `Extract`**: the deque reader delivers the second byte, the other one the first. -/
theorem not_agree_peek :
    BoundedDequeInputStreamReader.call wrapped (BoundedDequeInputStreamReader.call wrapped {} .peek).2 (.extract 1) =
        (.bytes [2] true, { offset := 2 }) ∧
      ByteInputStreamReader.call wrapped.content (ByteInputStreamReader.call wrapped.content {} .peek).2
        (.extract 1) = (.bytes [1] true, { offset := 1 }) ∧
      ¬ EventSystem.Always (callBoth wrapped) (Agree wrapped) {} [.peek, .extract 1] := by
  refine ⟨by decide, by decide, ?_⟩
  intro halways
  have hagree := halways [.peek, .extract 1] (List.prefix_refl _) ⟨{ offset := 2 }, { offset := 1 }, false⟩ (by decide)
  exact absurd hagree.same (by decide)

end EmbeddedInfra.Streams
