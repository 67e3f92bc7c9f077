import Mathlib.Tactic

set_option autoImplicit false

/-! # Byte streams

`infra::ByteOutputStreamWriter` writes to a range of memory, and can move what it has written after a
marker to the end of the range, so that something can be inserted before it. `infra::LimitedStreamReader`
reads from another reader, at most a given number of bytes; limited readers form a chain that ends at
an `infra::ByteInputStreamReader`.
-/

namespace EmbeddedInfra.Streams

/-! ## Memory -/

/-- `std::copy` of `data` to position `at`. -/
def copyTo (memory : List UInt8) (position : Nat) (data : List UInt8) : List UInt8 :=
  memory.take position ++ data ++ memory.drop (position + data.length)

/-- The bytes from `first` up to `last`. -/
def between (memory : List UInt8) (first last : Nat) : List UInt8 :=
  (memory.drop first).take (last - first)

/-! ## Writing -/

/-- `ByteOutputStreamWriter`; `streamRange` is the range from `first` up to `last` of the memory.
`failed` is the state of the error policy. -/
structure ByteOutputStreamWriter where
  memory : List UInt8
  first : Nat
  last : Nat
  offset : Nat := 0
  failed : Bool := false
deriving DecidableEq, Repr

namespace ByteOutputStreamWriter

/-- A writer for the whole of the memory. -/
def ofMemory (memory : List UInt8) : ByteOutputStreamWriter where
  memory := memory
  first := 0
  last := memory.length

def processed (w : ByteOutputStreamWriter) : List UInt8 :=
  between w.memory w.first (w.first + w.offset)

/-- `streamRange.size()` -/
def size (w : ByteOutputStreamWriter) : Nat := w.last - w.first

def insert (w : ByteOutputStreamWriter) (dataRange : List UInt8) : ByteOutputStreamWriter :=
  let fits := decide (dataRange.length ≤ w.size - w.offset)
  let dataRange := dataRange.take (w.size - w.offset)
  { w with
    memory := copyTo w.memory (w.first + w.offset) dataRange
    offset := w.offset + dataRange.length
    failed := w.failed || !fits }

def constructSaveMarker (w : ByteOutputStreamWriter) : Nat := w.offset

def getProcessedBytesSince (w : ByteOutputStreamWriter) (marker : Nat) : Nat := w.offset - marker

/-- The bytes after the marker move to the end of the range. The result is the writer of the bytes
between, that of `SavedMarkerStreamWriter`, with an error policy of its own. -/
def saveState (w : ByteOutputStreamWriter) (marker : Nat) : ByteOutputStreamWriter :=
  let data := between w.memory (w.first + marker) (w.first + w.offset)
  { memory := copyTo w.memory (w.last - data.length) data
    first := w.first + marker
    last := w.last - data.length }

/-- The bytes move back behind what was written to `saved`. -/
def restoreState (w saved : ByteOutputStreamWriter) : ByteOutputStreamWriter :=
  let rangeBegin := saved.first + saved.offset
  let rangeEnd := saved.last
  { w with
    memory := copyTo saved.memory rangeBegin (between saved.memory rangeEnd w.last)
    offset := rangeBegin - w.first + (w.last - rangeEnd) }

end ByteOutputStreamWriter

/-! ## What is written -/

theorem copyTo_append (x old y : List UInt8) {data : List UInt8} {position : Nat}
    (hposition : position = x.length) (hlength : old.length = data.length) :
    copyTo (x ++ (old ++ y)) position data = x ++ (data ++ y) := by
  subst hposition
  rw [copyTo, List.take_left, ← List.drop_drop, List.drop_left, ← hlength, List.drop_left,
    List.append_assoc]

theorem between_append (x data y : List UInt8) {first last : Nat} (hfirst : first = x.length)
    (hlast : last = x.length + data.length) : between (x ++ (data ++ y)) first last = data := by
  subst hfirst hlast
  rw [between, List.drop_left, Nat.add_sub_cancel_left, List.take_left]

/-- The memory: what is before the range, what is written, what is free, and what is after the
range. -/
structure Writes (w : ByteOutputStreamWriter) (before text free after : List UInt8) : Prop where
  memory : w.memory = before ++ (text ++ (free ++ after))
  first : w.first = before.length
  last : w.last = before.length + (text.length + free.length)
  offset : w.offset = text.length
  failed : w.failed = false

namespace Writes

variable {w : ByteOutputStreamWriter} {before text free after : List UInt8}

theorem ofMemory (memory : List UInt8) :
    Writes (ByteOutputStreamWriter.ofMemory memory) [] [] memory [] := by
  constructor <;> simp [ByteOutputStreamWriter.ofMemory]

theorem processed (h : Writes w before text free after) : w.processed = text := by
  rw [ByteOutputStreamWriter.processed, h.memory]
  exact between_append before text _ h.first (by rw [h.first, h.offset])

/-- **There is room**: the data is written. -/
theorem insert {old data : List UInt8} (h : Writes w before text (old ++ free) after)
    (hlength : old.length = data.length) :
    Writes (w.insert data) before (text ++ data) free after := by
  have hroom : w.size - w.offset = data.length + free.length := by
    rw [ByteOutputStreamWriter.size, h.last, h.first, h.offset, List.length_append]
    omega
  have htake : data.take (w.size - w.offset) = data := List.take_of_length_le (by omega)
  constructor
  · simp only [ByteOutputStreamWriter.insert, htake]
    rw [h.memory, ← List.append_assoc, List.append_assoc old,
      copyTo_append (before ++ text) old (free ++ after) (by rw [h.first, h.offset, List.length_append])
        hlength, List.append_assoc, List.append_assoc]
  · exact h.first
  · rw [show (w.insert data).last = w.last from rfl, h.last, List.length_append, List.length_append]
    omega
  · simp only [ByteOutputStreamWriter.insert, htake]
    rw [h.offset, List.length_append]
  · simp only [ByteOutputStreamWriter.insert, h.failed, Bool.false_or, Bool.not_eq_false',
      decide_eq_true_eq]
    omega

/-- There is room, wherever it is. -/
theorem insert_of_le (h : Writes w before text free after) (data : List UInt8)
    (hlength : data.length ≤ free.length) :
    ∃ free', data.length + free'.length = free.length ∧
      Writes (w.insert data) before (text ++ data) free' after := by
  refine ⟨free.drop data.length, ?_, ?_⟩
  · rw [List.length_drop]
    omega
  · have hsplit : free = free.take data.length ++ free.drop data.length :=
      (List.take_append_drop _ _).symm
    rw [hsplit] at h
    exact h.insert (by rw [List.length_take]; omega)

/-- Several pieces are written one by one. -/
theorem insertAll {pieces : List (List UInt8)} (h : Writes w before text free after)
    (hlength : pieces.flatten.length ≤ free.length) :
    ∃ free', pieces.flatten.length + free'.length = free.length ∧
      Writes (pieces.foldl ByteOutputStreamWriter.insert w) before (text ++ pieces.flatten) free' after := by
  induction pieces generalizing w text free with
  | nil =>
      refine ⟨free, by simp, ?_⟩
      rw [List.flatten_nil, List.append_nil]
      exact h
  | cons piece pieces ih =>
      rw [List.flatten_cons, List.length_append] at hlength
      obtain ⟨free₁, hfree₁, hw₁⟩ := h.insert_of_le piece (by omega)
      obtain ⟨free₂, hfree₂, hw₂⟩ := ih hw₁ (by omega)
      refine ⟨free₂, by rw [List.flatten_cons, List.length_append]; omega, ?_⟩
      rw [List.append_assoc] at hw₂
      exact hw₂

/-- Bytes are written one by one. -/
theorem insertEach {data : List UInt8} (h : Writes w before text free after)
    (hlength : data.length ≤ free.length) :
    ∃ free', data.length + free'.length = free.length ∧
      Writes (data.foldl (fun w byte => w.insert [byte]) w) before (text ++ data) free' after := by
  have hflatten : (data.map fun byte => [byte]).flatten = data := by
    rw [← List.flatMap_def, List.flatMap_singleton']
  obtain ⟨free', hfree, hw⟩ := @insertAll w before text free after (data.map fun byte => [byte]) h (by rwa [hflatten])
  rw [hflatten] at hfree hw
  rw [List.foldl_map] at hw
  exact ⟨free', hfree, hw⟩

/-- What was written after the marker has moved to the end. -/
theorem saveState {back : List UInt8} (h : Writes w before (text ++ back) free after) :
    ∃ gap, gap.length = free.length ∧
      Writes (w.saveState text.length) (before ++ text) [] gap (back ++ after) := by
  have hdata : between w.memory (w.first + text.length) (w.first + w.offset) = back := by
    rw [h.memory, List.append_assoc, ← List.append_assoc]
    exact between_append (before ++ text) back _ (by rw [h.first, List.length_append])
      (by rw [h.first, h.offset, List.length_append, List.length_append]; omega)
  have hlast : w.last - back.length = (before ++ text).length + free.length := by
    rw [h.last, List.length_append, List.length_append]
    omega
  -- the bytes that the moved ones leave, and those that they replace
  have hsplit : back ++ free = (back ++ free).take free.length ++ (back ++ free).drop free.length :=
    (List.take_append_drop _ _).symm
  have hgap : ((back ++ free).take free.length).length = free.length := by
    rw [List.length_take, List.length_append]
    omega
  have hold : ((back ++ free).drop free.length).length = back.length := by
    rw [List.length_drop, List.length_append]
    omega
  refine ⟨(back ++ free).take free.length, hgap, ?_⟩
  constructor
  · simp only [ByteOutputStreamWriter.saveState, hdata]
    have hmemory : w.memory = (before ++ text ++ (back ++ free).take free.length) ++
        ((back ++ free).drop free.length ++ after) := by
      rw [h.memory, List.append_assoc (before ++ text),
        ← List.append_assoc ((back ++ free).take free.length), ← hsplit]
      simp only [List.append_assoc]
    rw [hmemory, copyTo_append _ _ after (by simp only [hlast, List.length_append, hgap]) hold,
      List.append_assoc, List.nil_append]
  · simp only [ByteOutputStreamWriter.saveState]
    rw [h.first, List.length_append]
  · simp only [ByteOutputStreamWriter.saveState, hdata]
    rw [hlast, List.length_nil, hgap, Nat.zero_add]
  · rfl
  · rfl

/-- What was written to the gap is before what had moved. -/
theorem restoreState {saved : ByteOutputStreamWriter} {front back inserted gap : List UInt8}
    (h : Writes w before text free after) (hfront : text = front ++ back)
    (hgap : inserted.length + gap.length = free.length)
    (hsaved : Writes saved (before ++ front) inserted gap (back ++ after)) :
    ∃ free', free'.length = gap.length ∧
      Writes (w.restoreState saved) before (front ++ inserted ++ back) free' after := by
  have hdata : between saved.memory saved.last w.last = back := by
    rw [hsaved.memory, ← List.append_assoc, ← List.append_assoc]
    refine between_append _ back after ?_ ?_
    · rw [hsaved.last]
      simp only [List.length_append]
      omega
    · rw [h.last, hfront]
      simp only [List.length_append]
      omega
  have hsplit : gap ++ back = (gap ++ back).take back.length ++ (gap ++ back).drop back.length :=
    (List.take_append_drop _ _).symm
  have hold : ((gap ++ back).take back.length).length = back.length := by
    rw [List.length_take, List.length_append]
    omega
  have hfree : ((gap ++ back).drop back.length).length = gap.length := by
    rw [List.length_drop, List.length_append]
    omega
  refine ⟨(gap ++ back).drop back.length, hfree, ?_⟩
  constructor
  · simp only [ByteOutputStreamWriter.restoreState, hdata]
    have hmemory : saved.memory = (before ++ front ++ inserted) ++
        ((gap ++ back).take back.length ++ ((gap ++ back).drop back.length ++ after)) := by
      rw [hsaved.memory, List.append_assoc (before ++ front),
        ← List.append_assoc ((gap ++ back).take back.length), ← hsplit, List.append_assoc gap]
    rw [hmemory, copyTo_append (before ++ front ++ inserted) _ _ (by
      rw [hsaved.first, hsaved.offset, ← List.length_append]) hold]
    simp only [List.append_assoc]
  · exact h.first
  · rw [show (w.restoreState saved).last = w.last from rfl, h.last, hfront, hfree]
    simp only [List.length_append]
    omega
  · simp only [ByteOutputStreamWriter.restoreState]
    rw [hsaved.first, hsaved.offset, hsaved.last, h.first, h.last, hfront]
    simp only [List.length_append]
    omega
  · exact h.failed

end Writes

/-! ## Reading -/

/-- A chain of readers: the lengths of the limited readers, the innermost first, and the bytes that the
reader at its end has not read yet. `failed` is the state of the error policy, which they share. -/
structure StreamReader where
  lengths : List Nat
  remaining : List UInt8
  failed : Bool := false
deriving DecidableEq, Repr

namespace StreamReader

/-- `Extract` of `n` bytes. What could be read is returned. -/
def extract : List Nat → List UInt8 → Bool → Nat → List UInt8 × StreamReader
  | [], remaining, failed, n =>
      let fits := decide (n ≤ remaining.length)
      (remaining.take n,
        { lengths := [], remaining := remaining.drop n, failed := failed || !fits })
  | length :: lengths, remaining, failed, n =>
      let fits := decide (n ≤ length)
      let n := min n length
      let (data, reader) := extract lengths remaining (failed || !fits) n
      (data, { reader with lengths := (length - n) :: reader.lengths })

def empty : List Nat → List UInt8 → Bool
  | [], remaining => remaining.isEmpty
  | length :: lengths, remaining => length == 0 || empty lengths remaining

/-- The lengths are unsigned numbers of 32 bits. -/
def available : List Nat → List UInt8 → Nat
  | [], remaining => remaining.length
  | length :: lengths, remaining => min length (available lengths remaining % 2 ^ 32)

/-- A limited reader on top of the chain. -/
def limited (r : StreamReader) (length : Nat) : StreamReader :=
  { r with lengths := length % 2 ^ 32 :: r.lengths }

/-- The reader below. -/
def below (r : StreamReader) : StreamReader := { r with lengths := r.lengths.tail }

def reportResult (r : StreamReader) (ok : Bool) : StreamReader := { r with failed := r.failed || !ok }

/-! ## What is read -/

/-- There are `n` bytes, no reader of the chain ends before them, and all lengths have 32 bits. -/
structure Covers (lengths : List Nat) (remaining : List UInt8) (n : Nat) : Prop where
  lengths : ∀ length ∈ lengths, n ≤ length ∧ length < 2 ^ 32
  remaining : n ≤ remaining.length

namespace Covers

variable {lengths : List Nat} {remaining : List UInt8} {n m : Nat}

theorem mono (h : Covers lengths remaining n) (hm : m ≤ n) : Covers lengths remaining m :=
  ⟨fun length hl => ⟨hm.trans (h.lengths length hl).1, (h.lengths length hl).2⟩, hm.trans h.remaining⟩

theorem cons {length : Nat} (h : Covers lengths remaining n) (hn : n ≤ length) (hl : length < 2 ^ 32) :
    Covers (length :: lengths) remaining n := by
  refine ⟨?_, h.remaining⟩
  intro l hmem
  rcases List.mem_cons.mp hmem with rfl | hmem
  · exact ⟨hn, hl⟩
  · exact h.lengths l hmem

/-- What remains when some of the bytes were read. -/
theorem sub (h : Covers lengths remaining (m + n)) :
    Covers (lengths.map (· - m)) (remaining.drop m) n := by
  constructor
  · intro l hmem
    obtain ⟨l, hl, rfl⟩ := List.mem_map.mp hmem
    have := h.lengths l hl
    constructor
    · show n ≤ l - m
      omega
    · exact lt_of_le_of_lt (Nat.sub_le l m) this.2
  · have := h.remaining
    rw [List.length_drop]
    omega

end Covers

variable {lengths : List Nat} {remaining : List UInt8} {n : Nat}

/-- **The bytes are there**: they are read, and no reader fails. -/
theorem extract_eq {failed : Bool} (h : Covers lengths remaining n) :
    extract lengths remaining failed n = (remaining.take n,
      { lengths := lengths.map (· - n), remaining := remaining.drop n, failed := failed }) := by
  induction lengths with
  | nil => simp [extract, h.remaining]
  | cons length lengths ih =>
      have hn := (h.lengths length List.mem_cons_self).1
      have hrest : Covers lengths remaining n :=
        ⟨fun l hl => h.lengths l (List.mem_cons_of_mem _ hl), h.remaining⟩
      rw [extract, Nat.min_eq_left hn, decide_eq_true hn, Bool.not_true, Bool.or_false, ih hrest]
      rfl

theorem available_lt (hl : ∀ length ∈ lengths, length < 2 ^ 32) (hr : remaining.length < 2 ^ 32) :
    available lengths remaining < 2 ^ 32 := by
  cases lengths with
  | nil => exact hr
  | cons length lengths =>
      exact lt_of_le_of_lt (Nat.min_le_left _ _) (hl length List.mem_cons_self)

/-- At least as many bytes are available as no reader ends before. -/
theorem le_available (h : Covers lengths remaining n) (hr : remaining.length < 2 ^ 32) :
    n ≤ available lengths remaining := by
  induction lengths with
  | nil => exact h.remaining
  | cons length lengths ih =>
      have hrest : Covers lengths remaining n :=
        ⟨fun l hl => h.lengths l (List.mem_cons_of_mem _ hl), h.remaining⟩
      have hlt := available_lt (fun l hl => (hrest.lengths l hl).2) hr
      rw [available, Nat.mod_eq_of_lt hlt]
      exact Nat.le_min.mpr ⟨(h.lengths length List.mem_cons_self).1, ih hrest⟩

/-- A limited reader makes its length available. -/
theorem available_cons (h : Covers lengths remaining n) (hr : remaining.length < 2 ^ 32) :
    available (n :: lengths) remaining = n := by
  have hlt := available_lt (fun l hl => (h.lengths l hl).2) hr
  rw [available, Nat.mod_eq_of_lt hlt]
  exact Nat.min_eq_left (le_available h hr)

theorem not_empty
    (h : Covers lengths remaining n) (hn : 1 ≤ n) : empty lengths remaining = false := by
  induction lengths with
  | nil =>
      have hlength := h.remaining
      cases remaining with
      | nil => exact absurd (hn.trans hlength) (by simp)
      | cons c remaining => rfl
  | cons length lengths ih =>
      have hlength := (h.lengths length List.mem_cons_self).1
      have hrest : Covers lengths remaining n :=
        ⟨fun l hl => h.lengths l (List.mem_cons_of_mem _ hl), h.remaining⟩
      rw [empty, ih hrest, Bool.or_false, beq_eq_false_iff_ne]
      omega

end StreamReader

end EmbeddedInfra.Streams
