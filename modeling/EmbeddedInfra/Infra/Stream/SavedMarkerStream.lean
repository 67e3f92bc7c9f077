import EmbeddedInfra.Infra.Stream.ByteStreams

set_option autoImplicit false

/-! # Insertion at saved markers

An `infra::SavedMarkerStream` writes at a marker in what another stream has written already: the bytes behind the
marker wait at the end of the memory until it is destroyed. The other stream writes to a range of memory, or to
a string; the saved one always writes to a range of memory.
-/

namespace EmbeddedInfra.Streams

open ByteOutputStreamWriter

/-! ## Writing to a string -/

/-- The storage of an `infra::BoundedString`, and the length of the string in it. -/
structure BoundedString where
  range : List UInt8
  length : Nat
deriving DecidableEq, Repr

namespace BoundedString

def maxSize (s : BoundedString) : Nat := s.range.length

/-- The characters of the string. -/
def content (s : BoundedString) : List UInt8 := s.range.take s.length

/-- `append`; there is no result when the assertion fails. -/
def append (s : BoundedString) (data : List UInt8) : Option BoundedString :=
  if s.length + data.length ≤ s.maxSize then
    some { range := copyTo s.range s.length data, length := s.length + data.length }
  else none

/-- `resize`; a longer string ends in zeros. -/
def resize (s : BoundedString) (count : Nat) : Option BoundedString :=
  if count ≤ s.maxSize then
    some {
      range := if count > s.length then copyTo s.range s.length (List.replicate (count - s.length) 0) else s.range
      length := count }
  else none

end BoundedString

/-- `StringOutputStreamWriter`; `failed` is the state of the error policy. -/
structure StringOutputStreamWriter where
  string : BoundedString
  failed : Bool := false
deriving DecidableEq, Repr

namespace StringOutputStreamWriter

def available (w : StringOutputStreamWriter) : Nat := w.string.maxSize - w.string.length

def insert (w : StringOutputStreamWriter) (range : List UInt8) : Option StringOutputStreamWriter :=
  let spaceLeft := w.available
  let spaceOk := decide (range.length ≤ spaceLeft)
  let range := if spaceOk then range else range.take spaceLeft
  (w.string.append range).map fun string => { string := string, failed := w.failed || !spaceOk }

def constructSaveMarker (w : StringOutputStreamWriter) : Nat := w.string.length

def getProcessedBytesSince (w : StringOutputStreamWriter) (marker : Nat) : Nat := w.string.length - marker

/-- The string takes all of its storage, and what it had after the marker moves to the end. The result is also
the writer of the bytes between. -/
def saveState (w : StringOutputStreamWriter) (marker : Nat) :
    Option (StringOutputStreamWriter × ByteOutputStreamWriter) :=
  let copyBegin := marker
  let copyEnd := w.string.length
  (w.string.resize w.string.maxSize).map fun string =>
    let data := between string.range copyBegin copyEnd
    let range := copyTo string.range (string.length - data.length) data
    ({ w with string := { string with range := range } },
      { memory := range, first := copyBegin, last := string.length - (copyEnd - copyBegin) })

/-- The bytes move back behind what was written to `saved`. -/
def restoreState (w : StringOutputStreamWriter) (saved : ByteOutputStreamWriter) : Option StringOutputStreamWriter :=
  let rangeBegin := saved.first + saved.offset
  let rangeEnd := saved.last
  let range := copyTo saved.memory rangeBegin (between saved.memory rangeEnd w.string.length)
  (BoundedString.resize { w.string with range := range } (w.string.length - (rangeEnd - rangeBegin))).map
    fun string => { w with string := string }

end StringOutputStreamWriter

/-! ## Insertions -/

/-- What is done to a stream: data are written to it, and a `SavedMarkerStream` is made at a marker, something is
done to that stream, and it is destroyed again. -/
inductive Actions where
  | done
  | write (data : List UInt8) (rest : Actions)
  | insertAt (marker : Nat) (inserted rest : Actions)
deriving DecidableEq, Repr

namespace Actions

/-- **What the stream should hold then**: an insertion goes between the bytes before the marker and those after
it. -/
def text : Actions → List UInt8 → List UInt8
  | done, text => text
  | write data rest, text => rest.text (text ++ data)
  | insertAt marker inserted rest, text => rest.text (text.take marker ++ inserted.text [] ++ text.drop marker)

/-- How much is written altogether. -/
def written : Actions → Nat
  | done => 0
  | write data rest => data.length + rest.written
  | insertAt _ inserted rest => inserted.written + rest.written

/-- Every marker is a position in what its stream has written, `length` bytes at the start. -/
def Valid : Actions → Nat → Prop
  | done, _ => True
  | write data rest, length => rest.Valid (length + data.length)
  | insertAt marker inserted rest, length =>
      marker ≤ length ∧ inserted.Valid 0 ∧ rest.Valid (length + inserted.written)

end Actions

open Actions

/-- `SavedMarkerStreamWriter` is a `ByteOutputStreamWriter` on the range that `SaveState` returns; its destructor
calls `RestoreState`. -/
def ByteOutputStreamWriter.perform (w : ByteOutputStreamWriter) : Actions → ByteOutputStreamWriter
  | done => w
  | write data rest => (w.insert data).perform rest
  | insertAt marker inserted rest =>
      (w.restoreState ((w.saveState marker).perform inserted)).perform rest

def StringOutputStreamWriter.perform (w : StringOutputStreamWriter) : Actions → Option StringOutputStreamWriter
  | done => some w
  | write data rest => (w.insert data).bind fun w => w.perform rest
  | insertAt marker inserted rest =>
      (w.saveState marker).bind fun saved =>
        (saved.1.restoreState (saved.2.perform inserted)).bind fun w => w.perform rest

/-! ## Insertions in a range of memory -/

variable {actions : Actions}

namespace Actions

theorem text_length {text : List UInt8} (h : actions.Valid text.length) :
    (actions.text text).length = text.length + actions.written := by
  induction actions generalizing text with
  | done => rfl
  | write data rest ih =>
      have hrest : rest.Valid (text ++ data).length := by
        rw [List.length_append]
        exact h
      calc (rest.text (text ++ data)).length = (text ++ data).length + rest.written := ih hrest
        _ = text.length + (data.length + rest.written) := by rw [List.length_append, Nat.add_assoc]
  | insertAt marker inserted rest ihInserted ihRest =>
      obtain ⟨hmarker, hinserted, hrest⟩ := h
      have hin : (inserted.text []).length = inserted.written := by
        rw [@ihInserted [] hinserted, List.length_nil, Nat.zero_add]
      have hmiddle : (text.take marker ++ inserted.text [] ++ text.drop marker).length =
          text.length + inserted.written := by
        simp only [List.length_append, List.length_take, List.length_drop, hin]
        omega
      calc (rest.text (text.take marker ++ inserted.text [] ++ text.drop marker)).length
        _ = text.length + inserted.written + rest.written := by
          rw [ihRest (hmiddle ▸ hrest), hmiddle]
        _ = text.length + (inserted.written + rest.written) := Nat.add_assoc _ _ _

end Actions

variable {w : ByteOutputStreamWriter} {before text free after : List UInt8}

/-- Whatever is done to the stream, it holds what it should hold when it has the room. -/
theorem Writes.perform (h : Writes w before text free after) (hvalid : actions.Valid text.length)
    (hroom : actions.written ≤ free.length) :
    ∃ free', actions.written + free'.length = free.length ∧
      Writes (w.perform actions) before (actions.text text) free' after := by
  induction actions generalizing w before text free after with
  | done => exact ⟨free, Nat.zero_add _, h⟩
  | write data rest ih =>
      have hsum : data.length + rest.written ≤ free.length := hroom
      obtain ⟨free₁, hfree₁, hw₁⟩ := h.insert_of_le data (by omega)
      have hrest : rest.Valid (text ++ data).length := by
        rw [List.length_append]
        exact hvalid
      obtain ⟨free₂, hfree₂, hw₂⟩ := ih hw₁ hrest (by omega)
      refine ⟨free₂, ?_, hw₂⟩
      calc data.length + rest.written + free₂.length = data.length + (rest.written + free₂.length) := by
            rw [Nat.add_assoc]
        _ = free.length := by rw [hfree₂, hfree₁]
  | insertAt marker inserted rest ihInserted ihRest =>
      obtain ⟨hmarker, hinserted, hrest⟩ := hvalid
      have hsum : inserted.written + rest.written ≤ free.length := hroom
      have hsplit : text = text.take marker ++ text.drop marker := (List.take_append_drop marker text).symm
      have hlength : (text.take marker).length = marker := List.length_take_of_le hmarker
      -- the bytes behind the marker wait while something is inserted, and come back
      have hsave : ∃ gap, gap.length = free.length ∧
          Writes (w.saveState marker) (before ++ text.take marker) [] gap (text.drop marker ++ after) := by
        rw [hsplit] at h
        have hsaved := h.saveState
        rwa [hlength] at hsaved
      obtain ⟨gap, hgap, hsaved⟩ := hsave
      obtain ⟨gap', hgap', hin⟩ := ihInserted hsaved hinserted (by omega)
      have hwritten : (inserted.text []).length = inserted.written := by
        rw [@text_length inserted [] hinserted, List.length_nil, Nat.zero_add]
      obtain ⟨free₁, hfree₁, hw₁⟩ := h.restoreState hsplit (by omega) hin
      have hmiddle : (text.take marker ++ inserted.text [] ++ text.drop marker).length =
          text.length + inserted.written := by
        simp only [List.length_append, List.length_take, List.length_drop, hwritten]
        omega
      obtain ⟨free₂, hfree₂, hw₂⟩ := ihRest hw₁ (hmiddle ▸ hrest) (by omega)
      refine ⟨free₂, ?_, hw₂⟩
      unfold written
      omega

/-- A failure that was reported before stays reported, and changes nothing else. -/
theorem ByteOutputStreamWriter.perform_failed (actions : Actions) (w : ByteOutputStreamWriter) (failed : Bool) :
    perform { w with failed := w.failed || failed } actions =
      { w.perform actions with failed := (w.perform actions).failed || failed } := by
  induction actions generalizing w with
  | done => rfl
  | write data rest ih =>
      have hinsert : insert { w with failed := w.failed || failed } data =
          { w.insert data with failed := (w.insert data).failed || failed } :=
        congrArg (fun f => ({ w.insert data with failed := f } : ByteOutputStreamWriter))
          (Bool.or_right_comm w.failed failed _)
      rw [perform, hinsert, ih]
      rfl
  | insertAt marker inserted rest _ ih =>
      exact ih (w.restoreState ((w.saveState marker).perform inserted))

/-- The range is in the memory, and the offset in the range. -/
structure ByteOutputStreamWriter.WellFormed (w : ByteOutputStreamWriter) : Prop where
  first : w.first ≤ w.last
  last : w.last ≤ w.memory.length
  offset : w.offset ≤ w.size

theorem ByteOutputStreamWriter.WellFormed.writes (h : w.WellFormed) (hfailed : w.failed = false) :
    Writes w (w.memory.take w.first) w.processed (between w.memory (w.first + w.offset) w.last)
      (w.memory.drop w.last) := by
  have hfirst := h.first
  have hlast := h.last
  have hoffset := h.offset
  unfold size at hoffset
  have hlengths : (w.memory.take w.first).length = w.first ∧ w.processed.length = w.offset ∧
      (between w.memory (w.first + w.offset) w.last).length = w.last - (w.first + w.offset) := by
    simp only [processed, between, List.length_take, List.length_drop]
    omega
  refine ⟨?_, hlengths.1.symm, ?_, hlengths.2.1.symm, hfailed⟩
  · have hfree : between w.memory (w.first + w.offset) w.last ++ w.memory.drop w.last =
        w.memory.drop (w.first + w.offset) := by
      have hsum : w.last = w.first + w.offset + (w.last - (w.first + w.offset)) := by omega
      calc between w.memory (w.first + w.offset) w.last ++ w.memory.drop w.last
        _ = (w.memory.drop (w.first + w.offset)).take (w.last - (w.first + w.offset)) ++
            (w.memory.drop (w.first + w.offset)).drop (w.last - (w.first + w.offset)) := by
          rw [between, List.drop_drop, ← hsum]
        _ = w.memory.drop (w.first + w.offset) := List.take_append_drop _ _
    rw [hfree, processed, between, Nat.add_sub_cancel_left, ← List.drop_drop,
      List.take_append_drop, List.take_append_drop]
  · rw [hlengths.1, hlengths.2.1, hlengths.2.2]
    omega

/-- The stream holds what it should hold. What the range does not cover is as it was, and there are as many bytes
more after each marker as were written. -/
structure ByteOutputStreamWriter.Performed (w : ByteOutputStreamWriter) (actions : Actions)
    (w' : ByteOutputStreamWriter) : Prop where
  processed : w'.processed = actions.text w.processed
  offset : w'.constructSaveMarker = w.constructSaveMarker + actions.written
  failed : w'.failed = w.failed
  range : w'.first = w.first ∧ w'.last = w.last
  outside : w'.memory.take w.first = w.memory.take w.first ∧ w'.memory.drop w.last = w.memory.drop w.last
  processedBytesSince : ∀ marker ≤ w.constructSaveMarker,
    w'.getProcessedBytesSince marker = w.getProcessedBytesSince marker + actions.written

theorem Writes.outside (h : Writes w before text free after) :
    w.memory.take w.first = before ∧ w.memory.drop w.last = after := by
  rw [h.memory, h.first, h.last]
  refine ⟨List.take_left, ?_⟩
  rw [← List.drop_drop, List.drop_left, ← List.append_assoc, ← List.length_append, List.drop_left]

theorem Writes.last_eq {w' : ByteOutputStreamWriter} {text' free' : List UInt8} (h : Writes w before text free after)
    (h' : Writes w' before text' free' after) (hlength : text'.length + free'.length = text.length + free.length) :
    w'.last = w.last := by
  calc w'.last = before.length + (text'.length + free'.length) := h'.last
    _ = before.length + (text.length + free.length) := by rw [hlength]
    _ = w.last := h.last.symm

theorem ByteOutputStreamWriter.WellFormed.performed_of_ok (h : w.WellFormed)
    (hfailed : w.failed = false) (hvalid : actions.Valid w.offset) (hroom : actions.written ≤ w.size - w.offset) :
    w.Performed actions (w.perform actions) := by
  have hw := h.writes hfailed
  have hoffset := hw.offset
  have hfree : (between w.memory (w.first + w.offset) w.last).length = w.size - w.offset := by
    have hlast := h.last
    simp only [between, List.length_take, List.length_drop, size]
    omega
  have hvalid' : actions.Valid w.processed.length := hoffset ▸ hvalid
  obtain ⟨free', hfree', hw'⟩ := hw.perform hvalid' (hfree ▸ hroom)
  have hlength := text_length hvalid'
  have hmarker : (w.perform actions).offset = w.offset + actions.written := by
    calc (w.perform actions).offset = (actions.text w.processed).length := hw'.offset
      _ = w.processed.length + actions.written := hlength
      _ = w.offset + actions.written := by rw [← hoffset]
  have hfirst := hw'.first.trans hw.first.symm
  have hlast := hw.last_eq hw' (by omega)
  obtain ⟨hbefore, hafter⟩ := hw'.outside
  rw [hfirst] at hbefore
  rw [hlast] at hafter
  refine ⟨hw'.processed, hmarker, hw'.failed.trans hfailed.symm, ⟨hfirst, hlast⟩, ⟨hbefore, hafter⟩, ?_⟩
  intro marker hle
  unfold constructSaveMarker at hle
  unfold getProcessedBytesSince
  omega

/-- The insertions fit in the range. -/
theorem ByteOutputStreamWriter.WellFormed.performed (h : w.WellFormed)
    (hvalid : actions.Valid w.offset) (hroom : actions.written ≤ w.size - w.offset) :
    w.Performed actions (w.perform actions) := by
  have hclear : ({ w with failed := false } : ByteOutputStreamWriter).WellFormed := { h with }
  have hok := hclear.performed_of_ok rfl hvalid hroom
  -- the policy of `w` may have failed before
  have hfailed : w.perform actions = { perform { w with failed := false } actions with
      failed := w.failed } := by
    have := perform_failed actions { w with failed := false } w.failed
    rwa [Bool.false_or, hok.failed, Bool.false_or] at this
  rw [hfailed]
  exact { hok with failed := rfl }

/-! ## Insertions in a string -/

namespace StringOutputStreamWriter

/-- A writer of the whole storage of the string. -/
def bytes (s : StringOutputStreamWriter) : ByteOutputStreamWriter where
  memory := s.string.range
  first := 0
  last := s.string.maxSize
  offset := s.string.length
  failed := s.failed

variable {s s' : StringOutputStreamWriter}

/-- In a string, as in its storage. -/
theorem insert_bytes (h : s.string.length ≤ s.string.maxSize) (data : List UInt8) :
    ∃ s', s.insert data = some s' ∧ s'.bytes = s.bytes.insert data := by
  have hsize : s.bytes.size - s.bytes.offset = s.available := rfl
  have hdata : (if decide (data.length ≤ s.available) = true then data else data.take s.available) =
      data.take s.available := by
    split
    · next hle => rw [List.take_of_length_le (of_decide_eq_true hle)]
    · rfl
  have hfits : s.string.length + (data.take s.available).length ≤ s.string.maxSize := by
    unfold available
    rw [List.length_take]
    omega
  have happend : s.string.append (data.take s.available) = some
      { range := copyTo s.string.range s.string.length (data.take s.available)
        length := s.string.length + (data.take s.available).length } := if_pos hfits
  have hposition : s.bytes.first + s.bytes.offset = s.string.length := Nat.zero_add _
  have hlength : (copyTo s.string.range s.string.length (data.take s.available)).length = s.string.maxSize := by
    unfold BoundedString.maxSize at *
    simp only [copyTo, List.length_append, List.length_take, List.length_drop] at hfits ⊢
    omega
  unfold insert
  dsimp only
  rw [hdata, happend, Option.map_some]
  refine ⟨_, rfl, ?_⟩
  unfold ByteOutputStreamWriter.insert bytes
  dsimp only
  rw [ByteOutputStreamWriter.mk.injEq]
  refine ⟨?_, rfl, hlength, rfl, rfl⟩
  rw [Nat.zero_add]
  rfl

/-- The rest of the storage becomes zeros. -/
theorem resize_maxSize (h : Writes s.bytes [] text free []) :
    ∃ range, s.string.resize s.string.maxSize = some { range := range, length := s.string.maxSize } ∧
      range = text ++ List.replicate free.length 0 := by
  have hmemory : s.string.range = text ++ free := by
    have := h.memory
    rwa [List.append_nil, List.nil_append] at this
  have hlength : s.string.length = text.length := h.offset
  have hmax : s.string.maxSize = text.length + free.length := by
    rw [BoundedString.maxSize, hmemory, List.length_append]
  refine ⟨_, if_pos (Nat.le_refl _), ?_⟩
  have hfill : copyTo s.string.range s.string.length
      (List.replicate (s.string.maxSize - s.string.length) 0) = text ++ List.replicate free.length 0 := by
    have hcount : s.string.maxSize - s.string.length = free.length := by omega
    rw [hcount, hmemory, ← List.append_nil free,
      copyTo_append text free [] hlength (by simp), List.append_nil]
  split
  · exact hfill
  · next hfull =>
      have hnil : free = [] := List.length_eq_zero_iff.mp (by omega)
      rw [hmemory, hnil]
      rfl

/-- The storage while the string takes all of it, as a range of memory in which the text stands. -/
def filled (s : StringOutputStreamWriter) (range : List UInt8) : ByteOutputStreamWriter :=
  { s.bytes with memory := range }

theorem saveState_bytes {marker : Nat} (h : Writes s.bytes [] text free []) (hmarker : marker ≤ text.length) :
    ∃ s₁ range, s.saveState marker = some (s₁, (s.filled range).saveState marker) ∧
      s₁.string.length = s.string.maxSize ∧ s₁.failed = s.failed ∧
      Writes (s.filled range) [] text (List.replicate free.length 0) [] := by
  obtain ⟨range, hresize, hrange⟩ := resize_maxSize h
  have hlength : s.string.length = text.length := h.offset
  have hlast : s.string.maxSize = text.length + free.length := by
    have := h.last
    rwa [List.length_nil, Nat.zero_add] at this
  have hfilled : Writes (s.filled range) [] text (List.replicate free.length 0) [] := by
    refine ⟨?_, rfl, ?_, h.offset, h.failed⟩
    · rw [List.append_nil, List.nil_append]
      exact hrange
    · rw [List.length_replicate]
      exact h.last
  have hdata : (between range marker s.string.length).length = s.string.length - marker := by
    rw [between, List.length_take, List.length_drop, hrange, List.length_append, List.length_replicate]
    omega
  refine ⟨{ s with string := ⟨copyTo range (s.string.maxSize - (s.string.length - marker))
    (between range marker s.string.length), s.string.maxSize⟩ }, range, ?_, rfl, rfl, hfilled⟩
  unfold saveState
  dsimp only
  rw [hresize, Option.map_some]
  unfold ByteOutputStreamWriter.saveState filled bytes
  dsimp only
  rw [Nat.zero_add, Nat.zero_add, hdata]

theorem restoreState_bytes {s₁ : StringOutputStreamWriter} {range front back inserted gap : List UInt8}
    {saved : ByteOutputStreamWriter} (hlength : s₁.string.length = s.string.maxSize) (hfailed : s₁.failed = s.failed)
    (h : Writes (s.filled range) [] text free []) (hfront : text = front ++ back)
    (hgap : inserted.length + gap.length = free.length) (hsaved : Writes saved front inserted gap (back ++ [])) :
    ∃ s' free', s₁.restoreState saved = some s' ∧ free'.length = gap.length ∧
      Writes s'.bytes [] (front ++ inserted ++ back) free' [] := by
  obtain ⟨free', hfree', hrestored⟩ := h.restoreState hfront hgap hsaved
  have hmax : s.string.maxSize = front.length + back.length + free.length := by
    have hlast : s.string.maxSize = [].length + (text.length + free.length) := h.last
    rw [hlast, hfront, List.length_nil, Nat.zero_add, List.length_append]
  have hfirst := hsaved.first
  have hoffset := hsaved.offset
  have hlast := hsaved.last
  have hmemory : copyTo saved.memory (saved.first + saved.offset)
      (between saved.memory saved.last s.string.maxSize) = front ++ inserted ++ back ++ free' := by
    have := hrestored.memory
    rwa [List.append_nil, List.nil_append] at this
  have hresize : s.string.maxSize - (saved.last - (saved.first + saved.offset)) = front.length + inserted.length +
      back.length := by omega
  refine ⟨{ s₁ with string := ⟨front ++ inserted ++ back ++ free', front.length + inserted.length + back.length⟩ },
    free', ?_, hfree', ?_⟩
  · unfold restoreState
    dsimp only
    rw [hlength, hmemory, hresize]
    have hfits : (BoundedString.resize ⟨front ++ inserted ++ back ++ free', s.string.maxSize⟩
        (front.length + inserted.length + back.length)) =
          some ⟨front ++ inserted ++ back ++ free', front.length + inserted.length + back.length⟩ := by
      have hroom : front.length + inserted.length + back.length ≤ (front ++ inserted ++ back ++ free').length := by
        simp only [List.length_append]
        omega
      have hshorter : ¬ front.length + inserted.length + back.length > s.string.maxSize := by omega
      refine (if_pos hroom).trans ?_
      dsimp only
      rw [if_neg hshorter]
    rw [hfits, Option.map_some]
  · refine ⟨?_, rfl, ?_, ?_, hfailed.trans h.failed⟩
    · rw [List.append_nil, List.nil_append]
      rfl
    · show (front ++ inserted ++ back ++ free').length = _
      rw [List.length_nil, Nat.zero_add, List.length_append]
    · show front.length + inserted.length + back.length = _
      rw [List.length_append, List.length_append]

/-- Whatever is done to the stream, it holds what it should hold when it has the room. -/
theorem perform_bytes (h : Writes s.bytes [] text free []) (hvalid : actions.Valid text.length)
    (hroom : actions.written ≤ free.length) :
    ∃ s' free', s.perform actions = some s' ∧ actions.written + free'.length = free.length ∧
      Writes s'.bytes [] (actions.text text) free' [] := by
  induction actions generalizing s text free with
  | done => exact ⟨s, free, rfl, Nat.zero_add _, h⟩
  | write data rest ih =>
      have hsum : data.length + rest.written ≤ free.length := hroom
      have hbytes := h.offset
      obtain ⟨s₁, hinsert, hs₁⟩ := insert_bytes (s := s) (by
        have hlast := h.last
        have hoffset := h.offset
        rw [List.length_nil, Nat.zero_add] at hlast
        unfold bytes at hlast hoffset
        dsimp only at hlast hoffset
        omega) data
      obtain ⟨free₁, hfree₁, hw₁⟩ := h.insert_of_le data (by omega)
      have hrest : rest.Valid (text ++ data).length := by
        rw [List.length_append]
        exact hvalid
      obtain ⟨s', free₂, hperform, hfree₂, hw₂⟩ := ih (hs₁ ▸ hw₁) hrest (by omega)
      refine ⟨s', free₂, ?_, ?_, hw₂⟩
      · rw [perform, hinsert, Option.bind_some, hperform]
      · unfold written
        omega
  | insertAt marker inserted rest _ ih =>
      obtain ⟨hmarker, hinserted, hrest⟩ := hvalid
      have hsum : inserted.written + rest.written ≤ free.length := hroom
      have hsplit : text = text.take marker ++ text.drop marker := (List.take_append_drop marker text).symm
      have hlength : (text.take marker).length = marker := List.length_take_of_le hmarker
      obtain ⟨s₁, range, hsave, hmax, hfailed, hfilled⟩ := saveState_bytes h hmarker
      -- the saved stream writes to a range of memory
      have hsaved : ∃ gap, gap.length = free.length ∧
          Writes ((s.filled range).saveState marker) (text.take marker) [] gap (text.drop marker ++ []) := by
        rw [hsplit] at hfilled
        have hsaved := hfilled.saveState
        rwa [hlength, List.length_replicate] at hsaved
      obtain ⟨gap, hgap, hsaved⟩ := hsaved
      obtain ⟨gap', hgap', hin⟩ := hsaved.perform hinserted (by omega)
      have hwritten : (inserted.text []).length = inserted.written := by
        rw [@text_length inserted [] hinserted, List.length_nil, Nat.zero_add]
      obtain ⟨s₂, free₁, hrestore, hfree₁, hw₁⟩ := restoreState_bytes hmax hfailed hfilled hsplit
        (by rw [List.length_replicate]; omega) hin
      have hmiddle : (text.take marker ++ inserted.text [] ++ text.drop marker).length =
          text.length + inserted.written := by
        simp only [List.length_append, List.length_take, List.length_drop, hwritten]
        omega
      obtain ⟨s', free₂, hperform, hfree₂, hw₂⟩ := ih hw₁ (hmiddle ▸ hrest) (by omega)
      refine ⟨s', free₂, ?_, ?_, hw₂⟩
      · rw [perform, hsave, Option.bind_some, hrestore, Option.bind_some, hperform]
      · unfold written
        omega

/-- The string holds what it should hold, and there are as many bytes more after each marker as were written. -/
structure Performed (s : StringOutputStreamWriter) (actions : Actions) (s' : StringOutputStreamWriter) : Prop where
  content : s'.string.content = actions.text s.string.content
  length : s'.constructSaveMarker = s.constructSaveMarker + actions.written
  failed : s'.failed = s.failed
  maxSize : s'.string.maxSize = s.string.maxSize
  processedBytesSince : ∀ marker ≤ s.constructSaveMarker,
    s'.getProcessedBytesSince marker = s.getProcessedBytesSince marker + actions.written

theorem performed_of_ok (hlength : s.string.length ≤ s.string.maxSize) (hfailed : s.failed = false)
    (hvalid : actions.Valid s.string.length) (hroom : actions.written ≤ s.available) :
    ∃ s', s.perform actions = some s' ∧ s.Performed actions s' := by
  have hcontent : s.string.content.length = s.string.length := by
    unfold BoundedString.maxSize at hlength
    rw [BoundedString.content, List.length_take]
    omega
  have hs : Writes s.bytes [] s.string.content (s.string.range.drop s.string.length) [] := by
    refine ⟨?_, rfl, ?_, hcontent.symm, hfailed⟩
    · rw [List.append_nil, List.nil_append, BoundedString.content, List.take_append_drop]
      rfl
    · rw [List.length_nil, Nat.zero_add, hcontent, List.length_drop]
      show s.string.maxSize = _
      unfold BoundedString.maxSize at hlength ⊢
      omega
  obtain ⟨s', free', hperform, hfree', hs'⟩ := perform_bytes hs (hcontent.symm ▸ hvalid)
    (by rw [List.length_drop]; exact hroom)
  have htext := text_length (hcontent.symm ▸ hvalid)
  have hlength' : s'.string.length = s.string.length + actions.written := by
    calc s'.string.length = (actions.text s.string.content).length := hs'.offset
      _ = s.string.content.length + actions.written := htext
      _ = s.string.length + actions.written := by rw [hcontent]
  have hmax : s'.string.maxSize = s.string.maxSize := by
    refine hs.last_eq hs' ?_
    rw [htext]
    omega
  have hrange : s'.string.range = actions.text s.string.content ++ free' := by
    have := hs'.memory
    rwa [List.append_nil, List.nil_append] at this
  refine ⟨s', hperform, ?_, hlength', hs'.failed.trans hfailed.symm, hmax, ?_⟩
  · have hoffset : s'.string.length = (actions.text s.string.content).length := hs'.offset
    rw [BoundedString.content, hrange, hoffset, List.take_left]
  · intro marker hle
    unfold constructSaveMarker at hle
    unfold getProcessedBytesSince
    omega

/-- The same stream, with a failure that was reported before. -/
def reported (s : StringOutputStreamWriter) (failed : Bool) : StringOutputStreamWriter :=
  { s with failed := s.failed || failed }

theorem insert_reported (s : StringOutputStreamWriter) (failed : Bool) (data : List UInt8) :
    (s.reported failed).insert data = (s.insert data).map (reported · failed) := by
  unfold insert
  dsimp only
  rw [Option.map_map]
  refine congrArg (Option.map · _) (funext fun string => ?_)
  exact congrArg (StringOutputStreamWriter.mk string) (Bool.or_right_comm s.failed failed _)

theorem saveState_reported (s : StringOutputStreamWriter) (failed : Bool) (marker : Nat) :
    (s.reported failed).saveState marker = (s.saveState marker).map fun saved => (saved.1.reported failed, saved.2) := by
  unfold saveState
  rw [Option.map_map]
  rfl

theorem restoreState_reported (s : StringOutputStreamWriter) (failed : Bool) (saved : ByteOutputStreamWriter) :
    (s.reported failed).restoreState saved = (s.restoreState saved).map (reported · failed) := by
  unfold restoreState
  dsimp only
  rw [Option.map_map]
  rfl

theorem perform_reported (actions : Actions) (s : StringOutputStreamWriter) (failed : Bool) :
    (s.reported failed).perform actions = (s.perform actions).map (reported · failed) := by
  induction actions generalizing s with
  | done => rfl
  | write data rest ih =>
      rw [perform, perform, insert_reported, Option.bind_map, Option.map_bind]
      exact congrArg (Option.bind _ ·) (funext fun w => ih w)
  | insertAt marker inserted rest _ ih =>
      rw [perform, perform, saveState_reported, Option.bind_map, Option.map_bind]
      refine congrArg (Option.bind _ ·) (funext fun saved => ?_)
      dsimp only [Function.comp]
      rw [restoreState_reported, Option.bind_map, Option.map_bind]
      exact congrArg (Option.bind _ ·) (funext fun w => ih w)

/-- The insertions fit in the string. -/
theorem performed (hlength : s.string.length ≤ s.string.maxSize)
    (hvalid : actions.Valid s.string.length) (hroom : actions.written ≤ s.available) :
    ∃ s', s.perform actions = some s' ∧ s.Performed actions s' := by
  obtain ⟨s', hperform, hs'⟩ := performed_of_ok (s := { s with failed := false }) hlength rfl hvalid hroom
  have hs : s = reported { s with failed := false } s.failed := by
    unfold reported
    rw [Bool.false_or]
  refine ⟨s'.reported s.failed, ?_, hs'.content, hs'.length, ?_, hs'.maxSize, hs'.processedBytesSince⟩
  · have hreported := perform_reported actions { s with failed := false } s.failed
    rw [← hs, hperform] at hreported
    exact hreported
  · unfold reported
    rw [hs'.failed, Bool.false_or]

end StringOutputStreamWriter

/-- **Inserting at saved markers**: what is written through a `SavedMarkerStream` stands between what was before
the marker and what was after it, and the write position and the bytes processed since every marker before grow by
what was written, in a range of memory and in a string. -/
theorem savedMarker_inserts (actions : Actions) :
    (∀ w : ByteOutputStreamWriter, w.WellFormed → actions.Valid w.offset → actions.written ≤ w.size - w.offset →
      w.Performed actions (w.perform actions)) ∧
    ∀ s : StringOutputStreamWriter, s.string.length ≤ s.string.maxSize → actions.Valid s.string.length →
      actions.written ≤ s.available → ∃ s', s.perform actions = some s' ∧ s.Performed actions s' :=
  ⟨fun _ hw hvalid hroom => hw.performed hvalid hroom, fun _ hs hvalid hroom =>
    StringOutputStreamWriter.performed hs hvalid hroom⟩

/-- The inner marker first: an insertion behind the third byte, and then one behind the first byte. -/
theorem savedMarker_inserts_nested :
    (let actions := insertAt 3 (write [7, 8] done)
        (insertAt 1 (write [9] done) done)
      let w : ByteOutputStreamWriter := { memory := [0, 1, 2, 3, 4, 5, 5, 5, 5], first := 1, last := 8, offset := 4 }
      let s : StringOutputStreamWriter := ⟨⟨[1, 2, 3, 4, 0, 0, 0, 0], 4⟩, false⟩
      actions.text [1, 2, 3, 4] = [1, 9, 2, 3, 7, 8, 4] ∧ w.Performed actions (w.perform actions) ∧
        ∃ s', s.perform actions = some s' ∧ s.Performed actions s') :=
  ⟨by decide,
    (savedMarker_inserts _).1 _ ⟨by decide, by decide, by decide⟩ ⟨by decide, trivial, by decide, trivial, trivial⟩
      (by decide),
    (savedMarker_inserts _).2 _ (by decide) ⟨by decide, trivial, by decide, trivial, trivial⟩ (by decide)⟩

end EmbeddedInfra.Streams
