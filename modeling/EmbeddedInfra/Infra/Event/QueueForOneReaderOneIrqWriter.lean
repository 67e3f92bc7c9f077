import Mathlib.Data.List.Range
import Mathlib.Tactic

set_option autoImplicit false

/-! # The queue of an interrupt

`infra::QueueForOneReaderOneIrqWriter` is a queue in a circular buffer: an interrupt adds elements at one
pointer, the reader takes them at the other. One element of the buffer stays free, so that a full queue differs
from an empty one.
-/

namespace EmbeddedInfra

/-- `QueueForOneReaderOneIrqWriter`; a pointer is the position in the buffer that it points to. `scheduled` counts the
calls of `DataAvailable` that wait in the event dispatcher. -/
structure QueueForOneReaderOneIrqWriter (T : Type) where
  buffer : List T
  contentsBegin : Nat := 0
  contentsEnd : Nat := 0
  notificationScheduled : Bool := false
  scheduled : Nat := 0
deriving DecidableEq, Repr

namespace QueueForOneReaderOneIrqWriter

variable {T : Type}

def empty (q : QueueForOneReaderOneIrqWriter T) : Bool := q.contentsBegin = q.contentsEnd

/-- `Full` for pointers that were loaded before, in a buffer of the size `bufferSize` -/
def fullBetween (bufferSize first last : Nat) : Bool :=
  (last = bufferSize - 1 ∨ first = last + 1) ∧ (last ≠ bufferSize - 1 ∨ first = 0)

def full (q : QueueForOneReaderOneIrqWriter T) : Bool := fullBetween q.buffer.length q.contentsBegin q.contentsEnd

def emptySize (bufferSize : Nat) : Nat := bufferSize - 1

/-- `Size`, for pointers that were loaded before -/
def sizeBetween (bufferSize first last : Nat) : Nat :=
  if fullBetween bufferSize first last then emptySize bufferSize
  else if first ≤ last then last - first
  else bufferSize - first + last

def size (q : QueueForOneReaderOneIrqWriter T) : Nat := sizeBetween q.buffer.length q.contentsBegin q.contentsEnd

def notifyDataAvailable (q : QueueForOneReaderOneIrqWriter T) : QueueForOneReaderOneIrqWriter T :=
  if q.empty then q
  else if q.notificationScheduled then q
  else { q with notificationScheduled := true, scheduled := q.scheduled + 1 }

/-- `AddFromInterrupt` of an element; there is no result when an assertion fails. -/
def addFromInterrupt (q : QueueForOneReaderOneIrqWriter T) (element : T) : Option (QueueForOneReaderOneIrqWriter T) :=
  if q.full then none
  else
    some (notifyDataAvailable { q with
      buffer := q.buffer.set q.contentsEnd element
      contentsEnd := if q.contentsEnd = q.buffer.length - 1 then 0 else q.contentsEnd + 1 })

/-- `std::copy` to a position of the buffer; there is no result when it leaves the buffer. -/
def copy (buffer : List T) (position : Nat) (data : List T) : Option (List T) :=
  if position + data.length ≤ buffer.length then
    some (buffer.take position ++ data ++ buffer.drop (position + data.length))
  else none

/-- `AddFromInterrupt` of a range. The result is the queue, and the positions in the buffer that were written. -/
def addRangeFromInterrupt (q : QueueForOneReaderOneIrqWriter T) (data : List T) :
    Option (QueueForOneReaderOneIrqWriter T × List Nat) :=
  let copySize := min data.length (q.buffer.length - q.contentsEnd)
  let first := q.contentsBegin
  if ¬ (first ≤ q.contentsEnd ∨ q.contentsEnd + copySize < first) then some (q, [])
  else do
    let buffer ← copy q.buffer q.contentsEnd (data.take copySize)
    let last := if q.contentsEnd = q.buffer.length - copySize then 0 else q.contentsEnd + copySize
    let rest := data.drop copySize
    if ¬ (first ≤ last ∨ last + rest.length < first) then none
    else
      let buffer ← copy buffer last rest
      return (notifyDataAvailable { q with buffer := buffer, contentsEnd := last + rest.length },
        List.range' q.contentsEnd copySize ++ List.range' last rest.length)

/-- The position of an element of the queue. -/
def index (q : QueueForOneReaderOneIrqWriter T) (i : Nat) : Nat :=
  if q.contentsBegin + i < q.buffer.length then q.contentsBegin + i else q.contentsBegin + i - q.buffer.length

/-- The positions that hold elements of the queue. -/
def occupied (q : QueueForOneReaderOneIrqWriter T) : List Nat := (List.range q.size).map q.index

/-- The elements, in the order in which they were added. -/
def contents (q : QueueForOneReaderOneIrqWriter T) : List T := q.occupied.filterMap (q.buffer[·]?)

variable {q q' : QueueForOneReaderOneIrqWriter T} {buffer : List T} {xs data : List T} {i j : Nat}

/-! ## What the queue holds -/

/-- The elements `xs` are in the queue. -/
structure Holds (q : QueueForOneReaderOneIrqWriter T) (xs : List T) : Prop where
  contentsBegin : q.contentsBegin < q.buffer.length
  room : xs.length < q.buffer.length
  contentsEnd : q.contentsEnd = q.index xs.length
  elements : ∀ i < xs.length, q.buffer[q.index i]? = xs[i]?

theorem index_lt (hq : q.contentsBegin < q.buffer.length) (hi : i < q.buffer.length) : q.index i < q.buffer.length := by
  unfold index
  split
  all_goals omega

theorem index_inj (hi : i < q.buffer.length) (hj : j < q.buffer.length)
    (h : q.index i = q.index j) : i = j := by
  unfold index at h
  split at h
  all_goals split at h
  all_goals omega

theorem fullBetween_iff {bufferSize first last : Nat} :
    fullBetween bufferSize first last = true ↔
      (last = bufferSize - 1 ∨ first = last + 1) ∧ (last ≠ bufferSize - 1 ∨ first = 0) := by
  simp only [fullBetween, decide_eq_true_eq]

/-- `Size` counts from the first pointer to the last one, around the end of the buffer. -/
theorem sizeBetween_eq {bufferSize first last : Nat} (hfirst : first < bufferSize) (hlast : last < bufferSize) :
    sizeBetween bufferSize first last = if first ≤ last then last - first else bufferSize - first + last := by
  unfold sizeBetween emptySize
  simp only [fullBetween_iff]
  split
  · split
    all_goals omega
  · rfl

theorem index_size (hq : q.contentsBegin < q.buffer.length) (hlast : q.contentsEnd < q.buffer.length) :
    q.index q.size = q.contentsEnd ∧ q.size < q.buffer.length := by
  rw [size, sizeBetween_eq hq hlast, index]
  split
  all_goals
    constructor
    · split
      all_goals omega
    · omega

theorem Holds.contentsEnd_lt (h : Holds q xs) : q.contentsEnd < q.buffer.length := by
  rw [h.contentsEnd]
  exact index_lt h.contentsBegin h.room

theorem Holds.size (h : Holds q xs) : q.size = xs.length := by
  obtain ⟨hindex, hsize⟩ := index_size h.contentsBegin h.contentsEnd_lt
  exact index_inj hsize h.room (hindex.trans h.contentsEnd)

theorem Holds.empty_iff (h : Holds q xs) : q.empty = true ↔ xs = [] := by
  have hbegin := h.contentsBegin
  have hroom := h.room
  have hend := h.contentsEnd
  rw [empty, decide_eq_true_eq, ← List.length_eq_zero_iff]
  unfold index at hend
  constructor
  · intro hempty
    split at hend
    all_goals omega
  · intro hnil
    split at hend
    all_goals omega

theorem Holds.full_iff (h : Holds q xs) : q.full = true ↔ xs.length = q.buffer.length - 1 := by
  have hbegin := h.contentsBegin
  have hroom := h.room
  have hend := h.contentsEnd
  rw [full, fullBetween_iff]
  unfold index at hend
  split at hend
  all_goals omega

theorem filterMap_positions (buffer : List T) {positions : List Nat} (h : ∀ p ∈ positions, p < buffer.length) :
    positions.map (buffer[·]?) = (positions.filterMap (buffer[·]?)).map some := by
  induction positions with
  | nil => rfl
  | cons p rest ih =>
      obtain ⟨hp, hrest⟩ := List.forall_mem_cons.mp h
      rw [List.map_cons, List.getElem?_eq_getElem hp, List.filterMap_cons_some (List.getElem?_eq_getElem hp),
        List.map_cons, ih hrest]

/-- A queue holds its contents. -/
theorem holds_contents (hq : q.contentsBegin < q.buffer.length) (hlast : q.contentsEnd < q.buffer.length) :
    Holds q q.contents := by
  obtain ⟨hindex, hsize⟩ := index_size hq hlast
  have hpositions : ∀ p ∈ q.occupied, p < q.buffer.length := by
    intro p hp
    obtain ⟨i, hi, rfl⟩ := List.mem_map.mp hp
    exact index_lt hq ((List.mem_range.mp hi).trans hsize)
  have hmap := filterMap_positions q.buffer hpositions
  have hlength : q.contents.length = q.size := by
    have := congrArg List.length hmap
    simp only [occupied, List.length_map, List.length_range] at this
    exact this.symm
  refine ⟨hq, hlength ▸ hsize, (hlength ▸ hindex).symm, ?_⟩
  intro i hi
  have hget : some q.buffer[q.index i]? = q.contents[i]?.map some := by
    have := congrArg (·[i]?) hmap
    simp only [occupied, List.getElem?_map, List.getElem?_range (hlength ▸ hi), Option.map_some] at this
    exact this
  rw [List.getElem?_eq_getElem hi] at hget ⊢
  exact Option.some.inj hget

/-- A queue holds nothing else than its contents. -/
theorem Holds.contents (h : Holds q xs) : q.contents = xs := by
  have hcontents := holds_contents h.contentsBegin h.contentsEnd_lt
  have hlength : q.contents.length = xs.length := hcontents.size.symm.trans h.size
  refine List.ext_getElem? fun i => ?_
  by_cases hi : i < xs.length
  · exact (hcontents.elements i (hlength ▸ hi)).symm.trans (h.elements i hi)
  · rw [List.getElem?_eq_none (by omega), List.getElem?_eq_none (by omega)]

/-! ## Adding a range -/

theorem copy_eq_some {position : Nat} (h : position + data.length ≤ buffer.length) :
    copy buffer position data = some (buffer.take position ++ data ++ buffer.drop (position + data.length)) :=
  if_pos h

theorem length_copy {position : Nat} {buffer' : List T} (h : copy buffer position data = some buffer') :
    buffer'.length = buffer.length := by
  unfold copy at h
  split at h
  · next hfits =>
      cases h
      simp only [List.length_append, List.length_take, List.length_drop]
      omega
  · cases h

theorem copy_getElem? {position : Nat} {buffer' : List T} (h : copy buffer position data = some buffer') (i : Nat) :
    buffer'[i]? = if position ≤ i ∧ i < position + data.length then data[i - position]? else buffer[i]? := by
  unfold copy at h
  split at h
  · next hfits =>
      cases h
      have htake : (buffer.take position).length = position := by
        rw [List.length_take]
        omega
      rw [List.append_assoc, List.getElem?_append, List.getElem?_append, htake]
      split
      · rw [List.getElem?_take_of_lt (by omega), if_neg (by omega)]
      · split
        · rw [if_pos (by omega)]
        · rw [if_neg (by omega), List.getElem?_drop]
          congr 1
          omega
  · cases h

theorem notifyDataAvailable_pointers (q : QueueForOneReaderOneIrqWriter T) :
    q.notifyDataAvailable.buffer = q.buffer ∧ q.notifyDataAvailable.contentsBegin = q.contentsBegin ∧
      q.notifyDataAvailable.contentsEnd = q.contentsEnd := by
  unfold notifyDataAvailable
  split
  · exact ⟨rfl, rfl, rfl⟩
  · split
    · exact ⟨rfl, rfl, rfl⟩
    · exact ⟨rfl, rfl, rfl⟩

/-- The elements of a queue depend on the buffer and the two pointers alone. -/
theorem Holds.congr (h : Holds q xs) (hbuffer : q'.buffer = q.buffer) (hbegin : q'.contentsBegin = q.contentsBegin)
    (hend : q'.contentsEnd = q.contentsEnd) : Holds q' xs := by
  have hindex : q'.index = q.index := by
    funext i
    simp only [index, hbuffer, hbegin]
  refine ⟨?_, ?_, ?_, ?_⟩
  · rw [hbegin, hbuffer]
    exact h.contentsBegin
  · rw [hbuffer]
    exact h.room
  · rw [hend, hindex]
    exact h.contentsEnd
  · rw [hbuffer, hindex]
    exact h.elements

theorem Holds.notifyDataAvailable (h : Holds q xs) : Holds q.notifyDataAvailable xs := by
  obtain ⟨hbuffer, hbegin, hend⟩ := notifyDataAvailable_pointers q
  exact h.congr hbuffer hbegin hend

theorem addRange_declined (hfirst : q.contentsEnd < q.contentsBegin) (hlast : q.contentsBegin < q.buffer.length)
    (hdata : q.contentsBegin ≤ q.contentsEnd + data.length) : q.addRangeFromInterrupt data = some (q, []) := by
  unfold addRangeFromInterrupt
  exact if_pos (by omega)

theorem addRange_onePiece (hfits : q.contentsEnd + data.length ≤ q.buffer.length)
    (hfirst : q.contentsBegin ≤ q.contentsEnd ∨ q.contentsEnd + data.length < q.contentsBegin) :
    ∃ buffer, copy q.buffer q.contentsEnd data = some buffer ∧
      q.addRangeFromInterrupt data =
        some (QueueForOneReaderOneIrqWriter.notifyDataAvailable { q with
          buffer := buffer
          contentsEnd := if q.contentsEnd + data.length = q.buffer.length then 0 else q.contentsEnd + data.length },
          List.range' q.contentsEnd data.length) := by
  have hsize : min data.length (q.buffer.length - q.contentsEnd) = data.length := by omega
  obtain ⟨buffer, hbuffer⟩ : ∃ buffer, copy q.buffer q.contentsEnd data = some buffer := ⟨_, copy_eq_some hfits⟩
  refine ⟨buffer, hbuffer, ?_⟩
  have hlast : (if q.contentsEnd = q.buffer.length - data.length then 0 else q.contentsEnd + data.length) =
      if q.contentsEnd + data.length = q.buffer.length then 0 else q.contentsEnd + data.length := by
    split
    · rw [if_pos (by omega)]
    · rw [if_neg (by omega)]
  have hnil : ∀ position ≤ buffer.length, copy buffer position [] = some buffer := by
    intro position hposition
    rw [copy_eq_some (by simpa using hposition)]
    simp
  unfold addRangeFromInterrupt
  simp only [hsize, hlast, List.take_length, List.drop_length, hbuffer, Option.bind_eq_bind, Option.bind_some]
  rw [if_neg (by omega), if_neg (by simp), hnil]
  · simp
  · rw [length_copy hbuffer]
    split
    all_goals omega

theorem addRange_twoPieces (hbuffer : q.contentsEnd < q.buffer.length)
    (hfirst : q.contentsBegin ≤ q.contentsEnd) (hmore : q.buffer.length < q.contentsEnd + data.length)
    (hroom : q.contentsBegin = 0 ∨ q.contentsEnd + data.length < q.buffer.length + q.contentsBegin)
    (hrest : q.contentsEnd + data.length ≤ 2 * q.buffer.length) :
    ∃ piece buffer, copy q.buffer q.contentsEnd (data.take (q.buffer.length - q.contentsEnd)) = some piece ∧
      copy piece 0 (data.drop (q.buffer.length - q.contentsEnd)) = some buffer ∧
      q.addRangeFromInterrupt data =
        some (QueueForOneReaderOneIrqWriter.notifyDataAvailable { q with
          buffer := buffer, contentsEnd := data.length - (q.buffer.length - q.contentsEnd) },
          List.range' q.contentsEnd (q.buffer.length - q.contentsEnd) ++
            List.range' 0 (data.length - (q.buffer.length - q.contentsEnd))) := by
  have hsize : min data.length (q.buffer.length - q.contentsEnd) = q.buffer.length - q.contentsEnd := by omega
  have hpiece : copy q.buffer q.contentsEnd (data.take (q.buffer.length - q.contentsEnd)) = some _ :=
    copy_eq_some (by rw [List.length_take]; omega)
  have hlast : (if q.contentsEnd = q.buffer.length - (q.buffer.length - q.contentsEnd) then 0
      else q.contentsEnd + (q.buffer.length - q.contentsEnd)) = 0 := if_pos (by omega)
  have hcopy : copy _ 0 (data.drop (q.buffer.length - q.contentsEnd)) = some _ :=
    copy_eq_some (by rw [length_copy hpiece, List.length_drop]; omega)
  refine ⟨_, _, hpiece, hcopy, ?_⟩
  unfold addRangeFromInterrupt
  simp only [hsize, hlast, hpiece, hcopy, Option.bind_eq_bind, Option.bind_some, List.length_drop]
  rw [if_neg (by omega), if_neg (by omega), Nat.zero_add]
  rfl

/-- Beyond the end of the buffer there is either an assertion or not enough room. -/
theorem addRange_fails (hbuffer : q.contentsEnd < q.buffer.length)
    (hfirst : q.contentsBegin ≤ q.contentsEnd) (hmore : q.buffer.length < q.contentsEnd + data.length)
    (hroom : q.contentsBegin ≠ 0 ∧ q.buffer.length + q.contentsBegin ≤ q.contentsEnd + data.length ∨
      2 * q.buffer.length < q.contentsEnd + data.length) : q.addRangeFromInterrupt data = none := by
  have hsize : min data.length (q.buffer.length - q.contentsEnd) = q.buffer.length - q.contentsEnd := by omega
  have hpiece : copy q.buffer q.contentsEnd (data.take (q.buffer.length - q.contentsEnd)) = some _ :=
    copy_eq_some (by rw [List.length_take]; omega)
  have hlast : (if q.contentsEnd = q.buffer.length - (q.buffer.length - q.contentsEnd) then 0
      else q.contentsEnd + (q.buffer.length - q.contentsEnd)) = 0 := if_pos (by omega)
  unfold addRangeFromInterrupt
  simp only [hsize, hlast, hpiece, Option.bind_eq_bind, Option.bind_some, List.length_drop]
  rw [if_neg (by omega)]
  split
  · rfl
  · next hassert =>
      have hnone : copy (q.buffer.take q.contentsEnd ++ data.take (q.buffer.length - q.contentsEnd) ++
          q.buffer.drop (q.contentsEnd + (data.take (q.buffer.length - q.contentsEnd)).length)) 0
          (data.drop (q.buffer.length - q.contentsEnd)) = none := by
        refine if_neg ?_
        rw [length_copy hpiece, List.length_drop]
        omega
      rw [hnone, Option.bind_none]

/-- What the queue holds after data were written behind its elements. -/
theorem Holds.append (h : Holds q xs) {buffer : List T} (hlength : buffer.length = q.buffer.length)
    (hroom : xs.length + data.length < q.buffer.length)
    (hold : ∀ i < xs.length, buffer[q.index i]? = q.buffer[q.index i]?)
    (hnew : ∀ k < data.length, buffer[q.index (xs.length + k)]? = data[k]?) :
    Holds { q with buffer := buffer, contentsEnd := q.index (xs.length + data.length) } (xs ++ data) := by
  have hindex : index { q with buffer := buffer, contentsEnd := q.index (xs.length + data.length) } = q.index := by
    funext i
    simp only [index, hlength]
  refine ⟨?_, ?_, ?_, ?_⟩
  · rw [hlength]
    exact h.contentsBegin
  · rw [hlength, List.length_append]
    exact hroom
  · rw [hindex, List.length_append]
  · intro i hi
    rw [hindex]
    rw [List.length_append] at hi
    by_cases hxs : i < xs.length
    · rw [List.getElem?_append_left hxs, hold i hxs, h.elements i hxs]
    · obtain ⟨k, rfl⟩ := Nat.exists_eq_add_of_le (Nat.le_of_not_lt hxs)
      rw [hnew k (by omega), List.getElem?_append_right (by omega)]
      congr 1
      omega

theorem Holds.mem_occupied (h : Holds q xs) {p : Nat} : p ∈ q.occupied ↔ ∃ i < xs.length, q.index i = p := by
  simp only [occupied, h.size, List.mem_map, List.mem_range]

/-- The two pointers: either the elements end before the end of the buffer, or they continue at its start. -/
theorem Holds.pointers (h : Holds q xs) : q.contentsEnd = q.contentsBegin + xs.length ∨
    q.contentsEnd < q.contentsBegin ∧ q.contentsEnd + q.buffer.length = q.contentsBegin + xs.length := by
  have hbegin := h.contentsBegin
  have hroom := h.room
  have hend := h.contentsEnd
  unfold index at hend
  split at hend
  · exact Or.inl hend
  · exact Or.inr (by omega)

/-- The free positions follow `contentsEnd`, around the end of the buffer. -/
theorem Holds.index_behind (h : Holds q xs) {k : Nat} (hk : xs.length + k < q.buffer.length) :
    q.index (xs.length + k) =
      if q.contentsEnd + k < q.buffer.length then q.contentsEnd + k else q.contentsEnd + k - q.buffer.length := by
  have hbegin := h.contentsBegin
  have hpointers := h.pointers
  unfold index
  split
  · rw [if_pos (by omega)]
    omega
  · split
    all_goals omega

/-- Positions that are written behind the elements do not hold one of them. -/
theorem index_ne_behind {k : Nat} (hk : xs.length + k < q.buffer.length) (hi : i < xs.length) : q.index i ≠ q.index (xs.length + k) := by
  intro heq
  have := index_inj (by omega) hk heq
  omega

/-- A range that fits is added behind the elements, in positions that were free. -/
theorem Holds.addRange (h : Holds q xs) (hroom : xs.length + data.length < q.buffer.length) :
    ∃ q' written, q.addRangeFromInterrupt data = some (q', written) ∧ Holds q' (xs ++ data) ∧
      ∀ p ∈ written, ∃ k < data.length, p = q.index (xs.length + k) := by
  have hbegin := h.contentsBegin
  have hlt := h.contentsEnd_lt
  have hpointers := h.pointers
  have hend := h.index_behind hroom
  have hbehind : ∀ k < data.length, q.index (xs.length + k) =
      if q.contentsEnd + k < q.buffer.length then q.contentsEnd + k else q.contentsEnd + k - q.buffer.length :=
    fun k hk => h.index_behind (by omega)
  have hfree : ∀ i < xs.length, ∀ k < data.length, q.index i ≠ q.index (xs.length + k) :=
    fun i hi k hk => index_ne_behind (by omega) hi
  by_cases hone : q.contentsEnd + data.length ≤ q.buffer.length
  · obtain ⟨buffer, hcopy, hadd⟩ := addRange_onePiece (q := q) hone (by omega)
    have hget := copy_getElem? hcopy
    have hlast : (if q.contentsEnd + data.length = q.buffer.length then 0 else q.contentsEnd + data.length) =
        q.index (xs.length + data.length) := by
      rw [hend]
      split
      · rw [if_neg (by omega)]
        omega
      · rw [if_pos (by omega)]
    rw [hlast] at hadd
    have hposition : ∀ k < data.length, q.index (xs.length + k) = q.contentsEnd + k := by
      intro k hk
      rw [hbehind k hk, if_pos (by omega)]
    refine ⟨_, _, hadd, (h.append (length_copy hcopy) hroom ?_ ?_).notifyDataAvailable, ?_⟩
    · intro i hi
      rw [hget, if_neg]
      rintro ⟨hge, hle⟩
      apply hfree i hi (q.index i - q.contentsEnd) (by omega)
      rw [hposition _ (by omega)]
      omega
    · intro k hk
      rw [hposition k hk, hget, if_pos (by omega)]
      congr 1
      omega
    · intro p hp
      obtain ⟨hge, hle⟩ := List.mem_range'_1.mp hp
      refine ⟨p - q.contentsEnd, by omega, ?_⟩
      rw [hposition _ (by omega)]
      omega
  · have hfirst : q.contentsBegin ≤ q.contentsEnd := by omega
    have hmore : q.buffer.length < q.contentsEnd + data.length := by omega
    obtain ⟨piece, buffer, hpiece, hcopy, hadd⟩ := addRange_twoPieces hlt hfirst hmore (by omega) (by omega)
    have hgetPiece := copy_getElem? hpiece
    have hget := copy_getElem? hcopy
    rw [List.length_take] at hgetPiece
    rw [List.length_drop] at hget
    have hlast : data.length - (q.buffer.length - q.contentsEnd) = q.index (xs.length + data.length) := by
      rw [hend, if_neg (by omega)]
      omega
    rw [hlast] at hadd
    refine ⟨_, _, hadd, (h.append ((length_copy hcopy).trans (length_copy hpiece)) hroom ?_ ?_).notifyDataAvailable,
      ?_⟩
    · intro i hi
      have hpos := index_lt (q := q) hbegin (i := i) (by omega)
      rw [hget, if_neg, hgetPiece, if_neg]
      · rintro ⟨hge, hle⟩
        apply hfree i hi (q.index i - q.contentsEnd) (by omega)
        rw [hbehind _ (by omega), if_pos (by omega)]
        omega
      · rintro ⟨hge, hle⟩
        apply hfree i hi (q.index i + q.buffer.length - q.contentsEnd) (by omega)
        rw [hbehind _ (by omega), if_neg (by omega)]
        omega
    · intro k hk
      rw [hbehind k hk]
      split
      · rw [hget, if_neg (by omega), hgetPiece, if_pos (by omega), List.getElem?_take_of_lt (by omega)]
        congr 1
        omega
      · rw [hget, if_pos (by omega), List.getElem?_drop]
        congr 1
        omega
    · intro p hp
      rcases List.mem_append.mp hp with hp | hp
      · obtain ⟨hge, hle⟩ := List.mem_range'_1.mp hp
        refine ⟨p - q.contentsEnd, by omega, ?_⟩
        rw [hbehind _ (by omega), if_pos (by omega)]
        omega
      · obtain ⟨-, hle⟩ := List.mem_range'_1.mp hp
        refine ⟨p + q.buffer.length - q.contentsEnd, by omega, ?_⟩
        rw [hbehind _ (by omega), if_neg (by omega)]
        omega

/-- The range is added as a whole or not at all, and no element of the queue is overwritten. -/
def AllOrNothing (q : QueueForOneReaderOneIrqWriter T) (data : List T) : Prop :=
  ∃ q' written, q.addRangeFromInterrupt data = some (q', written) ∧
    (q'.contents = q.contents ++ data ∨ q'.contents = q.contents) ∧ ∀ p ∈ written, p ∉ q.occupied

/-- A range that fits is added as a whole. -/
theorem Holds.allOrNothing_of_fits (h : Holds q q.contents)
    (hfits : q.contents.length + data.length < q.buffer.length) : AllOrNothing q data := by
  obtain ⟨q', written, hadd, hq', hwritten⟩ := h.addRange hfits
  refine ⟨q', written, hadd, Or.inl hq'.contents, ?_⟩
  intro p hp hold
  obtain ⟨k, hk, rfl⟩ := hwritten p hp
  obtain ⟨i, hi, heq⟩ := h.mem_occupied.mp hold
  exact index_ne_behind (by omega) hi heq

/-- A range that ends where the buffer of the queue ends, and the queue starts, leaves the queue empty. -/
theorem Holds.allOrNothing_upToEnd_iff (h : Holds q q.contents) (hfirst : q.contentsBegin = 0)
    (hdata : q.contentsEnd + data.length = q.buffer.length) : AllOrNothing q data ↔ q.contentsEnd = 0 := by
  have hbegin := h.contentsBegin
  have hpointers := h.pointers
  obtain ⟨buffer, hcopy, hadd⟩ := addRange_onePiece (q := q) (Nat.le_of_eq hdata) (by omega)
  rw [if_pos hdata] at hadd
  have hnil : Holds { q with buffer := buffer, contentsEnd := 0 } [] := by
    refine ⟨?_, ?_, ?_, ?_⟩
    · rw [length_copy hcopy]
      exact hbegin
    · rw [length_copy hcopy]
      exact Nat.zero_lt_of_lt hbegin
    · simp only [index, hfirst, List.length_nil, length_copy hcopy]
      rw [if_pos (by omega)]
    · intro i hi
      cases hi
  have hcontents := hnil.notifyDataAvailable.contents
  constructor
  · rintro ⟨q', written, heq, hlost, -⟩
    cases hadd.symm.trans heq
    rw [hcontents] at hlost
    have hempty : q.contents = [] := by
      rcases hlost with hlost | hlost
      · exact (List.append_eq_nil_iff.mp hlost.symm).1
      · exact hlost.symm
    rw [hempty, List.length_nil] at hpointers
    omega
  · intro hend
    have hempty : q.contents = [] := List.length_eq_zero_iff.mp (by omega)
    refine ⟨_, _, hadd, Or.inr (hcontents.trans hempty.symm), ?_⟩
    intro p _ hold
    obtain ⟨i, hi, -⟩ := h.mem_occupied.mp hold
    rw [hempty] at hi
    cases hi

/-- A queue that starts at the start of its buffer has as many elements as its end says, also when that lies
behind the buffer. -/
theorem contents_fromStart (hfirst : q.contentsBegin = 0) (hlast : 0 < q.contentsEnd)
    (hbuffer : q.contentsEnd ≤ q.buffer.length) :
    q.contents ≠ [] ∧ q.contents.length ≤ q.contentsEnd := by
  have hsize : q.size = q.contentsEnd := by
    unfold size sizeBetween emptySize
    simp only [fullBetween_iff, hfirst]
    split
    · omega
    · exact Nat.sub_zero _
  constructor
  · intro hnil
    obtain ⟨x, hx⟩ : ∃ x, q.buffer[0]? = some x := ⟨_, List.getElem?_eq_getElem (by omega)⟩
    have hmem : x ∈ q.contents := by
      refine List.mem_filterMap.mpr ⟨0, List.mem_map.mpr ⟨0, List.mem_range.mpr (by omega), ?_⟩, hx⟩
      simp only [index, hfirst]
      rw [if_pos (by omega)]
    rw [hnil] at hmem
    cases hmem
  · calc q.contents.length ≤ q.occupied.length := List.length_filterMap_le _ _
      _ = q.contentsEnd := by rw [occupied, List.length_map, List.length_range, hsize]

/-- A range that does not fit and continues at the start of the buffer fails, or overwrites elements, or loses
the first part of the range. -/
theorem Holds.not_allOrNothing_beyond (h : Holds q q.contents) (data : List T) (hfirst : q.contentsBegin ≤ q.contentsEnd)
    (hdata : q.buffer.length < q.contentsEnd + data.length)
    (hfits : q.buffer.length ≤ q.contents.length + data.length) : ¬ AllOrNothing q data := by
  have hlast := h.contentsEnd_lt
  have hpointers := h.pointers
  rintro ⟨q', written, heq, hkept, hwritten⟩
  by_cases hassert : q.contentsBegin ≠ 0 ∧ q.buffer.length + q.contentsBegin ≤ q.contentsEnd + data.length ∨
      2 * q.buffer.length < q.contentsEnd + data.length
  · have hnone := addRange_fails hlast hfirst hdata hassert
    cases hnone.symm.trans heq
  · have hzero : q.contentsBegin = 0 := by omega
    obtain ⟨piece, buffer, hpiece, hcopy, hadd⟩ := addRange_twoPieces hlast hfirst hdata
      (Or.inl hzero) (by omega)
    cases hadd.symm.trans heq
    by_cases hempty : q.contentsEnd = 0
    · have hnil : q.contents = [] := List.length_eq_zero_iff.mp (by omega)
      obtain ⟨hbuffer, hbegin, hend⟩ := notifyDataAvailable_pointers { q with
        buffer := buffer, contentsEnd := data.length - (q.buffer.length - q.contentsEnd) }
      dsimp only at hbuffer hbegin hend
      have hlength : buffer.length = q.buffer.length := (length_copy hcopy).trans (length_copy hpiece)
      obtain ⟨hne, hle⟩ := contents_fromStart (hbegin.trans hzero) (by rw [hend]; omega)
        (by rw [hend, hbuffer, hlength]; omega)
      rw [hend] at hle
      rcases hkept with hkept | hkept
      · rw [hkept, hnil, List.nil_append] at hle
        omega
      · exact hne (hkept.trans hnil)
    · -- the first element of the queue stands at the start of the buffer
      refine hwritten 0 (List.mem_append_right _ (List.mem_range'_1.mpr (by omega))) ?_
      refine h.mem_occupied.mpr ⟨0, by omega, ?_⟩
      simp only [index, hzero]
      rw [if_pos (by omega)]

/-- **A range is added as a whole or not at all** if and only if it fits, or the elements of the queue continue at
the start of the buffer, or the range covers the whole buffer of a queue that starts there and is empty. -/
theorem addRange_allOrNothing_iff (q : QueueForOneReaderOneIrqWriter T) (data : List T)
    (hbegin : q.contentsBegin < q.buffer.length) (hlast : q.contentsEnd < q.buffer.length) :
    AllOrNothing q data ↔
      q.size + data.length ≤ emptySize q.buffer.length ∨ q.contentsEnd < q.contentsBegin ∨
        q.contentsBegin = 0 ∧ q.contentsEnd = 0 ∧ data.length = q.buffer.length := by
  have h := holds_contents hbegin hlast
  have hsize := h.size
  have hpointers := h.pointers
  have hroom := h.room
  unfold emptySize
  by_cases hfits : q.size + data.length ≤ q.buffer.length - 1
  · exact ⟨fun _ => Or.inl hfits, fun _ => h.allOrNothing_of_fits (by omega)⟩
  · by_cases hwrapped : q.contentsEnd < q.contentsBegin
    · refine ⟨fun _ => Or.inr (Or.inl hwrapped), fun _ => ?_⟩
      exact ⟨q, [], addRange_declined hwrapped hbegin (by omega), Or.inr rfl, fun p hp => absurd hp List.not_mem_nil⟩
    · by_cases hone : q.contentsEnd + data.length ≤ q.buffer.length
      · rw [h.allOrNothing_upToEnd_iff (by omega) (by omega)]
        omega
      · have hbeyond := h.not_allOrNothing_beyond data (by omega) (by omega) (by omega)
        exact iff_of_false hbeyond (by omega)

/-- A queue of three elements, of which two are in it, takes two more: it is empty afterwards. -/
theorem addRange_loses : ¬ ∀ (q : QueueForOneReaderOneIrqWriter Nat) (data : List Nat),
    q.contentsBegin < q.buffer.length → q.contentsEnd < q.buffer.length → AllOrNothing q data := by
  intro hall
  have h := hall { buffer := [10, 11, 0, 0], contentsEnd := 2 } [12, 13] (by decide) (by decide)
  obtain ⟨q', written, heq, hkept, -⟩ := h
  have hadd : QueueForOneReaderOneIrqWriter.addRangeFromInterrupt { buffer := [10, 11, 0, 0], contentsEnd := 2 }
      [12, 13] = some ({ buffer := [10, 11, 12, 13], contentsEnd := 0 }, [2, 3]) := by decide
  cases hadd.symm.trans heq
  revert hkept
  decide

/-- The same queue takes one more element. -/
theorem addRange_allOrNothing_one :
    AllOrNothing ({ buffer := [10, 11, 0, 0], contentsEnd := 2 } : QueueForOneReaderOneIrqWriter Nat) [12] :=
  (addRange_allOrNothing_iff { buffer := [10, 11, 0, 0], contentsEnd := 2 } [12] (by decide) (by decide)).mpr
    (Or.inl (by decide))

end QueueForOneReaderOneIrqWriter

end EmbeddedInfra
