import Mathlib.Tactic

set_option autoImplicit false

/-! # ASN.1 sequences

`infra::Asn1Sequence` is a range of memory with values that come one after the other, each with a tag and a
length before its contents. An iterator has the range from its value on to the end of the sequence. Ranges
are compared by their pointers: the end of a sequence, which has the range of null pointers, does not equal
the empty range behind the last value.
-/

namespace EmbeddedInfra.Asn1

/-! ## Ranges of memory -/

/-- `infra::ConstByteRange`, two pointers; `none` is the null pointer. -/
structure ByteRange where
  beginElement : Option Nat := none
  endElement : Option Nat := none
deriving DecidableEq, Repr

/-- The bytes that can be read. -/
abbrev Memory := Nat → Option UInt8

namespace ByteRange

def empty (r : ByteRange) : Bool := r.beginElement = r.endElement

def size (r : ByteRange) : Nat := r.endElement.getD 0 - r.beginElement.getD 0

def front (memory : Memory) (r : ByteRange) : Option UInt8 := r.beginElement.bind memory

/-- `pop_front()`, with its assertion -/
def popFront (r : ByteRange) : Option ByteRange :=
  if 1 ≤ r.size then some { r with beginElement := r.beginElement.map (· + 1) } else none

/-- `infra::Head` -/
def head (r : ByteRange) (size : Nat) : ByteRange :=
  if size < r.size then { r with endElement := r.beginElement.map (· + size) } else r

/-- So many bytes from an address on, `none` when one of them cannot be read. -/
def bytesFrom (memory : Memory) (address : Nat) : Nat → Option (List UInt8)
  | 0 => some []
  | n + 1 => do
      let bytes ← bytesFrom memory address n
      let byte ← memory (address + n)
      return bytes ++ [byte]

def bytes (memory : Memory) (r : ByteRange) : Option (List UInt8) :=
  r.beginElement.bind fun address => bytesFrom memory address r.size

end ByteRange

open ByteRange

/-! ## Values and iterators -/

/-- `Asn1Value` -/
structure Asn1Value where
  tag : UInt8
  range : ByteRange
deriving DecidableEq, Repr

def makeValue (memory : Memory) (range : ByteRange) : Option Asn1Value := do
  let tag ← range.front memory
  let range ← range.popFront
  let length ← range.front memory
  let range ← range.popFront
  if length = 0x81 then
    let length ← range.front memory
    let range ← range.popFront
    return ⟨tag, range.head length.toNat⟩
  else if length = 0x82 then
    let high ← range.front memory
    let range ← range.popFront
    let low ← range.front memory
    let range ← range.popFront
    return ⟨tag, range.head (high.toNat * 256 + low.toNat)⟩
  else
    return ⟨tag, range.head length.toNat⟩

/-- `Asn1SequenceIterator` -/
structure Asn1SequenceIterator where
  range : ByteRange := {}
  currentValue : Asn1Value := ⟨0, {}⟩
deriving DecidableEq, Repr

namespace Asn1SequenceIterator

/-- The iterator of a range; it reads the first value. -/
def create (memory : Memory) (range : ByteRange) : Option Asn1SequenceIterator :=
  (makeValue memory range).map (⟨range, ·⟩)

/-- `operator==` -/
def equal (x y : Asn1SequenceIterator) : Bool := x.range = y.range

/-- `operator++` -/
def increment (memory : Memory) (it : Asn1SequenceIterator) : Option Asn1SequenceIterator :=
  if !it.currentValue.range.empty then
    let range : ByteRange := ⟨it.currentValue.range.endElement, it.range.endElement⟩
    if range.empty then some ⟨range, ⟨0, {}⟩⟩ else create memory range
  else some it

end Asn1SequenceIterator

open Asn1SequenceIterator

/-- `Asn1Sequence::begin()` -/
def sequenceBegin (memory : Memory) (range : ByteRange) : Option Asn1SequenceIterator :=
  create memory range

/-- `Asn1Sequence::end()` -/
def sequenceEnd : Asn1SequenceIterator := {}

/-- `it == sequence.end()` -/
def atSequenceEnd (it : Asn1SequenceIterator) : Bool := it.equal sequenceEnd

/-- The values from an iterator on, by increments, until the test for the end holds, `none` when it does not hold
after so many steps. -/
def valuesUntil (atEnd : Asn1SequenceIterator → Bool) (memory : Memory) :
    Nat → Asn1SequenceIterator → Option (List Asn1Value)
  | 0, _ => none
  | steps + 1, it =>
      if atEnd it then some []
      else do
        let next ← it.increment memory
        let values ← valuesUntil atEnd memory steps next
        return it.currentValue :: values

/-- The values that an iteration over the sequence visits. -/
def sequenceValues (memory : Memory) (range : ByteRange) (steps : Nat) : Option (List Asn1Value) :=
  (sequenceBegin memory range).bind (valuesUntil atSequenceEnd memory steps)

/-! ## What is in memory -/

/-- How a length is written. -/
inductive LengthForm
  | short
  | oneByte
  | twoBytes
deriving DecidableEq, Repr

def lengthBytes : LengthForm → Nat → List UInt8
  | .short, n => [UInt8.ofNat n]
  | .oneByte, n => [0x81, UInt8.ofNat n]
  | .twoBytes, n => [0x82, UInt8.ofNat (n / 256), UInt8.ofNat (n % 256)]

/-- The lengths that can be written so. -/
def LengthForm.fits : LengthForm → Nat → Prop
  | .short, n => n < 0x80
  | .oneByte, n => n < 0x100
  | .twoBytes, n => n < 0x10000

instance (form : LengthForm) (n : Nat) : Decidable (form.fits n) :=
  match form with
  | .short => inferInstanceAs (Decidable (n < 0x80))
  | .oneByte => inferInstanceAs (Decidable (n < 0x100))
  | .twoBytes => inferInstanceAs (Decidable (n < 0x10000))

/-- A value with its tag, its length in some form, and its contents. -/
structure Element where
  tag : UInt8
  form : LengthForm
  contents : List UInt8
  fits : form.fits contents.length

namespace Element

def header (x : Element) : List UInt8 := x.tag :: lengthBytes x.form x.contents.length

def encode (x : Element) : List UInt8 := x.header ++ x.contents

end Element

open Element

/-- The memory has these bytes from an address on. -/
def Holds (memory : Memory) : Nat → List UInt8 → Prop
  | _, [] => True
  | address, byte :: rest => memory address = some byte ∧ Holds memory (address + 1) rest

/-- The range has exactly these bytes. -/
inductive InRange (memory : Memory) : ByteRange → List UInt8 → Prop
  | null : InRange memory {} []
  | holds (address : Nat) (bytes : List UInt8) (h : Holds memory address bytes) :
      InRange memory ⟨some address, some (address + bytes.length)⟩ bytes

/-- The value has the tag and the contents of the element. -/
def Shows (memory : Memory) (value : Asn1Value) (x : Element) : Prop :=
  value.tag = x.tag ∧ value.range.bytes memory = some x.contents

/-- The iteration ends, and its values are these elements, one by one. -/
def Visits (memory : Memory) (range : ByteRange) (elements : List Element) : Prop :=
  ∃ steps values, sequenceValues memory range steps = some values ∧ List.Forall₂ (Shows memory) values elements

variable {memory : Memory} {address : Nat} {xs ys : List UInt8}

theorem holds_append : Holds memory address (xs ++ ys) ↔
    Holds memory address xs ∧ Holds memory (address + xs.length) ys := by
  induction xs generalizing address with
  | nil => simp [Holds]
  | cons byte xs ih =>
      rw [List.cons_append, Holds, Holds, ih, List.length_cons, and_assoc, Nat.add_assoc, Nat.add_comm 1]

theorem bytesFrom_eq (h : Holds memory address xs) : bytesFrom memory address xs.length = some xs := by
  induction xs using List.reverseRecOn with
  | nil => rfl
  | append_singleton xs byte ih =>
      obtain ⟨hxs, hbyte, -⟩ := holds_append.mp h
      rw [List.length_append, List.length_singleton, bytesFrom, ih hxs, hbyte]
      rfl

/-! ## The first value of a range -/

section First

variable {last : Nat}

theorem popFront_eq (h : address < last) :
    popFront ⟨some address, some last⟩ = some ⟨some (address + 1), some last⟩ := by
  rw [popFront, if_pos (by simp [size]; omega)]
  rfl

theorem head_eq {n : Nat} (h : address + n ≤ last) :
    head ⟨some address, some last⟩ n = ⟨some address, some (address + n)⟩ := by
  rw [head]
  by_cases hn : n < size ⟨some address, some last⟩
  · rw [if_pos hn]
    rfl
  · rw [if_neg hn]
    have hlast : last = address + n := by
      simp [size] at hn
      omega
    rw [hlast]

theorem toNat_ofNat {n : Nat} (h : n < 256) : (UInt8.ofNat n).toNat = n := by
  simpa using h

/-- The tag and the length of the first value are read. -/
theorem makeValue_eq {x : Element} (h : Holds memory address (x.encode ++ ys))
    (hlast : last = address + (x.encode ++ ys).length) :
    makeValue memory ⟨some address, some last⟩ = some ⟨x.tag,
      ⟨some (address + x.header.length), some (address + x.encode.length)⟩⟩ := by
  obtain ⟨tag, form, contents, hfits⟩ := x
  have hlength : ∀ header, (header ++ contents ++ ys : List UInt8).length
      = header.length + contents.length + ys.length := by
    intro header
    rw [List.length_append, List.length_append]
  have hne : ∀ n m : Nat, n < 128 → 128 ≤ m → m < 256 → UInt8.ofNat n ≠ UInt8.ofNat m := by
    intro n m hn hm hm' hc
    have hnat := congrArg UInt8.toNat hc
    rw [toNat_ofNat (by omega), toNat_ofNat hm'] at hnat
    omega
  cases form with
  | short =>
      have hn : contents.length < 0x80 := hfits
      have hnot81 : UInt8.ofNat contents.length ≠ 0x81 := hne _ 129 hn (by omega) (by omega)
      have hnot82 : UInt8.ofNat contents.length ≠ 0x82 := hne _ 130 hn (by omega) (by omega)
      simp only [encode, header, lengthBytes, hlength, List.length_cons, List.length_nil] at hlast
      obtain ⟨htag, hbyte, -⟩ := h
      simp only [makeValue, front, Option.bind_some, Option.bind_eq_bind, htag, hbyte,
        popFront_eq (show address < last by omega), popFront_eq (show address + 1 < last by omega), hnot81, hnot82,
        if_false, toNat_ofNat (show contents.length < 256 by omega),
        head_eq (show address + 1 + 1 + contents.length ≤ last by omega)]
      simp [encode, header, lengthBytes]
      omega
  | oneByte =>
      have hn : contents.length < 0x100 := hfits
      simp only [encode, header, lengthBytes, hlength, List.length_cons, List.length_nil] at hlast
      obtain ⟨htag, hform, hbyte, -⟩ := h
      simp only [makeValue, front, Option.bind_some, Option.bind_eq_bind, htag, hform, hbyte,
        popFront_eq (show address < last by omega), popFront_eq (show address + 1 < last by omega),
        popFront_eq (show address + 1 + 1 < last by omega), if_true, toNat_ofNat hn,
        head_eq (show address + 1 + 1 + 1 + contents.length ≤ last by omega)]
      simp [encode, header, lengthBytes]
      omega
  | twoBytes =>
      have hn : contents.length < 0x10000 := hfits
      simp only [encode, header, lengthBytes, hlength, List.length_cons, List.length_nil] at hlast
      obtain ⟨htag, hform, hhigh, hlow, -⟩ := h
      have hsum : contents.length / 256 * 256 + contents.length % 256 = contents.length := Nat.div_add_mod' _ 256
      simp only [makeValue, front, Option.bind_some, Option.bind_eq_bind, htag, hform, hhigh, hlow,
        popFront_eq (show address < last by omega), popFront_eq (show address + 1 < last by omega),
        popFront_eq (show address + 1 + 1 < last by omega), popFront_eq (show address + 1 + 1 + 1 < last by omega),
        if_true, if_neg (show (0x82 : UInt8) ≠ 0x81 by decide),
        toNat_ofNat (show contents.length / 256 < 256 by omega),
        toNat_ofNat (show contents.length % 256 < 256 by omega), hsum,
        head_eq (show address + 1 + 1 + 1 + 1 + contents.length ≤ last by omega)]
      simp [encode, header, lengthBytes]
      omega

end First

/-! ## Iterating -/

/-- An element has a header. -/
theorem Element.length_header_pos (x : Element) : 0 < x.header.length := by
  simp [header]

theorem Element.length_encode (x : Element) : x.encode.length = x.header.length + x.contents.length := by
  rw [encode, List.length_append]

/-- The range of a value has the contents of the element. -/
theorem shows_of_holds {x : Element} (h : Holds memory address (x.encode ++ ys)) :
    Shows memory ⟨x.tag, ⟨some (address + x.header.length), some (address + x.encode.length)⟩⟩ x := by
  have hcontents : Holds memory (address + x.header.length) x.contents := by
    rw [encode, List.append_assoc] at h
    exact (holds_append.mp (holds_append.mp h).2).1
  refine ⟨rfl, ?_⟩
  have hsize : size ⟨some (address + x.header.length), some (address + x.encode.length)⟩
      = x.contents.length := by
    simp [size, x.length_encode]
    omega
  rw [bytes, hsize]
  exact bytesFrom_eq hcontents

/-- The iterator at the first element of a range. -/
def iteratorAt (address : Nat) (x : Element) (ys : List UInt8) : Asn1SequenceIterator :=
  ⟨⟨some address, some (address + (x.encode ++ ys).length)⟩,
    ⟨x.tag, ⟨some (address + x.header.length), some (address + x.encode.length)⟩⟩⟩

theorem create_eq {x : Element} (h : Holds memory address (x.encode ++ ys)) :
    create memory ⟨some address, some (address + (x.encode ++ ys).length)⟩
      = some (iteratorAt address x ys) := by
  rw [create, makeValue_eq h rfl]
  rfl

/-- Behind contents that are not empty, an increment goes on to the rest of the range. -/
theorem increment_of_nonempty {x : Element} (hne : x.contents ≠ []) :
    (iteratorAt address x ys).increment memory =
      if ys = [] then
        some ⟨⟨some (address + x.encode.length), some (address + x.encode.length)⟩, ⟨0, {}⟩⟩
      else create memory
        ⟨some (address + x.encode.length), some (address + x.encode.length + ys.length)⟩ := by
  have hrange : x.header.length ≠ x.encode.length := by
    have hpos := List.length_pos_iff.mpr hne
    rw [x.length_encode]
    omega
  cases ys with
  | nil => simp [increment, iteratorAt, empty, hrange]
  | cons y ys => simp [increment, iteratorAt, empty, hrange, Nat.add_assoc]

theorem iteratorAt_not_empty (address : Nat) (x : Element) (ys : List UInt8) :
    (iteratorAt address x ys).range.empty = false := by
  have hpos := x.length_header_pos
  simp only [iteratorAt, empty, decide_eq_false_iff_not, Option.some.injEq, List.length_append,
    x.length_encode]
  omega

/-- **The increments visit every element**, up to the empty range behind the last one, as long as no contents
are empty. -/
theorem valuesUntil_empty {x : Element} {elements : List Element}
    (h : Holds memory address (x.encode ++ elements.flatMap encode))
    (hne : ∀ y ∈ x :: elements, y.contents ≠ []) :
    ∃ values, valuesUntil (fun it => it.range.empty) memory (elements.length + 2)
        (iteratorAt address x (elements.flatMap encode)) = some values ∧
      List.Forall₂ (Shows memory) values (x :: elements) := by
  induction elements generalizing address x with
  | nil =>
      refine ⟨[_], ?_, .cons (shows_of_holds h) .nil⟩
      rw [List.length_nil, valuesUntil, iteratorAt_not_empty, increment_of_nonempty (hne x List.mem_cons_self)]
      simp [valuesUntil, empty, iteratorAt]
  | cons y elements ih =>
      have hx := hne x List.mem_cons_self
      have hrest := (holds_append.mp h).2
      rw [List.flatMap_cons] at hrest ⊢
      obtain ⟨values, hvalues, hshows⟩ := ih hrest fun z hz => hne z (List.mem_cons_of_mem x hz)
      refine ⟨_ :: values, ?_, .cons (shows_of_holds h) hshows⟩
      have hys : y.encode ++ elements.flatMap encode ≠ [] := by
        simp [encode, header]
      rw [List.length_cons, valuesUntil, iteratorAt_not_empty, increment_of_nonempty hx, if_neg hys, create_eq hrest]
      simp only [Bool.false_eq_true, if_false, Option.bind_eq_bind, Option.bind_some, hvalues]
      rfl

/-! ## The end of a sequence -/

/-- The range of an iterator keeps its end, which is not a null pointer. -/
theorem increment_endElement {it next : Asn1SequenceIterator} (h : it.increment memory = some next) :
    next.range.endElement = it.range.endElement := by
  unfold increment at h
  split at h
  · dsimp only at h
    split at h
    · cases h
      rfl
    · obtain ⟨value, -, rfl⟩ := Option.map_eq_some_iff.mp h
      rfl
  · cases h
    rfl

/-- **No iterator reaches the end of a sequence.** -/
theorem valuesUntil_atSequenceEnd {it : Asn1SequenceIterator} (h : it.range.endElement ≠ none) (steps : Nat) :
    valuesUntil atSequenceEnd memory steps it = none := by
  induction steps generalizing it with
  | zero => rfl
  | succ steps ih =>
      have hnot : ¬ atSequenceEnd it = true := by
        intro hrange
        exact h (congrArg endElement (of_decide_eq_true hrange))
      rw [valuesUntil, if_neg hnot]
      cases hnext : it.increment memory with
      | none => rfl
      | some next =>
          have hend : next.range.endElement ≠ none := by rwa [increment_endElement hnext]
          simp only [Option.bind_eq_bind, Option.bind_some, ih hend]
          rfl

theorem not_visits {range : ByteRange} {elements : List Element} (h : range.endElement ≠ none) :
    ¬ Visits memory range elements := by
  rintro ⟨steps, values, hvalues, -⟩
  obtain ⟨it, hbegin, hvalues⟩ := Option.bind_eq_some_iff.mp hvalues
  unfold sequenceBegin create at hbegin
  obtain ⟨value, -, rfl⟩ := Option.map_eq_some_iff.mp hbegin
  rw [valuesUntil_atSequenceEnd h] at hvalues
  cases hvalues

/-- **Iteration never visits the elements of a range**: when it has begun, it does not come to the end. -/
theorem asn1Sequence_never_visits {range : ByteRange} {elements : List Element}
    (h : InRange memory range (elements.flatMap encode)) : ¬ Visits memory range elements := by
  generalize elements.flatMap encode = bytes at h
  cases h with
  | null =>
      -- there is not even a first value
      rintro ⟨steps, values, hvalues, -⟩
      cases hvalues
  | holds address bytes _ => exact not_visits (by simp)

/-- Bytes at the beginning of the memory. -/
def memoryOf (bytes : List UInt8) : Memory := fun address => bytes[address]?

/-- An integer of one byte. -/
def integerAB : Element := ⟨0x02, .short, [0xab], by decide⟩

theorem asn1Sequence_never_visits_integer :
    ¬ Visits (memoryOf [0x02, 0x01, 0xab]) ⟨some 0, some 3⟩ [integerAB] :=
  asn1Sequence_never_visits (InRange.holds 0 [0x02, 0x01, 0xab] ⟨rfl, rfl, rfl, trivial⟩)

/-- An increment goes on behind the only integer of a range, and this is not the end. -/
theorem asn1Sequence_passes_end :
    InRange (memoryOf [0x02, 0x01, 0xab]) ⟨some 0, some 3⟩ ([integerAB].flatMap encode) ∧
    ((sequenceBegin (memoryOf [0x02, 0x01, 0xab]) ⟨some 0, some 3⟩).bind
        (increment (memoryOf [0x02, 0x01, 0xab]))).map (fun it => (it.range, atSequenceEnd it))
      = some (⟨some 3, some 3⟩, false) ∧
    ¬ Visits (memoryOf [0x02, 0x01, 0xab]) ⟨some 0, some 3⟩ [integerAB] :=
  ⟨InRange.holds 0 [0x02, 0x01, 0xab] ⟨rfl, rfl, rfl, trivial⟩, by decide, not_visits (by simp)⟩

end EmbeddedInfra.Asn1
