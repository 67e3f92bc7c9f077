import Mathlib
import EmbeddedInfra.Infra.Stream.TextStreams
import EmbeddedInfra.Upgrade.SparseVector
import EmbeddedInfra.Upgrade.UpgradePack

set_option autoImplicit false

/-! # Intel HEX files

`application::BinaryObject` reads the lines of an Intel HEX file into a sparse vector, and `application::InputHex`
makes one range of bytes of it. A line is read by a text stream. That stream skips spaces in front of a number, ends a
number early at a character that is not a digit, and reads any character for the colon.
-/

namespace EmbeddedInfra.Upgrade

open TextStreams ConsecutiveRuns

/-- Why a file is not taken: the line exceptions with the number of the line, the exception of the sparse vector, the
assertion in records of type 4, and in records of type 2 an access behind the data. -/
inductive HexFailure
  | incorrectCrc (lineNumber : Nat)
  | noEndOfFile (lineNumber : Nat)
  | dataAfterEndOfFile (lineNumber : Nat)
  | unknownRecord (lineNumber : Nat)
  | recordTooShort (lineNumber : Nat)
  | recordTooLong (lineNumber : Nat)
  | overwrite (position : Nat)
  | assertion
  | readsPastEnd
  deriving DecidableEq

structure LineContents where
  recordType : UInt8
  address : UInt16
  data : List UInt8
  deriving DecidableEq

/-! ## Lines -/

/-- `stream >> infra::hex >> infra::Width(width)` and a number behind it, which has at most 16 bits. -/
def readHex (width : Nat) (stream : TextInputStream) : UInt64 × TextInputStream :=
  { stream with isDecimal := false, width := some width }.readUInt64

/-- The loop over the data. -/
def readData : Nat → TextInputStream → List UInt8 × TextInputStream
  | 0, stream => ([], stream)
  | size + 1, stream =>
      let byte := readHex 2 stream
      let rest := readData size byte.2
      (byte.1.toUInt8 :: rest.1, rest.2)

/-- The constructor of `LineContents`. The colon is read and not looked at. -/
def LineContents.ofLine (line : List UInt8) (lineNumber : Nat) : Except HexFailure LineContents :=
  let size := readHex 2 { remaining := line.tail, failed := line.isEmpty }
  let address := readHex 4 size.2
  let recordType := readHex 2 address.2
  let sum := size.1.toUInt8 + address.1.toUInt16.toUInt8 + (address.1.toUInt16 >>> 8).toUInt8 + recordType.1.toUInt8
  if recordType.2.failed then .error (.recordTooShort lineNumber)
  else
    let data := readData size.1.toUInt8.toNat recordType.2
    let checksum := readHex 2 data.2
    let sum := data.1.foldl (· + ·) sum + checksum.1.toUInt8
    if checksum.2.failed then .error (.recordTooShort lineNumber)
    else if sum ≠ 0 then .error (.incorrectCrc lineNumber)
    else if checksum.2.remaining ≠ [] then .error (.recordTooLong lineNumber)
    else .ok { recordType := recordType.1.toUInt8, address := address.1.toUInt16, data := data.1 }

/-! ## Files -/

structure BinaryObject where
  memory : SparseVector UInt8 := .empty
  endOfFile : Bool := false
  linearAddress : UInt32 := 0
  offset : UInt32 := 0
  deriving DecidableEq

/-- The loop of `InsertLineContents`, from an index on. -/
def insertFrom (address : UInt32) : Nat → List UInt8 → SparseVector UInt8 → Except HexFailure (SparseVector UInt8)
  | _, [], memory => .ok memory
  | i, byte :: data, memory =>
      match memory.insert byte (sizeAdd address.toNat i) with
      | none => .error (.overwrite (sizeAdd address.toNat i))
      | some memory => insertFrom address (i + 1) data memory

namespace BinaryObject

def insertLineContents (o : BinaryObject) (contents : LineContents) : Except HexFailure BinaryObject :=
  match insertFrom (o.linearAddress + o.offset + contents.address.toUInt32) 0 contents.data o.memory with
  | .error failure => .error failure
  | .ok memory => .ok { o with memory := memory }

/-- The bytes of a number of 16 bits, the high one first. -/
def highLow (high low : UInt8) : UInt32 := high.toUInt32 * 256 + low.toUInt32

/-- The `switch` of `AddLine`. -/
def addRecord (o : BinaryObject) (contents : LineContents) (lineNumber : Nat) : Except HexFailure BinaryObject :=
  match contents.recordType.toNat with
  | 0 => o.insertLineContents contents
  | 1 => .ok { o with endOfFile := true }
  | 2 =>
      match contents.data with
      | high :: low :: _ => .ok { o with linearAddress := highLow high low <<< 4 }
      | _ => .error .readsPastEnd
  | 3 => .ok o
  | 4 =>
      match contents.data with
      | [high, low] => .ok { o with linearAddress := highLow high low <<< 16 }
      | _ => .error .assertion
  | 5 => .ok o
  | _ => .error (.unknownRecord lineNumber)

def addLine (o : BinaryObject) (line : List UInt8) (lineNumber : Nat) : Except HexFailure BinaryObject :=
  if o.endOfFile then .error (.dataAfterEndOfFile lineNumber)
  else
    match LineContents.ofLine line lineNumber with
    | .error failure => .error failure
    | .ok contents => o.addRecord contents lineNumber

/-- The loop of `AddHex`, after as many lines. -/
def addLines (o : BinaryObject) : Nat → List (List UInt8) → Except HexFailure BinaryObject
  | _, [] => .ok o
  | lineNumber, [] :: lines => o.addLines (lineNumber + 1) lines
  | lineNumber, line :: lines =>
      match o.addLine line (lineNumber + 1) with
      | .error failure => .error failure
      | .ok o => o.addLines (lineNumber + 1) lines

def addHex (o : BinaryObject) (data : List (List UInt8)) (offset : UInt32) : Except HexFailure BinaryObject :=
  match addLines { o with linearAddress := 0, endOfFile := false, offset := offset } 0 data with
  | .error failure => .error failure
  | .ok o => if o.endOfFile then .ok o else .error (.noEndOfFile data.length)

end BinaryObject

open BinaryObject

/-- `InputHex::Linearize`, which aborts where there is no first element. Addresses are cut off to 32 bits. -/
def linearize (data : SparseVector UInt8) : Option (List UInt8 × UInt32) :=
  match data.iterate with
  | some (first :: others) =>
      let startAddress := UInt32.ofNat first.1
      let elements := (first :: others).map fun element => (UInt32.ofNat element.1, element.2)
      some (elements.foldl (InputHex.place startAddress) [], startAddress)
  | _ => none

/-! ## What is promised -/

/-- The bytes of pairs of hexadecimal digits. -/
def hexPairs : List UInt8 → Option (List UInt8)
  | [] => some []
  | [_] => none
  | c :: c' :: text => do
      let high ← hexValue c
      let low ← hexValue c'
      let bytes ← hexPairs text
      some (((high <<< 4) + low).toUInt8 :: bytes)

/-- A line of the format: a colon, and pairs of digits for the size, the address, the type, as many bytes as the size
says, and a checksum that makes the sum of all bytes zero. -/
def IsRecord (line : List UInt8) (record : LineContents) : Prop :=
  ∃ text size high low checksum, line = ':'.toUInt8 :: text ∧
    hexPairs text = some (size :: high :: low :: record.recordType :: (record.data ++ [checksum])) ∧
    record.data.length = size.toNat ∧ record.address.toNat = high.toNat * 256 + low.toNat ∧
    (size :: high :: low :: record.recordType :: (record.data ++ [checksum])).sum = 0 ∧
    record.recordType.toNat ≤ 5 ∧
    (record.recordType.toNat = 2 ∨ record.recordType.toNat = 4 → record.data.length = 2)

/-- There is a record of type 1, and no record comes behind one. -/
def EndsOnce (records : List LineContents) : Prop :=
  (records.Pairwise fun record _ => record.recordType.toNat ≠ 1) ∧ ∃ record ∈ records, record.recordType.toNat = 1

def nonEmpty (lines : List (List UInt8)) : List (List UInt8) := lines.filter fun line => !line.isEmpty

/-- A file of the format. -/
def IsFile (lines : List (List UInt8)) (records : List LineContents) : Prop :=
  List.Forall₂ IsRecord (nonEmpty lines) records ∧ EndsOnce records

/-- The base behind a record. -/
def LineContents.nextBase (record : LineContents) (base : UInt32) : UInt32 :=
  match record.recordType.toNat, record.data with
  | 2, high :: low :: _ => highLow high low <<< 4
  | 4, high :: low :: _ => highLow high low <<< 16
  | _, _ => base

/-- The data bytes of a record with their positions. The sum of base, offset and address has 32 bits, as each of
them. -/
def LineContents.bytesAt (record : LineContents) (address : UInt32) : List (Nat × UInt8) :=
  if record.recordType.toNat = 0 then pairs (address + record.address.toUInt32).toNat record.data else []

/-- The data bytes of all records. -/
def placed (offset : UInt32) : UInt32 → List LineContents → List (Nat × UInt8)
  | _, [] => []
  | base, record :: records => record.bytesAt (base + offset) ++ placed offset (record.nextBase base) records

/-- No position is given twice. -/
def GivenOnce (elements : List (Nat × UInt8)) : Prop := (elements.map Prod.fst).Nodup

/-- The memory holds these elements and no others; its iterators see them in order. -/
def HoldsExactly (memory : SparseVector UInt8) (elements : List (Nat × UInt8)) : Prop :=
  ∃ seen, memory.iterate = some seen ∧ seen.Perm elements ∧ seen.Pairwise fun pair pair' => pair.1 < pair'.1

/-- These bytes lie at the positions from the first one to the last one, and zeros in the gaps. -/
structure Fills (elements : List (Nat × UInt8)) (first last : Nat) (bytes : List UInt8) : Prop where
  bounds : ∀ element ∈ elements, first ≤ element.1 ∧ element.1 ≤ last
  firstGiven : first ∈ elements.map Prod.fst
  lastGiven : last ∈ elements.map Prod.fst
  length : bytes.length = last + 1 - first
  element : ∀ position byte, (position, byte) ∈ elements → bytes[position - first]? = some byte
  gap : ∀ position, first ≤ position → position ≤ last → position ∉ elements.map Prod.fst →
    bytes[position - first]? = some 0

/-- A range of bytes with its start address. -/
def IsRange (elements : List (Nat × UInt8)) (range : List UInt8 × UInt32) : Prop :=
  ∃ last, Fills elements range.2.toNat last range.1

/-- **What is promised of the lines of a file**: exactly the format is accepted and nothing behind a line is read; what
is accepted is in the memory, of which `Linearize` makes a range. -/
structure LoadsHex (lines : List (List UInt8)) (offset : UInt32) : Prop where
  accepts : (∃ o, addHex {} lines offset = .ok o) ↔
    ∃ records, IsFile lines records ∧ GivenOnce (placed offset 0 records)
  staysInside : addHex {} lines offset ≠ .error .readsPastEnd
  holds : ∀ o records, addHex {} lines offset = .ok o → IsFile lines records →
    HoldsExactly o.memory (placed offset 0 records)
  linearizes : ∀ o records, addHex {} lines offset = .ok o → IsFile lines records →
    placed offset 0 records ≠ [] → ∃ range, linearize o.memory = some range ∧ IsRange (placed offset 0 records) range

/-! ## What the code takes -/

/-- Digits, the first one first. -/
def valueOf (digits : List UInt8) : UInt64 :=
  digits.foldl (fun value c => (value <<< 4) + (hexValue c).getD 0) 0

/-- A number of at most `width` digits: spaces may stand in front of it, and it may be shorter where no digit
follows. -/
def IsNumber (width : Nat) (text : List UInt8) (value : UInt64) (rest : List UInt8) : Prop :=
  ∃ spaces digits, text = spaces ++ digits ++ rest ∧ (∀ c ∈ spaces, c = ' '.toUInt8) ∧
    (∀ c ∈ digits, hexValue c ≠ none) ∧ digits ≠ [] ∧ digits.length ≤ width ∧
    (digits.length = width ∨ ∀ c, rest.head? = some c → hexValue c = none) ∧ value = valueOf digits

/-- Numbers of two digits, one behind the other, for some bytes. -/
inductive AreBytes : List UInt8 → List UInt8 → List UInt8 → Prop
  | nil (text : List UInt8) : AreBytes text [] text
  | cons {text text' rest data : List UInt8} {value : UInt64} :
      IsNumber 2 text value text' → AreBytes text' data rest → AreBytes text (value.toUInt8 :: data) rest

/-- What is taken for a record: any character, and numbers behind it. -/
def IsLooseRecord (line : List UInt8) (record : LineContents) : Prop :=
  ∃ colon text size text₁ address text₂ recordType text₃ text₄ checksum, line = colon :: text ∧
    IsNumber 2 text size text₁ ∧ IsNumber 4 text₁ address text₂ ∧ IsNumber 2 text₂ recordType text₃ ∧
    size.toUInt8.toNat = record.data.length ∧ AreBytes text₃ record.data text₄ ∧ IsNumber 2 text₄ checksum [] ∧
    record.recordType = recordType.toUInt8 ∧ record.address = address.toUInt16 ∧
    size.toUInt8 + record.address.toUInt8 + (record.address >>> 8).toUInt8 + record.recordType + record.data.sum +
      checksum.toUInt8 = 0

/-- A type that is known, and as many bytes as it is asked for. -/
def Takes (record : LineContents) : Prop :=
  record.recordType.toNat ≤ 5 ∧ (record.recordType.toNat = 2 → 2 ≤ record.data.length) ∧
    (record.recordType.toNat = 4 → record.data.length = 2)

/-- Where a position is given again, the one in front of it has been given in between: a run ends at the position
then, and the vector does not notice. -/
def Unnoticed (elements : List (Nat × UInt8)) : Prop :=
  ∀ front position between back, elements.map Prod.fst = front ++ position :: (between ++ position :: back) →
    ∃ before ∈ between, before + 1 = position

/-- What is taken for a file. -/
def IsLooseFile (lines : List (List UInt8)) (records : List LineContents) : Prop :=
  List.Forall₂ IsLooseRecord (nonEmpty lines) records ∧ (∀ record ∈ records, Takes record) ∧ EndsOnce records

/-- The lines in front, none of which ends the file, are taken, and the vector notices nothing. -/
def ReachesLine (offset : UInt32) (front : List (List UInt8)) : Prop :=
  ∃ records, List.Forall₂ IsLooseRecord front records ∧
    (∀ record ∈ records, Takes record ∧ record.recordType.toNat ≠ 1) ∧ Unnoticed (placed offset 0 records)

/-- **The files that are loaded as promised**: where the lines are taken for a file, and all repetitions are unnoticed,
the lines are a file, there are no repetitions, and the bytes do not span the address space; and no line reached that
is taken for a record of type 2 has fewer than two bytes. -/
structure NoSlip (lines : List (List UInt8)) (offset : UInt32) : Prop where
  strict : ∀ records, IsLooseFile lines records → Unnoticed (placed offset 0 records) →
    IsFile lines records ∧ GivenOnce (placed offset 0 records) ∧
      ∀ element ∈ placed offset 0 records, ∀ element' ∈ placed offset 0 records, element'.1 + 1 < element.1 + 2 ^ 32
  twoBytes : ∀ front line back record, nonEmpty lines = front ++ line :: back → ReachesLine offset front →
    IsLooseRecord line record → record.recordType.toNat = 2 → 2 ≤ record.data.length

/-! ## Numbers -/

section Numbers

variable {width i : Nat} {value : UInt64} {text digits rest : List UInt8} {stream : TextInputStream}

/-- Where the digits end: there is room for none, or none follows. -/
theorem readDigits_of_digits (hdigits : ∀ c ∈ digits, hexValue c ≠ none) (hfirst : i = 0 → digits ≠ [])
    (hlength : i + digits.length ≤ width)
    (hend : i + digits.length = width ∨ ∀ c, rest.head? = some c → hexValue c = none) :
    readDigits hexValue (· <<< 4) (some width) i value (digits ++ rest) =
      (digits.foldl (fun (value : UInt64) c => (value <<< 4) + (hexValue c).getD 0) value, rest, false) := by
  induction digits generalizing i value with
  | nil =>
      have hi : i ≠ 0 := fun hzero => hfirst hzero rfl
      rcases rest with _ | ⟨c, rest⟩
      · simp [readDigits, hi]
      · rw [List.nil_append, readDigits]
        split_ifs with hmore
        · have hnone : hexValue c = none := by
            rcases hend with hfull | hend
            · rcases hmore with hne | hzero
              · exact absurd (congrArg some hfull) hne
              · exact absurd hzero hi
            · exact hend c rfl
          simp [hnone, hi]
        · rfl
  | cons c digits ih =>
      obtain ⟨digit, hdigit⟩ := Option.ne_none_iff_exists'.mp (hdigits c List.mem_cons_self)
      rw [List.length_cons] at hlength hend
      have hroom : some i ≠ some width ∨ i = 0 := by
        left
        rw [Ne, Option.some_inj]
        omega
      rw [List.cons_append, readDigits, if_pos hroom, hdigit, Option.elim_some,
        ih (fun c hc => hdigits c (List.mem_cons_of_mem _ hc)) (fun hzero => by omega) (by omega)
          (hend.imp_left fun hfull => by omega), List.foldl_cons, hdigit, Option.getD_some]

/-- Every text starts with digits, none of them maybe. -/
theorem exists_digits (text : List UInt8) (room : Nat) :
    ∃ digits rest, text = digits ++ rest ∧ (∀ c ∈ digits, hexValue c ≠ none) ∧ digits.length ≤ room ∧
      (digits.length = room ∨ ∀ c, rest.head? = some c → hexValue c = none) := by
  induction room generalizing text with
  | zero => exact ⟨[], text, rfl, by simp, le_rfl, Or.inl rfl⟩
  | succ room ih =>
      rcases text with _ | ⟨c, text⟩
      · exact ⟨[], [], rfl, by simp, by simp, Or.inr (by simp)⟩
      · by_cases hc : hexValue c = none
        · exact ⟨[], c :: text, rfl, by simp, by simp, Or.inr (by simpa using hc)⟩
        · obtain ⟨digits, rest, rfl, hdigits, hlength, hend⟩ := ih text
          refine ⟨c :: digits, rest, rfl, ?_, by simpa using hlength, ?_⟩
          · intro c' hc'
            rcases List.mem_cons.mp hc' with rfl | hc'
            · exact hc
            · exact hdigits c' hc'
          · exact hend.imp_left (by simp)

theorem readHex_eq : readHex width stream =
    let text := stream.remaining.dropWhile (· = ' '.toUInt8)
    let read := readDigits hexValue (· <<< 4) (some width) 0 0 text
    (read.1,
      { remaining := read.2.1, failed := stream.failed || text.isEmpty || read.2.2, isDecimal := false,
        width := some width }) := rfl

/-- **A number is read** up to what follows it. -/
theorem IsNumber.readHex (h : IsNumber width stream.remaining value rest) :
    (readHex width stream).1 = value ∧ (readHex width stream).2.remaining = rest ∧
      (readHex width stream).2.failed = stream.failed := by
  obtain ⟨spaces, digits, htext, hspaces, hdigits, hne, hlength, hend, rfl⟩ := h
  obtain ⟨c, digits', rfl⟩ := List.exists_cons_of_ne_nil hne
  have hc : ¬ c = ' '.toUInt8 := by
    rintro rfl
    exact hdigits _ List.mem_cons_self (by decide)
  have hdrop : stream.remaining.dropWhile (· = ' '.toUInt8) = c :: digits' ++ rest := by
    rw [htext, List.append_assoc, List.dropWhile_append_of_pos (by simpa using hspaces), List.cons_append,
      List.dropWhile_cons_of_neg (by simpa using hc)]
  have hread : readDigits hexValue (· <<< 4) (some width) 0 0 (c :: digits' ++ rest) =
      (valueOf (c :: digits'), rest, false) :=
    readDigits_of_digits hdigits (fun _ => hne) (by rwa [Nat.zero_add]) (by rwa [Nat.zero_add])
  rw [readHex_eq, hdrop]
  simp only [hread]
  simp

/-- Without a failure there was a number. -/
theorem isNumber_of_readHex (hwidth : 0 < width) (h : (readHex width stream).2.failed = false) :
    IsNumber width stream.remaining (readHex width stream).1 (readHex width stream).2.remaining := by
  obtain ⟨digits, rest, hdrop, hdigits, hlength, hend⟩ :=
    exists_digits (stream.remaining.dropWhile (· = ' '.toUInt8)) width
  have hne : digits ≠ [] := by
    rintro rfl
    have hend' := hend.resolve_left (by simpa using hwidth.ne)
    rw [List.nil_append] at hdrop
    rw [readHex_eq, hdrop] at h
    rcases rest with _ | ⟨c, rest⟩
    · simp at h
    · simp [readDigits, hend' c rfl] at h
  have hnumber : IsNumber width stream.remaining (valueOf digits) rest := by
    refine ⟨stream.remaining.takeWhile (· = ' '.toUInt8), digits, ?_, ?_, hdigits, hne, hlength, hend, rfl⟩
    · rw [List.append_assoc, ← hdrop, List.takeWhile_append_dropWhile]
    · intro c hc
      simpa using List.all_eq_true.mp List.all_takeWhile c hc
  obtain ⟨hvalue, hrest, -⟩ := hnumber.readHex
  rw [hvalue, hrest]
  exact hnumber

theorem failed_of_readHex (h : (readHex width stream).2.failed = false) : stream.failed = false := by
  rw [readHex_eq] at h
  simp only [Bool.or_eq_false_iff] at h
  exact h.1.1

end Numbers

/-! ## Lines that are taken -/

section Lines

variable {line text rest data : List UInt8} {stream : TextInputStream} {record : LineContents} {count lineNumber : Nat}

theorem AreBytes.readData (h : AreBytes text data rest) (htext : stream.remaining = text) :
    (readData data.length stream).1 = data ∧ (readData data.length stream).2.remaining = rest ∧
      (readData data.length stream).2.failed = stream.failed := by
  induction h generalizing stream with
  | nil text => exact ⟨rfl, htext, rfl⟩
  | cons hnumber _ ih =>
      subst htext
      obtain ⟨hvalue, hrest, hfailed⟩ := hnumber.readHex
      obtain ⟨hdata, hend, hfailed'⟩ := ih hrest
      rw [List.length_cons, Upgrade.readData]
      dsimp only
      rw [hvalue, hdata, hend, hfailed', hfailed]
      exact ⟨rfl, rfl, rfl⟩

/-- Without a failure there were bytes. -/
theorem areBytes_of_readData (h : (readData count stream).2.failed = false) :
    AreBytes stream.remaining (readData count stream).1 (readData count stream).2.remaining ∧
      (readData count stream).1.length = count ∧ stream.failed = false := by
  induction count generalizing stream with
  | zero => exact ⟨.nil _, rfl, h⟩
  | succ count ih =>
      obtain ⟨hbytes, hlength, hfailed⟩ := ih h
      exact ⟨.cons (isNumber_of_readHex Nat.zero_lt_two hfailed) hbytes, congrArg Nat.succ hlength,
        failed_of_readHex hfailed⟩

theorem foldl_add_eq (sum : UInt8) (data : List UInt8) : data.foldl (· + ·) sum = sum + data.sum := by
  induction data generalizing sum with
  | nil => simp
  | cons byte data ih => rw [List.foldl_cons, ih, List.sum_cons, UInt8.add_assoc]

/-- **What the constructor takes for a record**, and no more. -/
theorem ofLine_eq_ok_iff (hline : line ≠ []) :
    LineContents.ofLine line lineNumber = .ok record ↔ IsLooseRecord line record := by
  obtain ⟨colon, text, rfl⟩ := List.exists_cons_of_ne_nil hline
  unfold LineContents.ofLine
  constructor
  · intro h
    dsimp only at h
    split_ifs at h with hheader hfailed hsum hempty
    cases h
    rw [Bool.not_eq_true] at hheader hfailed
    rw [not_not] at hsum hempty
    have hchecksum := isNumber_of_readHex Nat.zero_lt_two hfailed
    obtain ⟨hdata, hlength, -⟩ := areBytes_of_readData (failed_of_readHex hfailed)
    have haddress := failed_of_readHex hheader
    rw [hempty] at hchecksum
    refine ⟨colon, text, _, _, _, _, _, _, _, _, rfl, isNumber_of_readHex Nat.zero_lt_two (failed_of_readHex haddress),
      isNumber_of_readHex (by omega) haddress, isNumber_of_readHex Nat.zero_lt_two hheader, hlength.symm, hdata,
      hchecksum, rfl, rfl, ?_⟩
    rwa [foldl_add_eq] at hsum
  · rintro ⟨colon', text', size, text₁, address, text₂, recordType, text₃, text₄, checksum, hcons, hsize, haddress,
      htype, hlength, hdata, hchecksum, hrecordType, hrecordAddress, hsum⟩
    cases hcons
    obtain ⟨hsizeRead, hrest₁, hfailed₁⟩ :=
      @IsNumber.readHex _ _ _ { remaining := text, failed := (colon :: text).isEmpty } hsize
    subst hrest₁
    obtain ⟨haddressRead, hrest₂, hfailed₂⟩ := haddress.readHex
    subst hrest₂
    obtain ⟨htypeRead, hrest₃, hfailed₃⟩ := htype.readHex
    obtain ⟨hdataRead, hrest₄, hfailed₄⟩ := hdata.readData hrest₃
    subst hrest₄
    obtain ⟨hchecksumRead, hrest₅, hfailed₅⟩ := hchecksum.readHex
    have hheader := hfailed₃.trans (hfailed₂.trans hfailed₁)
    have hfailed := hfailed₅.trans (hfailed₄.trans hheader)
    dsimp only [List.tail_cons]
    rw [hsizeRead, hlength, htypeRead, haddressRead, hdataRead, hchecksumRead, foldl_add_eq, ← hrecordType,
      ← hrecordAddress]
    rw [if_neg (by rw [hheader]; exact Bool.false_ne_true), if_neg (by rw [hfailed]; exact Bool.false_ne_true),
      if_neg (not_not.mpr hsum), if_neg (not_not.mpr hrest₅)]

end Lines

/-! ## Lines of the format -/

section Format

variable {line text rest bytes data : List UInt8} {record : LineContents} {c c' byte : UInt8} {digit high low : UInt64}

theorem hexValue_lt (h : hexValue c = some digit) : digit.toNat < 16 := by
  have hall : ∀ n : Fin 256, (hexValue (UInt8.ofNat n)).all (·.toNat < 16) = true := by decide +kernel
  have hc := hall ⟨c.toNat, c.toNat_lt⟩
  rw [UInt8.ofNat_toNat, h] at hc
  exact of_decide_eq_true hc

/-- As many digits as the width, and no spaces. -/
theorem isNumber_digits {digits : List UInt8} (hne : digits ≠ []) (hdigits : ∀ c ∈ digits, hexValue c ≠ none)
    (rest : List UInt8) : IsNumber digits.length (digits ++ rest) (valueOf digits) rest :=
  ⟨[], digits, rfl, by simp, hdigits, hne, le_rfl, Or.inl rfl, rfl⟩

/-- One pair of digits. -/
theorem hexPairs_cons (h : hexPairs text = some (byte :: bytes)) :
    ∃ c c' rest high low, text = c :: c' :: rest ∧ hexValue c = some high ∧ hexValue c' = some low ∧
      byte = ((high <<< 4) + low).toUInt8 ∧ hexPairs rest = some bytes := by
  match text with
  | [] => cases h
  | [_] => cases h
  | c :: c' :: rest =>
      simp only [hexPairs, Option.bind_eq_bind, Option.bind_eq_some_iff, Option.some_inj, List.cons.injEq] at h
      obtain ⟨high, hhigh, low, hlow, bytes', hbytes, rfl, rfl⟩ := h
      exact ⟨c, c', rest, high, low, rfl, hhigh, hlow, rfl, hbytes⟩

theorem hexPairs_nil (h : hexPairs text = some []) : text = [] := by
  match text with
  | [] => rfl
  | [_] => cases h
  | c :: c' :: rest => simp [hexPairs, Option.bind_eq_some_iff] at h

/-- A pair of digits is a number of two digits. -/
theorem isNumber_of_hexPairs (h : hexPairs text = some (byte :: bytes)) :
    ∃ value rest, IsNumber 2 text value rest ∧ value.toUInt8 = byte ∧ hexPairs rest = some bytes := by
  obtain ⟨c, c', rest, high, low, rfl, hhigh, hlow, rfl, hbytes⟩ := hexPairs_cons h
  refine ⟨valueOf [c, c'], rest, ?_, ?_, hbytes⟩
  · refine isNumber_digits (List.cons_ne_nil c [c']) ?_ rest
    simp [hhigh, hlow]
  · simp [valueOf, hhigh, hlow]

theorem toNat_shift_add {value : UInt64} (hvalue : value.toNat < 2 ^ 16) (hdigit : digit.toNat < 16) :
    ((value <<< 4) + digit).toNat = value.toNat * 16 + digit.toNat := by
  rw [UInt64.toNat_add, UInt64.toNat_shiftLeft, Nat.shiftLeft_eq]
  show (value.toNat * 16 % 2 ^ 64 + digit.toNat) % 2 ^ 64 = _
  omega

/-- Two pairs of digits are a number of four digits. -/
theorem isNumber_of_hexPairs_two {byte' : UInt8} (h : hexPairs text = some (byte :: byte' :: bytes)) :
    ∃ value rest, IsNumber 4 text value rest ∧ value.toNat = byte.toNat * 256 + byte'.toNat ∧
      hexPairs rest = some bytes := by
  obtain ⟨c₁, c₂, rest, d₁, d₂, rfl, h₁, h₂, rfl, hrest⟩ := hexPairs_cons h
  obtain ⟨c₃, c₄, rest', d₃, d₄, rfl, h₃, h₄, rfl, hbytes⟩ := hexPairs_cons hrest
  refine ⟨valueOf [c₁, c₂, c₃, c₄], rest', ?_, ?_, hbytes⟩
  · refine isNumber_digits (List.cons_ne_nil c₁ [c₂, c₃, c₄]) ?_ rest'
    simp [h₁, h₂, h₃, h₄]
  · have hlt₁ := hexValue_lt h₁
    have hlt₂ := hexValue_lt h₂
    have hlt₃ := hexValue_lt h₃
    have hlt₄ := hexValue_lt h₄
    have hhigh : ((d₁ <<< 4) + d₂).toNat = d₁.toNat * 16 + d₂.toNat := toNat_shift_add (by omega) hlt₂
    have hthree : ((((d₁ <<< 4) + d₂) <<< 4) + d₃).toNat = _ := toNat_shift_add (by omega) hlt₃
    have hfour : ((((((d₁ <<< 4) + d₂) <<< 4) + d₃) <<< 4) + d₄).toNat = _ := toNat_shift_add (by omega) hlt₄
    have hlow : ((d₃ <<< 4) + d₄).toNat = d₃.toNat * 16 + d₄.toNat := toNat_shift_add (by omega) hlt₄
    have hvalue : valueOf [c₁, c₂, c₃, c₄] = (((((d₁ <<< 4) + d₂) <<< 4) + d₃) <<< 4) + d₄ := by
      simp [valueOf, h₁, h₂, h₃, h₄]
    rw [hvalue, UInt64.toNat_toUInt8, UInt64.toNat_toUInt8]
    omega

/-- The data and the checksum behind it. -/
theorem areBytes_of_hexPairs (h : hexPairs text = some (data ++ bytes)) :
    ∃ rest, AreBytes text data rest ∧ hexPairs rest = some bytes := by
  induction data generalizing text with
  | nil => exact ⟨text, .nil text, h⟩
  | cons byte data ih =>
      obtain ⟨value, rest, hnumber, rfl, hbytes⟩ := isNumber_of_hexPairs h
      obtain ⟨rest', hdata, hrest⟩ := ih hbytes
      exact ⟨rest', .cons hnumber hdata, hrest⟩

/-- **A line of the format is taken** for its record. -/
theorem IsRecord.isLooseRecord (h : IsRecord line record) : IsLooseRecord line record ∧ Takes record := by
  obtain ⟨text, size, high, low, checksum, rfl, hpairs, hlength, haddress, hsum, htype, htwo⟩ := h
  obtain ⟨sizeValue, text₁, hsize, rfl, hpairs₁⟩ := isNumber_of_hexPairs hpairs
  obtain ⟨address, text₂, haddressNumber, haddressValue, hpairs₂⟩ := isNumber_of_hexPairs_two hpairs₁
  obtain ⟨recordType, text₃, htypeNumber, htypeValue, hpairs₃⟩ := isNumber_of_hexPairs hpairs₂
  obtain ⟨text₄, hdata, hpairs₄⟩ := areBytes_of_hexPairs hpairs₃
  obtain ⟨checksumValue, text₅, hchecksum, rfl, hpairs₅⟩ := isNumber_of_hexPairs hpairs₄
  have hend := hexPairs_nil hpairs₅
  subst hend
  have haddress' : record.address = address.toUInt16 := by
    rw [← UInt16.toNat_inj, haddress, UInt64.toNat_toUInt16, haddressValue]
    have hhigh := high.toNat_lt
    have hlow := low.toNat_lt
    omega
  have hlowByte : record.address.toUInt8 = low := by
    rw [← UInt8.toNat_inj, UInt16.toNat_toUInt8, haddress]
    have hlow := low.toNat_lt
    omega
  have hhighByte : (record.address >>> 8).toUInt8 = high := by
    rw [← UInt8.toNat_inj, UInt16.toNat_toUInt8, UInt16.toNat_shiftRight, haddress, Nat.shiftRight_eq_div_pow]
    show (high.toNat * 256 + low.toNat) / 256 % 256 = high.toNat
    have hhigh := high.toNat_lt
    have hlow := low.toNat_lt
    omega
  constructor
  · refine ⟨_, _, _, text₁, address, text₂, _, text₃, text₄, _, rfl, hsize, haddressNumber, htypeNumber, hlength.symm,
      hdata, hchecksum, htypeValue.symm, haddress', ?_⟩
    rw [hlowByte, hhighByte, ← hsum]
    simp only [List.sum_cons, List.sum_append, List.sum_nil]
    ac_rfl
  · exact ⟨htype, fun htwo' => (htwo (Or.inl htwo')).ge, fun hfour => htwo (Or.inr hfour)⟩

end Format

/-! ## Files that are taken -/

section Files

variable {o o' : BinaryObject} {memory memory' : SparseVector UInt8} {address : UInt32} {data line : List UInt8}
  {record : LineContents} {lines : List (List UInt8)} {i lineNumber : Nat} {atEnd : Bool}

/-- Insertions one after the other. -/
def insertAll (memory : SparseVector UInt8) : List (Nat × UInt8) → Option (SparseVector UInt8)
  | [] => some memory
  | element :: elements => (memory.insert element.2 element.1).bind fun memory => insertAll memory elements

theorem insertAll_append (memory : SparseVector UInt8) (elements elements' : List (Nat × UInt8)) :
    insertAll memory (elements ++ elements') =
      (insertAll memory elements).bind fun memory => insertAll memory elements' := by
  induction elements generalizing memory with
  | nil => rfl
  | cons element elements ih =>
      rw [List.cons_append, insertAll, insertAll, Option.bind_assoc]
      congr 1
      funext memory
      exact ih memory

theorem insertFrom_eq_ok_iff (hbound : i + data.length < 2 ^ 63) :
    insertFrom address i data memory = .ok memory' ↔
      insertAll memory (pairs (address.toNat + i) data) = some memory' := by
  induction data generalizing i memory with
  | nil => simp [insertFrom, pairs, insertAll]
  | cons byte data ih =>
      rw [List.length_cons] at hbound
      have haddress := address.toNat_lt
      have hposition : sizeAdd address.toNat i = address.toNat + i := SparseVector.sizeAdd_of_bounded (by omega)
      rw [insertFrom, pairs, insertAll, hposition]
      rcases memory.insert byte (address.toNat + i) with _ | memory
      · simp
      · exact ih (by omega)

theorem insertFrom_ne_readsPastEnd : insertFrom address i data memory ≠ .error .readsPastEnd := by
  induction data generalizing i memory with
  | nil => simp [insertFrom]
  | cons byte data ih =>
      rw [insertFrom]
      split
      · simp
      · exact ih

theorem IsLooseRecord.length_lt (h : IsLooseRecord line record) : record.data.length < 256 := by
  obtain ⟨-, -, size, -, -, -, -, -, -, -, -, -, -, -, hlength, -⟩ := h
  rw [← hlength]
  exact size.toUInt8.toNat_lt

/-- The object behind a record that is taken. -/
def BinaryObject.after (o : BinaryObject) (record : LineContents) (memory : SparseVector UInt8) : BinaryObject :=
  { o with
    memory := memory
    endOfFile := o.endOfFile || decide (record.recordType.toNat = 1)
    linearAddress := record.nextBase o.linearAddress }

theorem insertLineContents_cases (hlength : record.data.length < 256) :
    (o.insertLineContents record = .ok o' ↔
      ∃ memory, insertAll o.memory (pairs (o.linearAddress + o.offset + record.address.toUInt32).toNat record.data) =
        some memory ∧ o' = { o with memory := memory }) ∧
    o.insertLineContents record ≠ .error .readsPastEnd := by
  have hne : insertFrom (o.linearAddress + o.offset + record.address.toUInt32) 0 record.data o.memory ≠ _ :=
    insertFrom_ne_readsPastEnd
  have hinsert (memory' : SparseVector UInt8) :=
    @insertFrom_eq_ok_iff o.memory memory' (o.linearAddress + o.offset + record.address.toUInt32) record.data 0 (by omega)
  rw [Nat.add_zero] at hinsert
  simp only [← hinsert, insertLineContents]
  rcases hresult : insertFrom _ 0 record.data o.memory with failure | memory
  · rw [hresult] at hne
    simpa using hne
  · simp [eq_comm]

/-- One case for each type. -/
theorem addRecord_cases (hlength : record.data.length < 256) :
    (o.addRecord record lineNumber = .ok o' ↔ Takes record ∧
      ∃ memory, insertAll o.memory (record.bytesAt (o.linearAddress + o.offset)) = some memory ∧
        o' = o.after record memory) ∧
    (o.addRecord record lineNumber = .error .readsPastEnd ↔
      record.recordType.toNat = 2 ∧ record.data.length < 2) := by
  have hcases : record.recordType.toNat = 0 ∨ record.recordType.toNat = 1 ∨ record.recordType.toNat = 2 ∨
      record.recordType.toNat = 3 ∨ record.recordType.toNat = 4 ∨ record.recordType.toNat = 5 ∨
      6 ≤ record.recordType.toNat := by omega
  unfold addRecord after Takes LineContents.bytesAt LineContents.nextBase
  rcases hcases with h | h | h | h | h | h | h
  · obtain ⟨hok, hne⟩ := insertLineContents_cases (o := o) hlength
    simp only [h]
    rw [hok]
    exact ⟨by simp, by simpa using hne⟩
  · simp [h, insertAll, eq_comm]
  · match hdata : record.data with
    | [] => simp [h]
    | [_] => simp [h]
    | high :: low :: _ => simp [h, insertAll, eq_comm]
  · simp only [h]
    exact ⟨by simpa [insertAll] using eq_comm, by simp⟩
  · match hdata : record.data with
    | [] => simp [h]
    | [_] => simp [h]
    | [high, low] => simp [h, insertAll, eq_comm]
    | _ :: _ :: _ :: _ => simp [h]
  · simp only [h]
    exact ⟨by simpa [insertAll] using eq_comm, by simp⟩
  · obtain ⟨n, hn⟩ := Nat.exists_eq_add_of_le' h
    simp [hn]

theorem addLine_cases (hline : line ≠ []) (hopen : o.endOfFile = false) :
    (o.addLine line lineNumber = .ok o' ↔ ∃ record memory, IsLooseRecord line record ∧ Takes record ∧
      insertAll o.memory (record.bytesAt (o.linearAddress + o.offset)) = some memory ∧ o' = o.after record memory) ∧
    (o.addLine line lineNumber = .error .readsPastEnd ↔
      ∃ record, IsLooseRecord line record ∧ record.recordType.toNat = 2 ∧ record.data.length < 2) := by
  have hrecord (record : LineContents) := @ofLine_eq_ok_iff line record lineNumber hline
  unfold addLine
  rw [hopen, if_neg Bool.false_ne_true]
  simp only [← hrecord]
  rcases hresult : LineContents.ofLine line lineNumber with failure | record
  · have hfailure : failure ≠ .readsPastEnd := by
      rintro rfl
      simp only [LineContents.ofLine] at hresult
      split_ifs at hresult <;> cases hresult
    simpa using hfailure
  · have hlength := ((hrecord record).mp hresult).length_lt
    obtain ⟨hok, hpast⟩ := addRecord_cases (o := o) hlength
    constructor
    · rw [hok]
      simp only [Except.ok.injEq]
      constructor
      · rintro ⟨htakes, memory, hmemory, ho'⟩
        exact ⟨record, memory, rfl, htakes, hmemory, ho'⟩
      · rintro ⟨record, memory, rfl, htakes, hmemory, ho'⟩
        exact ⟨htakes, memory, hmemory, ho'⟩
    · rw [hpast]
      simp

theorem nonEmpty_cons {c : UInt8} : nonEmpty ((c :: line) :: lines) = (c :: line) :: nonEmpty lines := rfl

theorem placed_after (records : List LineContents) :
    insertAll o.memory (placed o.offset o.linearAddress (record :: records)) =
      (insertAll o.memory (record.bytesAt (o.linearAddress + o.offset))).bind fun memory =>
        insertAll (o.after record memory).memory
          (placed (o.after record memory).offset (o.after record memory).linearAddress records) :=
  insertAll_append _ _ _

/-- **The lines that are taken**: behind the end of the file there are none. -/
theorem addLines_ok_iff :
    (∃ o', o.addLines lineNumber lines = .ok o' ∧ o'.memory = memory ∧ o'.endOfFile = atEnd) ↔
      ∃ records, List.Forall₂ IsLooseRecord (nonEmpty lines) records ∧ (∀ record ∈ records, Takes record) ∧
        (o.endOfFile = true → records = []) ∧
        (records.Pairwise fun record _ => record.recordType.toNat ≠ 1) ∧
        insertAll o.memory (placed o.offset o.linearAddress records) = some memory ∧
        (atEnd = true ↔ o.endOfFile = true ∨ ∃ record ∈ records, record.recordType.toNat = 1) := by
  induction lines generalizing o lineNumber with
  | nil =>
      constructor
      · rintro ⟨o', ho', rfl, rfl⟩
        cases ho'
        exact ⟨[], .nil, by simp, by simp, .nil, rfl, by simp⟩
      · rintro ⟨records, hrecords, -, -, -, hmemory, hatEnd⟩
        cases hrecords
        cases hmemory
        exact ⟨o, rfl, rfl, Bool.eq_iff_iff.mpr (hatEnd.trans (by simp)).symm⟩
  | cons line lines ih =>
      rcases line with _ | ⟨c, line⟩
      · exact ih
      · rw [nonEmpty_cons]
        constructor
        · rintro ⟨o', ho', hmemory, hatEnd⟩
          simp only [addLines] at ho'
          split at ho'
          · cases ho'
          · rename_i o₁ hline
            have hopen : o.endOfFile = false := by
              rw [addLine] at hline
              split_ifs at hline with hclosed
              exact Bool.not_eq_true _ ▸ hclosed
            obtain ⟨record, memory₁, hloose, htakes, hmemory₁, rfl⟩ :=
              (addLine_cases (List.cons_ne_nil c line) hopen).1.mp hline
            obtain ⟨records, hrecords, hall, hclosed, hpairwise, hinsert, hend⟩ := ih.mp ⟨o', ho', hmemory, hatEnd⟩
            refine ⟨record :: records, .cons hloose hrecords, by simpa using ⟨htakes, hall⟩, by simp [hopen],
              List.pairwise_cons.mpr ⟨?_, hpairwise⟩, ?_, ?_⟩
            · intro record' hrecord' htype
              rw [hclosed (by simp [after, htype])] at hrecord'
              cases hrecord'
            · rw [placed_after, hmemory₁]
              exact hinsert
            · simpa [after, hopen] using hend
        · rintro ⟨records, hrecords, hall, hclosed, hpairwise, hinsert, hend⟩
          rcases hrecords with _ | ⟨hloose, hrecords⟩
          rename_i record records
          have hopen : o.endOfFile = false := by
            by_contra hne
            cases hclosed (by simpa using hne)
          rw [placed_after, Option.bind_eq_some_iff] at hinsert
          obtain ⟨memory₁, hmemory₁, hinsert⟩ := hinsert
          have hline := (@addLine_cases _ _ _ (lineNumber + 1) (List.cons_ne_nil c line) hopen).1.mpr
            ⟨record, memory₁, hloose, hall record List.mem_cons_self, hmemory₁, rfl⟩
          simp only [addLines, hline]
          refine ih.mpr ⟨records, hrecords, fun record hrecord => hall record (List.mem_cons_of_mem _ hrecord), ?_,
            hpairwise.of_cons, hinsert, by simpa [after, hopen] using hend⟩
          intro hafter
          have htype : record.recordType.toNat = 1 := by simpa [after, hopen] using hafter
          refine List.eq_nil_iff_forall_not_mem.mpr fun record' hrecord' => ?_
          exact List.rel_of_pairwise_cons hpairwise hrecord' htype

/-- **When something behind a line is read**: a line is reached that is taken for a record of type 2, and is too
short. -/
theorem addLines_readsPastEnd_iff :
    o.addLines lineNumber lines = .error .readsPastEnd ↔
      o.endOfFile = false ∧ ∃ front line back records record, nonEmpty lines = front ++ line :: back ∧
        List.Forall₂ IsLooseRecord front records ∧
        (∀ record ∈ records, Takes record ∧ record.recordType.toNat ≠ 1) ∧
        insertAll o.memory (placed o.offset o.linearAddress records) ≠ none ∧
        IsLooseRecord line record ∧ record.recordType.toNat = 2 ∧ record.data.length < 2 := by
  induction lines generalizing o lineNumber with
  | nil => simp [addLines, nonEmpty]
  | cons line lines ih =>
      rcases line with _ | ⟨c, line⟩
      · exact ih
      · rw [nonEmpty_cons]
        rcases hopen : o.endOfFile with _ | _
        · have hcases (o' : BinaryObject) :=
            @addLine_cases _ o' _ (lineNumber + 1) (List.cons_ne_nil c line) hopen
          simp only [addLines]
          constructor
          · intro h
            refine ⟨trivial, ?_⟩
            split at h
            · rename_i failure hline
              rw [h] at hline
              obtain ⟨record, hloose, htype, hlength⟩ := (hcases o).2.mp hline
              exact ⟨[], _, _, [], record, rfl, .nil, by simp, by simp [placed, insertAll], hloose, htype, hlength⟩
            · rename_i o₁ hline
              obtain ⟨record₁, memory₁, hloose₁, htakes₁, hmemory₁, rfl⟩ := (hcases o₁).1.mp hline
              obtain ⟨hafter, front, line', back, records, record, hlines, hrecords, hall, hinsert, hrest⟩ := ih.mp h
              refine ⟨(c :: line) :: front, line', back, record₁ :: records, record, by rw [hlines]; rfl,
                .cons hloose₁ hrecords, ?_, ?_, hrest⟩
              · intro record' hrecord'
                rcases List.mem_cons.mp hrecord' with rfl | hrecord'
                · exact ⟨htakes₁, by simpa [after, hopen] using hafter⟩
                · exact hall record' hrecord'
              · rw [placed_after, hmemory₁]
                exact hinsert
          · rintro ⟨-, front, line', back, records, record, hlines, hrecords, hall, hinsert, hrest⟩
            rcases hrecords with _ | ⟨hloose₁, hrecords⟩
            · cases hlines
              rw [(hcases o).2.mpr ⟨record, hrest⟩]
            · rename_i line₁ record₁ front records
              rw [List.cons_append] at hlines
              obtain ⟨rfl, hback⟩ := List.cons.inj hlines
              obtain ⟨htakes₁, htype₁⟩ := hall record₁ List.mem_cons_self
              rw [placed_after] at hinsert
              obtain ⟨memory, hmemory⟩ := Option.ne_none_iff_exists'.mp hinsert
              obtain ⟨memory₁, hmemory₁, hinsert⟩ := Option.bind_eq_some_iff.mp hmemory
              rw [(hcases (o.after record₁ memory₁)).1.mpr ⟨record₁, memory₁, hloose₁, htakes₁, hmemory₁, rfl⟩]
              refine ih.mpr ⟨by simpa [after, hopen] using htype₁, front, line', back, records, record,
                hback, hrecords, fun record hrecord => hall record (List.mem_cons_of_mem _ hrecord), ?_, hrest⟩
              rw [hinsert]
              exact Option.some_ne_none memory
        · simp [addLines, addLine, hopen]

end Files

/-! ## The memory -/

section Memory

variable {memory : SparseVector UInt8} {elements seen others : List (Nat × UInt8)} {first last position : Nat}
  {byte : UInt8} {bytes : List UInt8} {startAddress : UInt32} {records : List LineContents}

theorem bounded_of_lt {runs : List (Run UInt8)} (hspaced : Spaced 0 runs)
    (hlt : ∀ pair ∈ contents runs, pair.1 < 2 ^ 33) : SparseVector.Bounded runs := by
  intro run hrun
  have hlength := List.length_pos_of_ne_nil (hspaced.nonempty run hrun)
  obtain ⟨element, hmem⟩ := @mem_contents_of_lt _ _ _ (run.1 + run.2.length - 1) hrun (by omega) (by omega)
  have hbound := hlt _ hmem
  dsimp only at hbound
  omega

/-- Elements at positions of their own are all inserted. -/
theorem insertAll_of_nodup (hspaced : Spaced 0 memory.buckets)
    (honce : GivenOnce (elements ++ contents memory.buckets))
    (hlt : ∀ element ∈ elements ++ contents memory.buckets, element.1 < 2 ^ 33) :
    ∃ memory', insertAll memory elements = some memory' ∧ Spaced 0 memory'.buckets ∧
      (contents memory'.buckets).Perm (elements ++ contents memory.buckets) := by
  induction elements generalizing memory with
  | nil => exact ⟨memory, rfl, hspaced, .refl _⟩
  | cons element elements ih =>
      have hbounded := bounded_of_lt hspaced fun pair hpair =>
        hlt pair (List.mem_append_right (element :: elements) hpair)
      have hnot : ∀ pair ∈ contents memory.buckets, pair.1 ≠ element.1 := by
        rintro pair hpair hsame
        rw [GivenOnce, List.cons_append, List.map_cons, List.nodup_cons, ← hsame] at honce
        exact honce.1 (List.mem_map_of_mem (List.mem_append_right elements hpair))
      obtain ⟨runs, hinsert, hspaced', hperm⟩ :=
        SparseVector.insert_of_not_mem hspaced hbounded (Nat.zero_le 1) hnot
          fun hone => (nomatch hone)
      have hmiddle : (elements ++ contents runs).Perm (element :: elements ++ contents memory.buckets) :=
        (hperm.append_left elements).trans List.perm_middle
      obtain ⟨memory', hall, hspaced'', hperm'⟩ := ih hspaced'
        ((hmiddle.map Prod.fst).nodup_iff.mpr honce) fun pair hpair => hlt pair (hmiddle.mem_iff.mp hpair)
      refine ⟨memory', ?_, hspaced'', hperm'.trans hmiddle⟩
      rw [insertAll, show memory.insert element.2 element.1 = some { buckets := runs } from hinsert, Option.bind_some]
      exact hall

theorem placed_lt (offset base : UInt32) (hlength : ∀ record ∈ records, record.data.length < 256) :
    ∀ element ∈ placed offset base records, element.1 < 2 ^ 33 := by
  induction records generalizing base with
  | nil => simp [placed]
  | cons record records ih =>
      intro element helement
      rw [placed, List.mem_append] at helement
      rcases helement with hhere | hthere
      · rw [LineContents.bytesAt] at hhere
        split_ifs at hhere
        · obtain ⟨hle, hdata⟩ := mem_pairs.mp hhere
          obtain ⟨hindex, -⟩ := List.getElem?_eq_some_iff.mp hdata
          have haddress := (base + offset + record.address.toUInt32).toNat_lt
          have hdata := hlength record List.mem_cons_self
          omega
        · cases hhere
      · exact ih _ (fun record hrecord => hlength record (List.mem_cons_of_mem _ hrecord)) element hthere

/-- **What is in the memory** behind a file whose positions are given once. -/
theorem holdsExactly_of_givenOnce (hlt : ∀ element ∈ elements, element.1 < 2 ^ 33) (honce : GivenOnce elements) :
    ∃ memory, insertAll .empty elements = some memory ∧ HoldsExactly memory elements := by
  have hnil : elements ++ contents (SparseVector.empty : SparseVector UInt8).buckets = elements := List.append_nil _
  obtain ⟨memory, hall, hspaced, hperm⟩ := @insertAll_of_nodup .empty _
    ⟨fun _ hrun => (nomatch hrun), .nil⟩ (hnil.symm ▸ honce) (hnil.symm ▸ hlt)
  rw [hnil] at hperm
  have hbounded := bounded_of_lt hspaced fun pair hpair => hlt pair (hperm.mem_iff.mp hpair)
  refine ⟨memory, hall, contents memory.buckets, ?_, hperm, hspaced.pairwise_contents⟩
  rw [SparseVector.iterate, SparseVector.iterateFrom_eq hbounded _ _ (by rw [SparseVector.size_eq, Nat.zero_add]),
    List.drop_zero]

/-! ## Repetitions -/

/-- The position has been given, and the one in front of it not since. -/
def GivenLast (positions : List Nat) (query : Nat) : Prop :=
  ∃ front between, positions = front ++ query :: between ∧ ∀ before ∈ between, before + 1 ≠ query

theorem givenLast_append {positions : List Nat} {query : Nat} : GivenLast (positions ++ [position]) query ↔
    query = position ∨ query ≠ position + 1 ∧ GivenLast positions query := by
  constructor
  · rintro ⟨front, between, heq, hnone⟩
    rcases List.eq_nil_or_concat between with rfl | ⟨between, last, rfl⟩
    · obtain ⟨-, hlast⟩ := List.append_inj' heq rfl
      exact Or.inl (List.cons.inj hlast).1.symm
    · rw [List.concat_eq_append, ← List.cons_append, ← List.append_assoc] at heq
      obtain ⟨rfl, hlast⟩ := List.append_inj' heq rfl
      obtain rfl := (List.cons.inj hlast).1
      refine Or.inr ⟨(hnone position (by simp)).symm, front, between, rfl, fun before hmem => hnone before ?_⟩
      simp [hmem]
  · rintro (rfl | ⟨hne, front, between, rfl, hnone⟩)
    · exact ⟨positions, [], rfl, by simp⟩
    · refine ⟨front, between ++ [position], by simp, List.forall_mem_append.mpr ⟨hnone, ?_⟩⟩
      simpa using hne.symm

theorem unnoticed_append {element : Nat × UInt8} : Unnoticed (elements ++ [element]) ↔
    Unnoticed elements ∧ ¬ GivenLast (elements.map Prod.fst) element.1 := by
  rw [Unnoticed, List.map_append, List.map_singleton]
  constructor
  · intro h
    constructor
    · intro front position between back heq
      refine h front position between (back ++ [element.1]) ?_
      simp [heq]
    · rintro ⟨front, between, heq, hnone⟩
      obtain ⟨before, hmem, hbefore⟩ := h front element.1 between [] (by simp [heq])
      exact hnone before hmem hbefore
  · rintro ⟨h, hlast⟩ front position between back heq
    rcases List.eq_nil_or_concat back with rfl | ⟨back, last, rfl⟩
    · rw [← List.cons_append, ← List.append_assoc] at heq
      obtain ⟨hfront, hend⟩ := List.append_inj' heq rfl
      obtain rfl := (List.cons.inj hend).1
      by_contra hnone
      push Not at hnone
      exact hlast ⟨front, between, hfront, hnone⟩
    · rw [List.concat_eq_append, ← List.cons_append, ← List.append_assoc, ← List.cons_append, ← List.append_assoc] at heq
      exact h front position between back (by simpa using (List.append_inj' heq rfl).1)

/-- **What the vector notices.** The induction is on the elements from the last one on. -/
theorem insertAll_cases (hlt : ∀ element ∈ elements, element.1 < 2 ^ 33) :
    insertAll .empty elements = none ∧ ¬ Unnoticed elements ∨
      ∃ runs, insertAll .empty elements = some { buckets := runs } ∧ Unnoticed elements ∧
        SparseVector.Ascending runs ∧ SparseVector.Bounded runs ∧
        ∀ query, SparseVector.Taken query runs ↔ GivenLast (elements.map Prod.fst) query := by
  induction elements using List.reverseRecOn with
  | nil =>
      refine Or.inr ⟨[], rfl, by simp [Unnoticed], .nil, fun _ hrun => (nomatch hrun), fun query => ?_⟩
      simp [SparseVector.Taken, GivenLast]
  | append_singleton elements element ih =>
      rw [List.forall_mem_append] at hlt
      have hposition : element.1 < 2 ^ 33 := hlt.2 element List.mem_cons_self
      simp only [insertAll_append, unnoticed_append, List.map_append, List.map_singleton, givenLast_append]
      rcases ih hlt.1 with ⟨hall, hnoticed⟩ | ⟨runs, hall, hunnoticed, hascending, hbounded, htaken⟩
      · exact Or.inl ⟨by rw [hall]; rfl, fun h => hnoticed h.1⟩
      · simp only [hall, Option.bind_some, insertAll, ← htaken]
        rcases @SparseVector.insert_cases _ _ element.2 _ hascending hbounded (by omega : element.1 + 1 < 2 ^ 64) with
          ⟨hinsert, hhere⟩ | ⟨runs', hinsert, hnot, hrest⟩
        · exact Or.inl ⟨by rw [hinsert]; rfl, fun h => h.2 hhere⟩
        · exact Or.inr ⟨runs', by rw [hinsert]; rfl, ⟨hunnoticed, hnot⟩, hrest⟩

theorem insertAll_ne_none_iff (hlt : ∀ element ∈ elements, element.1 < 2 ^ 33) :
    insertAll .empty elements ≠ none ↔ Unnoticed elements := by
  rcases insertAll_cases hlt with ⟨hall, hnoticed⟩ | ⟨runs, hall, hunnoticed, -⟩
  · simp [hall, hnoticed]
  · simp [hall, hunnoticed]

/-! ## Linearizing -/

/-- One turn of the loop: zeros up to the element, and the element. -/
theorem Fills.place (h : Fills seen first last bytes) (hstart : startAddress.toNat = first) (hlt : last < position)
    (hspan : position + 1 < first + 2 ^ 32) :
    Fills (seen ++ [(position, byte)]) first position
      (InputHex.place startAddress bytes (UInt32.ofNat position, byte)) := by
  have hle : first ≤ last := (h.bounds _ (List.exists_of_mem_map h.firstGiven).choose_spec.1).1.trans
    (h.bounds _ (List.exists_of_mem_map h.firstGiven).choose_spec.1).2
  have hfirst := startAddress.toNat_lt
  have hindex : (UInt32.ofNat position - startAddress).toNat = position - first := by
    rw [UInt32.toNat_sub, UInt32.toNat_ofNat', hstart]
    omega
  have hsize : (UInt32.ofNat position + 1 - startAddress).toNat = position + 1 - first := by
    rw [UInt32.toNat_sub, UInt32.toNat_add, UInt32.toNat_ofNat', hstart]
    show (2 ^ 32 - first + (position % 2 ^ 32 + 1) % 2 ^ 32) % 2 ^ 32 = _
    omega
  have hlength := h.length
  unfold InputHex.place
  dsimp only
  rw [hindex, hsize]
  constructor
  · intro element helement
    rcases List.mem_append.mp helement with helement | helement
    · have hbounds := h.bounds element helement
      omega
    · rw [List.mem_singleton.mp helement]
      exact ⟨by omega, le_rfl⟩
  · rw [List.map_append]
    exact List.mem_append_left _ h.firstGiven
  · simp
  · rw [List.length_set, List.length_append, List.length_replicate]
    omega
  · intro position' byte' hmem
    rcases List.mem_append.mp hmem with hmem | hmem
    · have hbounds := h.bounds _ hmem
      dsimp only at hbounds
      rw [List.getElem?_set_ne (by omega), List.getElem?_append_left (by omega)]
      exact h.element position' byte' hmem
    · cases List.mem_singleton.mp hmem
      rw [List.getElem?_set_self]
      rw [List.length_append, List.length_replicate]
      omega
  · intro position' hge hle' hnot
    rw [List.map_append, List.mem_append, not_or] at hnot
    have hne : position' ≠ position := by simpa using hnot.2
    rw [List.getElem?_set_ne (by omega)]
    by_cases hbehind : position' ≤ last
    · rw [List.getElem?_append_left (by omega)]
      exact h.gap position' hge hbehind hnot.1
    · rw [List.getElem?_append_right (by omega), List.getElem?_replicate, if_pos (by omega)]

theorem Fills.foldl_place (h : Fills seen first last bytes) (hstart : startAddress.toNat = first)
    (hlt : ∀ element ∈ others, last < element.1)
    (hpairwise : others.Pairwise fun pair pair' => pair.1 < pair'.1)
    (hspan : ∀ element ∈ others, element.1 + 1 < first + 2 ^ 32) :
    ∃ last', Fills (seen ++ others) first last'
      ((others.map fun element => (UInt32.ofNat element.1, element.2)).foldl (InputHex.place startAddress) bytes) := by
  induction others generalizing seen last bytes with
  | nil => exact ⟨last, by simpa using h⟩
  | cons element others ih =>
      have hnext := @Fills.place _ _ _ _ element.2 _ _ h hstart (hlt element List.mem_cons_self)
        (hspan element List.mem_cons_self)
      obtain ⟨last', hfills⟩ := ih hnext (fun element' hmem => List.rel_of_pairwise_cons hpairwise hmem)
        hpairwise.of_cons fun element' hmem => hspan element' (List.mem_cons_of_mem _ hmem)
      refine ⟨last', ?_⟩
      rw [List.append_assoc] at hfills
      exact hfills

theorem Fills.perm (h : Fills seen first last bytes) (hperm : seen.Perm elements) :
    Fills elements first last bytes where
  bounds := fun element hmem => h.bounds element (hperm.mem_iff.mpr hmem)
  firstGiven := (hperm.map Prod.fst).mem_iff.mp h.firstGiven
  lastGiven := (hperm.map Prod.fst).mem_iff.mp h.lastGiven
  length := h.length
  element := fun position byte hmem => h.element position byte (hperm.mem_iff.mpr hmem)
  gap := fun position hge hle hnot => h.gap position hge hle fun hmem => hnot ((hperm.map Prod.fst).mem_iff.mp hmem)

/-- **A memory that does not span the address space** is linearized. -/
theorem HoldsExactly.linearize (h : HoldsExactly memory elements) (hne : elements ≠ [])
    (hfirst : ∃ element ∈ elements, element.1 < 2 ^ 32)
    (hspan : ∀ element ∈ elements, ∀ element' ∈ elements, element'.1 + 1 < element.1 + 2 ^ 32) :
    ∃ range, linearize memory = some range ∧ IsRange elements range := by
  obtain ⟨seen, hiterate, hperm, hpairwise⟩ := h
  rcases seen with _ | ⟨⟨first, byte⟩, others⟩
  · exact absurd hperm.nil_eq.symm hne
  · have hlt : ∀ element ∈ others, first < element.1 := fun element hmem => List.rel_of_pairwise_cons hpairwise hmem
    have hmem : (first, byte) ∈ elements := hperm.mem_iff.mp List.mem_cons_self
    have hstart : (UInt32.ofNat first).toNat = first := by
      obtain ⟨element, helement, hbound⟩ := hfirst
      rw [UInt32.toNat_ofNat']
      rcases List.mem_cons.mp (hperm.mem_iff.mpr helement) with rfl | helement
      · exact Nat.mod_eq_of_lt hbound
      · have hless := hlt element helement
        exact Nat.mod_eq_of_lt (by omega)
    have hone : Fills [(first, byte)] first first
        (InputHex.place (UInt32.ofNat first) [] (UInt32.ofNat first, byte)) := by
      have hplace : InputHex.place (UInt32.ofNat first) [] (UInt32.ofNat first, byte) = [byte] := by
        unfold InputHex.place
        dsimp only
        rw [UInt32.add_comm, UInt32.add_sub_cancel, UInt32.sub_self]
        rfl
      rw [hplace]
      constructor
      · simp
      · simp
      · simp
      · simp
      · intro position byte' hmem
        cases List.mem_singleton.mp hmem
        simp
      · intro position hge hle hnot
        exact absurd (by simpa using Nat.le_antisymm hle hge) hnot
    obtain ⟨last, hfills⟩ := hone.foldl_place hstart hlt hpairwise.of_cons fun element helement =>
      hspan (first, byte) hmem element (hperm.mem_iff.mp (List.mem_cons_of_mem _ helement))
    refine ⟨_, by rw [Upgrade.linearize, hiterate], last, ?_⟩
    dsimp only
    rw [hstart]
    exact hfills.perm hperm

/-- The result has fewer bytes than there are addresses. -/
theorem length_linearize_lt {range : List UInt8 × UInt32} (h : linearize memory = some range) :
    range.1.length < 2 ^ 32 := by
  unfold linearize at h
  split at h
  · cases h
    have hfold (elements : List (UInt32 × UInt8)) (startAddress : UInt32) {bytes : List UInt8}
        (hbytes : bytes.length < 2 ^ 32) :
        (elements.foldl (InputHex.place startAddress) bytes).length < 2 ^ 32 := by
      induction elements generalizing bytes with
      | nil => exact hbytes
      | cons element elements ih =>
          refine ih ?_
          have hsize := (element.1 + 1 - startAddress).toNat_lt
          rw [InputHex.place, List.length_set, List.length_append, List.length_replicate]
          omega
    exact hfold _ _ (by simp)
  · cases h

end Memory

/-! ## Loading -/

section Loading

variable {lines : List (List UInt8)} {line : List UInt8} {record record' : LineContents} {offset : UInt32}
  {records records' : List LineContents} {o : BinaryObject} {memory : SparseVector UInt8}

theorem IsLooseRecord.unique (h : IsLooseRecord line record) (h' : IsLooseRecord line record') : record = record' := by
  have hline : line ≠ [] := by
    obtain ⟨colon, text, -, -, -, -, -, -, -, -, hcons, -⟩ := h
    exact hcons ▸ List.cons_ne_nil colon text
  have hread := (@ofLine_eq_ok_iff _ _ 0 hline).mpr h
  rw [(ofLine_eq_ok_iff hline).mpr h'] at hread
  exact (Except.ok.inj hread).symm

theorem addHex_eq_ok_iff :
    (∃ o, addHex {} lines offset = .ok o ∧ o.memory = memory) ↔
      ∃ records, IsLooseFile lines records ∧ insertAll .empty (placed offset 0 records) = some memory := by
  have hlines := @addLines_ok_iff { offset := offset } memory lines 0 true
  unfold addHex
  constructor
  · rintro ⟨o, ho, hmemory⟩
    split at ho
    · cases ho
    · rename_i o' hrun
      split_ifs at ho with hend
      cases ho
      obtain ⟨records, hloose, htakes, -, hpairwise, hinsert, hexists⟩ := hlines.mp ⟨o, hrun, hmemory, hend⟩
      exact ⟨records, ⟨hloose, htakes, hpairwise, (hexists.mp rfl).resolve_left Bool.false_ne_true⟩, hinsert⟩
  · rintro ⟨records, ⟨hloose, htakes, hpairwise, hexists⟩, hinsert⟩
    obtain ⟨o, hrun, hmemory, hend⟩ := hlines.mpr ⟨records, hloose, htakes, fun hclosed => (nomatch hclosed), hpairwise,
      hinsert, ⟨fun _ => Or.inr hexists, fun _ => rfl⟩⟩
    refine ⟨o, ?_, hmemory⟩
    rw [hrun]
    exact if_pos hend

/-- What is so for the record of a line, is so for all records. -/
theorem forall_records {IsRead : List UInt8 → LineContents → Prop} {P : LineContents → Prop}
    (h : ∀ line record, IsRead line record → P record) (hread : List.Forall₂ IsRead lines records) :
    ∀ record ∈ records, P record := by
  induction hread with
  | nil => simp
  | cons hline _ ih => exact List.forall_mem_cons.mpr ⟨h _ _ hline, ih⟩

theorem placed_lt_of_loose (hloose : List.Forall₂ IsLooseRecord lines records) (offset : UInt32) :
    ∀ element ∈ placed offset 0 records, element.1 < 2 ^ 33 :=
  placed_lt offset 0 (forall_records (fun _ _ hrecord => hrecord.length_lt) hloose)

/-- The vector takes what is unnoticed. -/
theorem insertAll_placed_iff (hloose : List.Forall₂ IsLooseRecord lines records) :
    insertAll .empty (placed offset 0 records) ≠ none ↔ Unnoticed (placed offset 0 records) :=
  insertAll_ne_none_iff (placed_lt_of_loose hloose offset)

theorem addHex_eq_readsPastEnd_iff :
    addHex {} lines offset = .error .readsPastEnd ↔
      ∃ front line back record, nonEmpty lines = front ++ line :: back ∧ ReachesLine offset front ∧
        IsLooseRecord line record ∧ record.recordType.toNat = 2 ∧ record.data.length < 2 := by
  have hlines := @addLines_readsPastEnd_iff { offset := offset } lines 0
  have hsame : addHex {} lines offset = .error .readsPastEnd ↔
      addLines { offset := offset } 0 lines = .error .readsPastEnd := by
    unfold addHex
    rcases addLines _ 0 lines with failure | o
    · rfl
    · dsimp only
      split_ifs <;> simp
  rw [hsame, hlines]
  constructor
  · rintro ⟨-, front, line, back, records, record, hcons, hloose, htakes, hinsert, hrecord⟩
    exact ⟨front, line, back, record, hcons, ⟨records, hloose, htakes, (insertAll_placed_iff hloose).mp hinsert⟩, hrecord⟩
  · rintro ⟨front, line, back, record, hcons, ⟨records, hloose, htakes, hinsert⟩, hrecord⟩
    exact ⟨rfl, front, line, back, records, record, hcons, hloose, htakes, (insertAll_placed_iff hloose).mpr hinsert,
      hrecord⟩

theorem IsFile.isLooseFile (h : IsFile lines records) : IsLooseFile lines records :=
  ⟨h.1.imp fun _ _ hrecord => hrecord.isLooseRecord.1,
    forall_records (fun _ _ hrecord => hrecord.isLooseRecord.2) h.1, h.2⟩

/-- The records of a file are those that are read. -/
theorem IsFile.unique (h : IsFile lines records) (h' : IsLooseFile lines records') : records = records' :=
  List.right_unique_forall₂' (fun _ _ _ hrecord => hrecord.unique) h.isLooseFile.1 h'.1

/-- The first byte of a record has an address of 32 bits. -/
theorem exists_placed_lt {base : UInt32} (hne : placed offset base records ≠ []) :
    ∃ element ∈ placed offset base records, element.1 < 2 ^ 32 := by
  induction records generalizing base with
  | nil => exact absurd rfl hne
  | cons record records ih =>
      rw [placed] at hne ⊢
      by_cases hhere : record.bytesAt (base + offset) = []
      · rw [hhere, List.nil_append] at hne ⊢
        exact ih hne
      · rw [LineContents.bytesAt] at hhere ⊢
        split_ifs at hhere ⊢
        · rcases hdata : record.data with _ | ⟨byte, data⟩
          · exact absurd (by rw [hdata]; rfl) hhere
          · exact ⟨_, List.mem_append_left _ List.mem_cons_self, UInt32.toNat_lt _⟩
        · exact absurd rfl hhere

/-- What is in the memory behind a file of the format. -/
theorem IsFile.holdsExactly (h : IsFile lines records) (honce : GivenOnce (placed offset 0 records))
    (ho : addHex {} lines offset = .ok o) : HoldsExactly o.memory (placed offset 0 records) := by
  obtain ⟨records', hloose, hinsert⟩ := addHex_eq_ok_iff.mp ⟨o, ho, rfl⟩
  obtain ⟨memory, hall, hholds⟩ := holdsExactly_of_givenOnce (placed_lt_of_loose h.isLooseFile.1 offset) honce
  rw [← h.unique hloose, hall] at hinsert
  exact Option.some.inj hinsert ▸ hholds

/-- **Exactly these files are loaded as promised.** -/
theorem loadsHex_iff (lines : List (List UInt8)) (offset : UInt32) : LoadsHex lines offset ↔ NoSlip lines offset := by
  constructor
  · intro h
    constructor
    · intro records hloose hunnoticed
      obtain ⟨memory, hmemory⟩ := Option.ne_none_iff_exists'.mp ((insertAll_placed_iff hloose.1).mpr hunnoticed)
      obtain ⟨o, ho, -⟩ := addHex_eq_ok_iff.mpr ⟨records, hloose, hmemory⟩
      obtain ⟨records', hfile, honce⟩ := h.accepts.mp ⟨o, ho⟩
      obtain rfl := hfile.unique hloose
      refine ⟨hfile, honce, ?_⟩
      intro element helement element' helement'
      obtain ⟨range, hrange, last, hfills⟩ := h.linearizes o records' ho hfile (List.ne_nil_of_mem helement)
      have hlength := length_linearize_lt hrange
      have hbounds := hfills.bounds element helement
      have hbounds' := hfills.bounds element' helement'
      have hcount := hfills.length
      omega
    · intro front line back record hlines hreaches hrecord htype
      by_contra hshort
      refine h.staysInside (addHex_eq_readsPastEnd_iff.mpr ?_)
      exact ⟨front, line, back, record, hlines, hreaches, hrecord, htype, by omega⟩
  · intro h
    have hstrict (o : BinaryObject) (ho : addHex {} lines offset = .ok o) :
        ∃ records, IsFile lines records ∧ GivenOnce (placed offset 0 records) ∧
          ∀ element ∈ placed offset 0 records, ∀ element' ∈ placed offset 0 records,
            element'.1 + 1 < element.1 + 2 ^ 32 := by
      obtain ⟨records, hloose, hinsert⟩ := addHex_eq_ok_iff.mp ⟨o, ho, rfl⟩
      exact ⟨records, h.strict records hloose ((insertAll_placed_iff hloose.1).mp (hinsert ▸ Option.some_ne_none _))⟩
    constructor
    · constructor
      · rintro ⟨o, ho⟩
        obtain ⟨records, hfile, honce, -⟩ := hstrict o ho
        exact ⟨records, hfile, honce⟩
      · rintro ⟨records, hfile, honce⟩
        have hloose := hfile.isLooseFile
        obtain ⟨memory, hall, -⟩ := holdsExactly_of_givenOnce (placed_lt_of_loose hloose.1 offset) honce
        obtain ⟨o, ho, -⟩ := addHex_eq_ok_iff.mpr ⟨records, hloose, hall⟩
        exact ⟨o, ho⟩
    · intro hpast
      obtain ⟨front, line, back, record, hlines, hreaches, hrecord, htype, hshort⟩ :=
        addHex_eq_readsPastEnd_iff.mp hpast
      have htwo := h.twoBytes front line back record hlines hreaches hrecord htype
      omega
    · intro o records ho hfile
      obtain ⟨records', hfile', honce, -⟩ := hstrict o ho
      obtain rfl := hfile'.unique hfile.isLooseFile
      exact hfile.holdsExactly honce ho
    · intro o records ho hfile hne
      obtain ⟨records', hfile', honce, hspan⟩ := hstrict o ho
      obtain rfl := hfile'.unique hfile.isLooseFile
      exact (hfile.holdsExactly honce ho).linearize hne (exists_placed_lt hne) hspan

/-- The end of the file, with a letter where the colon should be, is accepted. -/
theorem not_loadsHex_withoutColon : ¬ LoadsHex ["X00000001FF".toList.map Char.toUInt8] 0 := by
  intro h
  obtain ⟨records, hfile, -⟩ := h.accepts.mp ⟨{ endOfFile := true }, by decide +kernel⟩
  rcases hfile.1 with _ | ⟨hrecord, -⟩
  obtain ⟨text, size, high, low, checksum, hline, -⟩ := hrecord
  exact absurd (List.cons.inj hline).1 (by decide)

end Loading

end EmbeddedInfra.Upgrade
