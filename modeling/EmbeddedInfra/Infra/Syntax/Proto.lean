import EmbeddedInfra.Infra.Stream.ByteStreams

set_option autoImplicit false

/-! # Protocol buffers

`infra::ProtoFormatter` writes the fields of a message to a stream, `infra::ProtoParser` reads them.
A message that is nested in another one is written by the same formatter, and when it is complete its
length is inserted before it.
-/

namespace EmbeddedInfra.Proto

open Streams StreamReader

/-! ## Messages -/

mutual

/-- The value of a field. -/
inductive Value where
  | varInt (value : UInt64)
  | fixed32 (value : UInt32)
  | fixed64 (value : UInt64)
  | bytes (bytes : List UInt8)
  | message (message : Message)

/-- The fields of a message, with their numbers. -/
inductive Message where
  | nil
  | cons (fieldNumber : UInt32) (value : Value) (rest : Message)

end

/-! ## Formatting -/

/-- The bytes that the loop of `PutVarInt` writes. A number of 64 bits takes at most ten. -/
def varIntBytes : Nat → Nat → List UInt8
  | 0, _ => []
  | turns + 1, value =>
      let byte := if value > 127 then UInt8.ofNat (value &&& 0x7f ||| 0x80) else UInt8.ofNat value
      let value := value >>> 7
      byte :: (if value ≠ 0 then varIntBytes turns value else [])

/-- The representation of a number in memory. -/
def littleEndian : Nat → Nat → List UInt8
  | 0, _ => []
  | size + 1, value => UInt8.ofNat value :: littleEndian size (value / 256)

namespace ProtoFormatter

def putVarInt (w : ByteOutputStreamWriter) (value : Nat) : ByteOutputStreamWriter :=
  (varIntBytes 10 value).foldl (fun w byte => w.insert [byte]) w

def putFixed32 (w : ByteOutputStreamWriter) (value : UInt32) : ByteOutputStreamWriter :=
  w.insert (littleEndian 4 value.toNat)

def putFixed64 (w : ByteOutputStreamWriter) (value : UInt64) : ByteOutputStreamWriter :=
  w.insert (littleEndian 8 value.toNat)

def putBytes (w : ByteOutputStreamWriter) (bytes : List UInt8) : ByteOutputStreamWriter :=
  (putVarInt w bytes.length).insert bytes

/-- `(fieldNumber << 3) | type` -/
def key (fieldNumber type : UInt32) : Nat := ((fieldNumber <<< 3) ||| type).toNat

/-- The destructor of `ProtoLengthDelimitedFormatter`. The error policy of the saved stream asserts. -/
def finishLengthDelimited (w : ByteOutputStreamWriter) (marker : Nat) : Option ByteOutputStreamWriter :=
  let size := w.getProcessedBytesSince marker % 2 ^ 32
  let saved := putVarInt (w.saveState marker) size
  if saved.failed then none else some (w.restoreState saved)

mutual

/-- A field is put. -/
def putField (w : ByteOutputStreamWriter) (fieldNumber : UInt32) : Value → Option ByteOutputStreamWriter
  | .varInt value => some (putVarInt (putVarInt w (key fieldNumber 0)) value.toNat)
  | .fixed32 value => some (putFixed32 (putVarInt w (key fieldNumber 5)) value)
  | .fixed64 value => some (putFixed64 (putVarInt w (key fieldNumber 1)) value)
  | .bytes bytes => some (putBytes (putVarInt w (key fieldNumber 2)) bytes)
  | .message message => do
      -- the constructor of `ProtoLengthDelimitedFormatter`
      let w := putVarInt w (key fieldNumber 2)
      let marker := w.constructSaveMarker
      let w ← putMessage w message
      finishLengthDelimited w marker

/-- The fields of a message are put, one after the other. -/
def putMessage (w : ByteOutputStreamWriter) : Message → Option ByteOutputStreamWriter
  | .nil => some w
  | .cons fieldNumber value rest => do
      let w ← putField w fieldNumber value
      putMessage w rest

end

end ProtoFormatter

open ProtoFormatter

/-! ## Parsing -/

/-- The number that the bytes are the representation of. -/
def ofLittleEndian : List UInt8 → Nat
  | [] => 0
  | byte :: bytes => byte.toNat + 256 * ofLittleEndian bytes

/-- The first part of a `Field`. -/
inductive Field where
  | uint32 (value : UInt32)
  | uint64 (value : UInt64)
  | lengthDelimited (length : Nat)
deriving DecidableEq, Repr

namespace ProtoParser

/-- The loop of `GetVarInt`. -/
def getVarIntFrom : Nat → StreamReader → Nat → UInt8 → Nat → Nat × StreamReader
  | 0, r, result, _, _ => (result, r)
  | turns + 1, r, result, byte, shift =>
      let (data, r) := extract r.lengths r.remaining r.failed 1
      -- the byte keeps its value when it cannot be read
      let byte := data.headD byte
      let result := (result + (byte &&& 0x7f).toNat <<< shift) % 2 ^ 64
      if r.failed = false ∧ byte &&& 0x80 ≠ 0 then
        getVarIntFrom turns r result byte (shift + 7)
      else
        (result, r)

/-- Every turn but the last takes a byte. -/
def getVarInt (r : StreamReader) : Nat × StreamReader :=
  getVarIntFrom (r.remaining.length + 1) r 0 0 0

def getFixed32 (r : StreamReader) : UInt32 × StreamReader :=
  let (data, r) := extract r.lengths r.remaining r.failed 4
  (UInt32.ofNat (ofLittleEndian data), r)

def getFixed64 (r : StreamReader) : UInt64 × StreamReader :=
  let (data, r) := extract r.lengths r.remaining r.failed 8
  (UInt64.ofNat (ofLittleEndian data), r)

/-- The part of `GetField` after the key. -/
def getFieldOfType (type fieldNumber : UInt32) (r : StreamReader) :
    Option ((Field × UInt32) × StreamReader) :=
  if type = 0 then
    let (value, r) := getVarInt r
    some ((Field.uint64 (UInt64.ofNat value), fieldNumber), r)
  else if type = 1 then
    let (value, r) := getFixed64 r
    some ((Field.uint64 value, fieldNumber), r)
  else if type = 2 then
    let (value, r) := getVarInt r
    let length := value % 2 ^ 32
    -- the constructor of `ProtoLengthDelimited`
    let r := r.reportResult (decide (length ≤ available r.lengths r.remaining))
    some ((Field.lengthDelimited length, fieldNumber), r)
  else if type = 5 then
    let (value, r) := getFixed32 r
    some ((Field.uint32 value, fieldNumber), r)
  else if r.failed then
    some ((Field.uint32 0, 0), r)
  else
    -- abort
    none

def getField (r : StreamReader) : Option ((Field × UInt32) × StreamReader) :=
  let (value, r) := getVarInt r
  let x := UInt32.ofNat value
  getFieldOfType (x &&& 7) (x >>> 3) r

/-- The constructor. -/
def parser (r : StreamReader) : StreamReader := r.limited (available r.lengths r.remaining)

end ProtoParser

open ProtoParser

/-- `GetBytes` of a `ProtoLengthDelimited`, to a vector that is large enough. -/
def getBytes (r : StreamReader) : List UInt8 × StreamReader :=
  extract r.lengths r.remaining r.failed (available r.lengths r.remaining)

mutual

/-- What a reader knows of a value: which kind it is, and for a message which values it has. -/
inductive ValueKind where
  | varInt
  | fixed32
  | fixed64
  | bytes
  | message (message : MessageKind)

inductive MessageKind where
  | nil
  | cons (value : ValueKind) (rest : MessageKind)

end

mutual

def Value.kind : Value → ValueKind
  | .varInt _ => .varInt
  | .fixed32 _ => .fixed32
  | .fixed64 _ => .fixed64
  | .bytes _ => .bytes
  | .message message => .message message.kind

def Message.kind : Message → MessageKind
  | .nil => .nil
  | .cons _ value rest => .cons value.kind rest.kind

end

mutual

/-- The value of a field is read from the result of `GetField`, when it is one of the kind that is
expected. -/
def readValue : ValueKind → Field → StreamReader → Option (Value × StreamReader)
  | .varInt, .uint64 value, r => some (.varInt value, r)
  | .fixed64, .uint64 value, r => some (.fixed64 value, r)
  | .fixed32, .uint32 value, r => some (.fixed32 value, r)
  | .bytes, .lengthDelimited length, r =>
      let (bytes, r) := getBytes (r.limited length)
      some (.bytes bytes, r.below)
  | .message kind, .lengthDelimited length, r => do
      let (message, r) ← readMessage kind (parser (r.limited length))
      return (.message message, r.below.below)
  | _, _, _ => none

/-- Fields are read until the parser is empty. -/
def readMessage : MessageKind → StreamReader → Option (Message × StreamReader)
  | .nil, r => if empty r.lengths r.remaining then some (.nil, r) else none
  | .cons kind rest, r =>
      if empty r.lengths r.remaining then none
      else do
        let ((field, fieldNumber), r) ← getField r
        let (value, r) ← readValue kind field r
        let (message, r) ← readMessage rest r
        return (.cons fieldNumber value message, r)

end

/-- A message is read from a range of bytes. -/
def parse (kind : MessageKind) (bytes : List UInt8) : Option (Message × StreamReader) :=
  readMessage kind (parser { lengths := [], remaining := bytes })

/-! ## The wire format -/

mutual

/-- The bytes of a field. -/
def encodeField (fieldNumber : UInt32) : Value → List UInt8
  | .varInt value =>
      varIntBytes 10 (key fieldNumber 0) ++ varIntBytes 10 value.toNat
  | .fixed32 value =>
      varIntBytes 10 (key fieldNumber 5) ++ littleEndian 4 value.toNat
  | .fixed64 value =>
      varIntBytes 10 (key fieldNumber 1) ++ littleEndian 8 value.toNat
  | .bytes bytes =>
      varIntBytes 10 (key fieldNumber 2) ++ (varIntBytes 10 bytes.length ++ bytes)
  | .message message =>
      varIntBytes 10 (key fieldNumber 2) ++
        (varIntBytes 10 (encode message).length ++ encode message)

/-- The bytes of a message. -/
def encode : Message → List UInt8
  | .nil => []
  | .cons fieldNumber value rest => encodeField fieldNumber value ++ encode rest

end

mutual

/-- The bytes that are put for a field. The length of a message has 32 bits. -/
def writtenField (fieldNumber : UInt32) : Value → List UInt8
  | .message message =>
      varIntBytes 10 (key fieldNumber 2) ++
        (varIntBytes 10 ((written message).length % 2 ^ 32) ++ written message)
  | value => encodeField fieldNumber value

/-- The bytes that are put for a message. -/
def written : Message → List UInt8
  | .nil => []
  | .cons fieldNumber value rest => writtenField fieldNumber value ++ written rest

end

mutual

theorem writtenField_eq {fieldNumber : UInt32} (value : Value) (hsize : (encodeField fieldNumber value).length < 2 ^ 32) :
    writtenField fieldNumber value = encodeField fieldNumber value := by
  cases value with
  | message message =>
      unfold encodeField at *
      simp only [List.length_append] at hsize
      rw [writtenField, written_eq message (by omega), Nat.mod_eq_of_lt (by omega)]
  | _ => rw [writtenField]; nofun

/-- **A message of less than `2 ^ 32` bytes is put in the wire format.** -/
theorem written_eq (message : Message) (hsize : (encode message).length < 2 ^ 32) : written message = encode message := by
  cases message with
  | nil => rw [written, encode]
  | cons fieldNumber value rest =>
      unfold encode at *
      rw [List.length_append] at hsize
      rw [written, writtenField_eq value (by omega), written_eq rest (by omega)]

end

/-! ## What is formatted -/

namespace ProtoFormatter

variable {w : ByteOutputStreamWriter} {before text free after : List UInt8}

theorem writes_putVarInt (h : Writes w before text free after) (value : Nat)
    (hlength : (varIntBytes 10 value).length ≤ free.length) :
    ∃ free', (varIntBytes 10 value).length + free'.length = free.length ∧
      Writes (putVarInt w value) before (text ++ varIntBytes 10 value) free' after :=
  h.insertEach hlength

/-- A number and what comes after it. -/
theorem writes_putVarInt_insert (h : Writes w before text free after) (value : Nat)
    (data : List UInt8) (hlength : (varIntBytes 10 value ++ data).length ≤ free.length) :
    ∃ free', (varIntBytes 10 value ++ data).length + free'.length = free.length ∧
      Writes ((putVarInt w value).insert data) before (text ++ (varIntBytes 10 value ++ data)) free'
        after := by
  rw [List.length_append] at hlength ⊢
  obtain ⟨free₁, hfree₁, hw₁⟩ := writes_putVarInt h value (by omega)
  obtain ⟨free₂, hfree₂, hw₂⟩ := hw₁.insert_of_le data (by omega)
  refine ⟨free₂, by omega, ?_⟩
  rw [List.append_assoc] at hw₂
  exact hw₂

/-- A field of bytes. -/
theorem writes_putBytesField (h : Writes w before text free after) (fieldNumber : UInt32)
    (bytes : List UInt8) (hroom : (encodeField fieldNumber (.bytes bytes)).length ≤ free.length) :
    ∃ w' free', putField w fieldNumber (.bytes bytes) = some w' ∧
      (encodeField fieldNumber (.bytes bytes)).length + free'.length = free.length ∧
      Writes w' before (text ++ encodeField fieldNumber (.bytes bytes)) free' after := by
  unfold encodeField at *
  rw [List.length_append] at *
  obtain ⟨free₁, hfree₁, hw₁⟩ := writes_putVarInt h (key fieldNumber 2) (by omega)
  obtain ⟨free₂, hfree₂, hw₂⟩ := writes_putVarInt_insert hw₁ bytes.length bytes (by omega)
  rw [List.append_assoc] at hw₂
  exact ⟨_, free₂, by rw [putField, putBytes], by omega, hw₂⟩

/-- **The length is inserted before the message.** -/
theorem writes_finishLengthDelimited {inner : List UInt8}
    (h : Writes w before (text ++ inner) free after)
    (hlength : (varIntBytes 10 (inner.length % 2 ^ 32)).length ≤ free.length) :
    ∃ w' free', finishLengthDelimited w text.length = some w' ∧
      (varIntBytes 10 (inner.length % 2 ^ 32)).length + free'.length = free.length ∧
      Writes w' before (text ++ (varIntBytes 10 (inner.length % 2 ^ 32) ++ inner)) free' after := by
  have hprocessed : w.getProcessedBytesSince text.length = inner.length := by
    rw [ByteOutputStreamWriter.getProcessedBytesSince, h.offset, List.length_append, Nat.add_sub_cancel_left]
  obtain ⟨gap, hgap, hsaved⟩ := h.saveState
  obtain ⟨gap', hgap', hput⟩ := writes_putVarInt hsaved (inner.length % 2 ^ 32) (by omega)
  rw [List.nil_append] at hput
  obtain ⟨free', hfree', hw'⟩ := h.restoreState rfl (by omega) hput
  rw [List.append_assoc] at hw'
  refine ⟨_, free', ?_, by omega, hw'⟩
  unfold finishLengthDelimited
  rw [hprocessed]
  simp only [hput.failed, Bool.false_eq_true, if_false]

/-- The marker is where the message begins. -/
theorem constructSaveMarker_eq (h : Writes w before text free after) :
    w.constructSaveMarker = text.length := h.offset

mutual

/-- **A field is written.** -/
theorem writes_putField {w : ByteOutputStreamWriter} {before text free after : List UInt8}
    (fieldNumber : UInt32) (value : Value) (h : Writes w before text free after)
    (hroom : (writtenField fieldNumber value).length ≤ free.length) :
    ∃ w' free', putField w fieldNumber value = some w' ∧
      (writtenField fieldNumber value).length + free'.length = free.length ∧
      Writes w' before (text ++ writtenField fieldNumber value) free' after := by
  cases value with
  | varInt value =>
      simp only [writtenField, encodeField] at *
      rw [List.length_append] at *
      obtain ⟨free₁, hfree₁, hw₁⟩ := writes_putVarInt h (key fieldNumber 0) (by omega)
      obtain ⟨free₂, hfree₂, hw₂⟩ := writes_putVarInt hw₁ value.toNat (by omega)
      rw [List.append_assoc] at hw₂
      exact ⟨_, free₂, by rw [putField], by omega, hw₂⟩
  | fixed32 value =>
      simp only [writtenField, encodeField] at *
      obtain ⟨free', hfree', hw'⟩ := writes_putVarInt_insert h (key fieldNumber 5) _ hroom
      exact ⟨_, free', by rw [putField, putFixed32], hfree', hw'⟩
  | fixed64 value =>
      simp only [writtenField, encodeField] at *
      obtain ⟨free', hfree', hw'⟩ := writes_putVarInt_insert h (key fieldNumber 1) _ hroom
      exact ⟨_, free', by rw [putField, putFixed64], hfree', hw'⟩
  | bytes bytes =>
      simp only [writtenField] at *
      exact writes_putBytesField h fieldNumber bytes hroom
  | message message =>
      simp only [writtenField, List.length_append] at *
      obtain ⟨free₁, hfree₁, hw₁⟩ := writes_putVarInt h (key fieldNumber 2) (by omega)
      obtain ⟨w₂, free₂, hput, hfree₂, hw₂⟩ := writes_putWritten message hw₁ (by omega)
      obtain ⟨w₃, free₃, hfinish, hfree₃, hw₃⟩ := writes_finishLengthDelimited hw₂ (by omega)
      rw [List.append_assoc] at hw₃
      refine ⟨w₃, free₃, ?_, by omega, hw₃⟩
      rw [putField, constructSaveMarker_eq hw₁]
      simp only [hput, Option.bind_eq_bind, Option.bind_some, hfinish]

/-- **A message is written.** -/
theorem writes_putWritten {w : ByteOutputStreamWriter} {before text free after : List UInt8}
    (message : Message) (h : Writes w before text free after) (hroom : (written message).length ≤ free.length) :
    ∃ w' free', putMessage w message = some w' ∧ (written message).length + free'.length = free.length ∧
      Writes w' before (text ++ written message) free' after := by
  cases message with
  | nil =>
      refine ⟨w, free, by rw [putMessage], by simp [written], ?_⟩
      rw [written, List.append_nil]
      exact h
  | cons fieldNumber value rest =>
      unfold written at *
      rw [List.length_append] at *
      obtain ⟨w₁, free₁, hput₁, hfree₁, hw₁⟩ := writes_putField fieldNumber value h (by omega)
      obtain ⟨w₂, free₂, hput₂, hfree₂, hw₂⟩ := writes_putWritten rest hw₁ (by omega)
      rw [List.append_assoc] at hw₂
      refine ⟨w₂, free₂, ?_, by omega, hw₂⟩
      rw [putMessage, hput₁]
      exact hput₂

end

/-- **A message is written in the wire format.** -/
theorem writes_putMessage (message : Message) (h : Writes w before text free after)
    (hroom : (encode message).length ≤ free.length) (hsize : (encode message).length < 2 ^ 32) :
    ∃ w' free', putMessage w message = some w' ∧
      (encode message).length + free'.length = free.length ∧
      Writes w' before (text ++ encode message) free' after := by
  rw [← written_eq message hsize] at hroom ⊢
  exact writes_putWritten message h hroom

end ProtoFormatter

/-! ## Numbers are read -/

theorem and_127 (value : Nat) : value &&& 0x7f = value % 128 :=
  Nat.and_two_pow_sub_one_eq_mod value 7

theorem or_128 {value : Nat} (h : value < 128) : value ||| 0x80 = value + 128 := by
  rw [Nat.or_comm, Nat.add_comm, show 0x80 = 2 ^ 7 * 1 by rfl, ← Nat.two_pow_add_eq_or_of_lt h]

theorem varIntBytes_last (n : Nat) {value : Nat} (h : value ≤ 127) :
    varIntBytes (n + 1) value = [UInt8.ofNat value] := by
  have hshift : value >>> 7 = 0 := by
    rw [Nat.shiftRight_eq_div_pow]
    omega
  rw [varIntBytes, if_neg (by omega), hshift]
  rfl

theorem varIntBytes_more (n : Nat) {value : Nat} (h : 127 < value) :
    varIntBytes (n + 1) value = UInt8.ofNat (value % 128 + 128) :: varIntBytes n (value / 128) := by
  have hshift : value >>> 7 = value / 128 := Nat.shiftRight_eq_div_pow value 7
  rw [varIntBytes, if_pos (by omega), and_127, or_128 (by omega), hshift, if_pos (by omega)]

theorem low_seven_ofNat : ∀ n, n < 256 → (UInt8.ofNat n &&& 0x7f).toNat = n % 128 := by
  decide +kernel

theorem high_bit_ofNat : ∀ n, n < 256 → (UInt8.ofNat n &&& 0x80 = 0 ↔ n < 128) := by
  decide +kernel

namespace ProtoParser

/-- One turn of the loop of `GetVarInt`. -/
theorem getVarIntFrom_step {turns result shift n : Nat} {byte : UInt8} {lengths : List Nat}
    {rest : List UInt8} (hn : n < 256) (hcovers : StreamReader.Covers lengths (UInt8.ofNat n :: rest) 1) :
    getVarIntFrom (turns + 1)
      { lengths := lengths, remaining := UInt8.ofNat n :: rest } result byte shift =
      if n < 128 then
        ((result + n * 2 ^ shift) % 2 ^ 64, { lengths := lengths.map (· - 1), remaining := rest })
      else
        getVarIntFrom turns { lengths := lengths.map (· - 1), remaining := rest }
          ((result + n % 128 * 2 ^ shift) % 2 ^ 64) (UInt8.ofNat n) (shift + 7) := by
  rw [getVarIntFrom, extract_eq hcovers]
  simp only [List.take_succ_cons, List.take_zero, List.headD_cons, List.drop_succ_cons, List.drop_zero,
    low_seven_ofNat n hn, Nat.shiftLeft_eq, true_and, ne_eq, high_bit_ofNat n hn]
  by_cases hlast : n < 128
  · rw [if_pos hlast, if_neg (fun hc => hc hlast), Nat.mod_eq_of_lt hlast]
  · rw [if_neg hlast, if_pos hlast]

/-- **A number is read from the bytes that were written for it.** -/
theorem getVarIntFrom_eq (n : Nat) {turns result shift value : Nat} {byte : UInt8} {lengths : List Nat}
    {rest : List UInt8} (hn : 1 ≤ n) (hvalue : value < 128 ^ n)
    (hcovers : StreamReader.Covers lengths (varIntBytes n value ++ rest) (varIntBytes n value).length)
    (hturns : (varIntBytes n value).length ≤ turns) (hresult : result + value * 2 ^ shift < 2 ^ 64) :
    getVarIntFrom turns
      { lengths := lengths, remaining := varIntBytes n value ++ rest } result byte shift =
      (result + value * 2 ^ shift,
        { lengths := lengths.map (· - (varIntBytes n value).length), remaining := rest }) := by
  induction n generalizing turns result shift value byte lengths with
  | zero => omega
  | succ n ih =>
      obtain ⟨turns, rfl⟩ : ∃ t, turns = t + 1 := by
        have hpos : 1 ≤ (varIntBytes (n + 1) value).length := by simp [varIntBytes]
        exact ⟨turns - 1, by omega⟩
      by_cases hlast : value ≤ 127
      · rw [varIntBytes_last n hlast] at hcovers ⊢
        rw [List.singleton_append] at hcovers ⊢
        rw [getVarIntFrom_step (by omega) hcovers, if_pos (by omega), Nat.mod_eq_of_lt hresult]
        rfl
      · have hmore : 127 < value := by omega
        rw [varIntBytes_more n hmore] at hcovers hturns ⊢
        rw [List.length_cons] at hturns
        rw [List.length_cons, Nat.add_comm (List.length _), List.cons_append] at hcovers
        have hpow : 128 ^ (n + 1) = 128 * 128 ^ n := by rw [Nat.pow_succ, Nat.mul_comm]
        have hdiv : value / 128 < 128 ^ n := by omega
        have hn1 : 1 ≤ n := by
          by_contra hc
          have : n = 0 := by omega
          subst this
          simp at hvalue
          omega
        -- the value is that of its low bits and that of the bytes that follow
        have hsum : result + value % 128 * 2 ^ shift + value / 128 * 2 ^ (shift + 7) =
            result + value * 2 ^ shift := by
          have hsplit : value = value % 128 + 128 * (value / 128) := (Nat.mod_add_div value 128).symm
          calc result + value % 128 * 2 ^ shift + value / 128 * 2 ^ (shift + 7)
              = result + (value % 128 + 128 * (value / 128)) * 2 ^ shift := by
                rw [Nat.pow_add]
                ring
            _ = result + value * 2 ^ shift := by rw [← hsplit]
        have hless : result + value % 128 * 2 ^ shift < 2 ^ 64 := by omega
        rw [List.cons_append, getVarIntFrom_step (by omega) (hcovers.mono (by omega)), if_neg (by omega),
          Nat.add_mod_right, Nat.mod_mod, Nat.mod_eq_of_lt hless]
        have hrest := hcovers.sub
        rw [List.drop_succ_cons, List.drop_zero] at hrest
        rw [ih hn1 hdiv hrest (by omega) (by omega), hsum]
        simp only [List.map_map, List.length_cons, Prod.mk.injEq, true_and]
        congr 1
        apply List.map_congr_left
        intro l _
        show l - 1 - _ = l - (_ + 1)
        omega

/-- The reader after a number. -/
theorem getVarInt_eq {value : Nat} {lengths : List Nat} {rest : List UInt8} (hvalue : value < 2 ^ 64)
    (hcovers : StreamReader.Covers lengths (varIntBytes 10 value ++ rest)
      (varIntBytes 10 value).length) :
    getVarInt { lengths := lengths, remaining := varIntBytes 10 value ++ rest } =
      (value,
        { lengths := lengths.map (· - (varIntBytes 10 value).length), remaining := rest }) := by
  have hpow : value < 128 ^ 10 := lt_of_lt_of_le hvalue (by norm_num)
  rw [getVarInt, getVarIntFrom_eq 10 (by omega) hpow hcovers
    (by rw [List.length_append]; omega) (by simpa using hvalue)]
  simp

theorem length_littleEndian (size value : Nat) : (littleEndian size value).length = size := by
  induction size generalizing value with
  | zero => rfl
  | succ size ih => rw [littleEndian, List.length_cons, ih]

theorem ofLittleEndian_littleEndian (size value : Nat) (h : value < 256 ^ size) :
    ofLittleEndian (littleEndian size value) = value := by
  induction size generalizing value with
  | zero =>
      rw [Nat.pow_zero] at h
      rw [littleEndian, ofLittleEndian]
      omega
  | succ size ih =>
      rw [Nat.pow_succ] at h
      rw [littleEndian, ofLittleEndian, ih _ (by omega), UInt8.toNat_ofNat']
      omega

/-- A field number and the type of a field can be told apart. -/
theorem key_eq {fieldNumber type : UInt32} (hnumber : fieldNumber.toNat < 2 ^ 29) (htype : type.toNat < 8) :
    key fieldNumber type = 8 * fieldNumber.toNat + type.toNat := by
  have hshift : (fieldNumber <<< 3).toNat = 2 ^ 3 * fieldNumber.toNat := by
    rw [UInt32.toNat_shiftLeft, Nat.shiftLeft_eq]
    have : fieldNumber.toNat * 2 ^ (UInt32.toNat 3 % 32) < 2 ^ 32 := by
      show fieldNumber.toNat * 2 ^ 3 < 2 ^ 32
      omega
    rw [Nat.mod_eq_of_lt this, Nat.mul_comm]
    rfl
  rw [key, UInt32.toNat_or, hshift, ← Nat.two_pow_add_eq_or_of_lt htype]

theorem type_of_key {fieldNumber type : UInt32} (hnumber : fieldNumber.toNat < 2 ^ 29)
    (htype : type.toNat < 8) : UInt32.ofNat (key fieldNumber type) &&& 7 = type := by
  have hlt := UInt32.toNat_lt type
  apply UInt32.toNat_inj.mp
  rw [UInt32.toNat_and, UInt32.toNat_ofNat', key_eq hnumber htype,
    Nat.mod_eq_of_lt (show 8 * fieldNumber.toNat + type.toNat < 2 ^ 32 by omega),
    show UInt32.toNat 7 = 2 ^ 3 - 1 from rfl, Nat.and_two_pow_sub_one_eq_mod]
  omega

theorem fieldNumber_of_key {fieldNumber type : UInt32} (hnumber : fieldNumber.toNat < 2 ^ 29)
    (htype : type.toNat < 8) :
    UInt32.ofNat (key fieldNumber type) >>> 3 = fieldNumber := by
  apply UInt32.toNat_inj.mp
  rw [UInt32.toNat_shiftRight, UInt32.toNat_ofNat', key_eq hnumber htype,
    Nat.mod_eq_of_lt (show 8 * fieldNumber.toNat + type.toNat < 2 ^ 32 by omega),
    Nat.shiftRight_eq_div_pow]
  show (8 * fieldNumber.toNat + type.toNat) / 2 ^ 3 = fieldNumber.toNat
  omega

/-- The key of a field is read. -/
theorem getField_eq {fieldNumber type : UInt32} {lengths : List Nat} {rest : List UInt8}
    (hnumber : fieldNumber.toNat < 2 ^ 29) (htype : type.toNat < 8)
    (hcovers : StreamReader.Covers lengths (varIntBytes 10 (key fieldNumber type) ++ rest)
      (varIntBytes 10 (key fieldNumber type)).length) :
    getField { lengths := lengths, remaining := varIntBytes 10 (key fieldNumber type) ++ rest } =
      getFieldOfType type fieldNumber
        { lengths := lengths.map (· - (varIntBytes 10 (key fieldNumber type)).length),
          remaining := rest } := by
  have hkey := key_eq hnumber htype
  rw [getField, getVarInt_eq (by omega) hcovers]
  simp only [type_of_key hnumber htype, fieldNumber_of_key hnumber htype]

section Types

variable {fieldNumber : UInt32} {lengths : List Nat} {rest : List UInt8}

theorem getFieldOfType_varInt (value : UInt64)
    (hcovers : StreamReader.Covers lengths (varIntBytes 10 value.toNat ++ rest)
      (varIntBytes 10 value.toNat).length) :
    getFieldOfType 0 fieldNumber
      { lengths := lengths, remaining := varIntBytes 10 value.toNat ++ rest } =
      some ((Field.uint64 value, fieldNumber),
        { lengths := lengths.map (· - (varIntBytes 10 value.toNat).length), remaining := rest }) := by
  rw [getFieldOfType, if_pos rfl, getVarInt_eq value.toNat_lt hcovers]
  simp only [UInt64.ofNat_toNat]

theorem getFieldOfType_fixed64 (value : UInt64)
    (hcovers : StreamReader.Covers lengths (littleEndian 8 value.toNat ++ rest)
      (littleEndian 8 value.toNat).length) :
    getFieldOfType 1 fieldNumber
      { lengths := lengths, remaining := littleEndian 8 value.toNat ++ rest } =
      some ((Field.uint64 value, fieldNumber),
        { lengths := lengths.map (· - (littleEndian 8 value.toNat).length), remaining := rest }) := by
  have hlength := length_littleEndian 8 value.toNat
  have hvalue := ofLittleEndian_littleEndian 8 value.toNat value.toNat_lt
  rw [hlength] at hcovers
  rw [getFieldOfType, if_neg (by decide), if_pos rfl, getFixed64, extract_eq hcovers,
    List.take_left' hlength, List.drop_left' hlength]
  simp only [hvalue, hlength, UInt64.ofNat_toNat]

theorem getFieldOfType_fixed32 (value : UInt32)
    (hcovers : StreamReader.Covers lengths (littleEndian 4 value.toNat ++ rest)
      (littleEndian 4 value.toNat).length) :
    getFieldOfType 5 fieldNumber
      { lengths := lengths, remaining := littleEndian 4 value.toNat ++ rest } =
      some ((Field.uint32 value, fieldNumber),
        { lengths := lengths.map (· - (littleEndian 4 value.toNat).length), remaining := rest }) := by
  have hlength := length_littleEndian 4 value.toNat
  have hvalue := ofLittleEndian_littleEndian 4 value.toNat value.toNat_lt
  rw [hlength] at hcovers
  rw [getFieldOfType, if_neg (by decide), if_neg (by decide), if_neg (by decide), if_pos rfl, getFixed32,
    extract_eq hcovers, List.take_left' hlength, List.drop_left' hlength]
  simp only [hvalue, hlength, UInt32.ofNat_toNat]

/-- A length, and as many bytes after it. -/
theorem getFieldOfType_lengthDelimited {length : Nat} (hlength : length < 2 ^ 32)
    (hcovers : StreamReader.Covers lengths (varIntBytes 10 length ++ rest)
      ((varIntBytes 10 length).length + length)) (hsize : rest.length < 2 ^ 32) :
    getFieldOfType 2 fieldNumber { lengths := lengths, remaining := varIntBytes 10 length ++ rest } =
      some ((Field.lengthDelimited length, fieldNumber),
        { lengths := lengths.map (· - (varIntBytes 10 length).length), remaining := rest }) := by
  have hrest := hcovers.sub
  rw [List.drop_left] at hrest
  rw [getFieldOfType, if_neg (by decide), if_neg (by decide), if_pos rfl,
    getVarInt_eq (by omega) (hcovers.mono (by omega))]
  simp only [Nat.mod_eq_of_lt hlength, reportResult,
    decide_eq_true (le_available hrest hsize), Bool.not_true, Bool.or_false]

end Types

end ProtoParser

/-- Two readings in a row. -/
theorem map_sub_sub (lengths : List Nat) (m n : Nat) :
    (lengths.map (· - m)).map (· - n) = lengths.map (· - (m + n)) := by
  rw [List.map_map]
  apply List.map_congr_left
  intro l _
  show l - m - n = l - (m + n)
  omega

mutual

/-- The field numbers of a message have 29 bits. -/
def Value.NumbersFit : Value → Prop
  | .message message => message.NumbersFit
  | _ => True

def Message.NumbersFit : Message → Prop
  | .nil => True
  | .cons fieldNumber value rest => fieldNumber.toNat < 2 ^ 29 ∧ value.NumbersFit ∧ rest.NumbersFit

end

theorem length_varIntBytes (value : Nat) : 1 ≤ (varIntBytes 10 value).length := by
  rw [varIntBytes, List.length_cons]
  omega

theorem length_encodeField (fieldNumber : UInt32) (value : Value) :
    1 ≤ (encodeField fieldNumber value).length := by
  have hkey := fun type => length_varIntBytes (key fieldNumber type)
  cases value <;> rw [encodeField, List.length_append] <;> exact (hkey _).trans (Nat.le_add_right _ _)

section LengthDelimited

variable {lengths : List Nat} {rest : List UInt8}

/-- The bytes of a field are all that is available to its reader. -/
theorem getBytes_limited {bytes : List UInt8}
    (hcovers : StreamReader.Covers lengths (bytes ++ rest) bytes.length) (hlength : bytes.length < 2 ^ 32)
    (hsize : (bytes ++ rest).length < 2 ^ 32) :
    getBytes (limited { lengths := lengths, remaining := bytes ++ rest } bytes.length) =
      (bytes, { lengths := 0 :: lengths.map (· - bytes.length), remaining := rest }) := by
  unfold getBytes limited
  simp only [Nat.mod_eq_of_lt hlength]
  rw [available_cons hcovers hsize,
    extract_eq (hcovers.cons (le_refl _) hlength), List.take_left, List.drop_left,
    List.map_cons, Nat.sub_self]

/-- The parser of a field has the same length. -/
theorem parser_limited {length : Nat} {remaining : List UInt8}
    (hcovers : StreamReader.Covers lengths remaining length) (hlength : length < 2 ^ 32)
    (hsize : remaining.length < 2 ^ 32) :
    parser (limited { lengths := lengths, remaining := remaining } length) =
      { lengths := length :: length :: lengths, remaining := remaining } := by
  unfold parser limited
  simp only [Nat.mod_eq_of_lt hlength]
  rw [available_cons hcovers hsize, Nat.mod_eq_of_lt hlength]

end LengthDelimited

/-! ## Fields are read -/

/-- The part of the result of `GetField` that tells the value. -/
def Value.received : Value → Field
  | .varInt value => .uint64 value
  | .fixed32 value => .uint32 value
  | .fixed64 value => .uint64 value
  | .bytes contents => .lengthDelimited contents.length
  | .message contents => .lengthDelimited (encode contents).length

/-- The bytes that are left to be read after `GetField`. -/
def Value.payload : Value → List UInt8
  | .bytes contents => contents
  | .message contents => encode contents
  | _ => []

theorem length_payload_le (fieldNumber : UInt32) (value : Value) :
    value.payload.length ≤ (encodeField fieldNumber value).length := by
  cases value <;> simp only [Value.payload, encodeField, List.length_append, List.length_nil] <;> omega

section GetField

variable {fieldNumber : UInt32} {lengths : List Nat} {rest : List UInt8}

/-- `GetField` for a number, which is read as a whole. -/
theorem getField_number {type : UInt32} {field : Field} {data : List UInt8} (htype : type.toNat < 8)
    (hnumber : fieldNumber.toNat < 2 ^ 29)
    (hcovers : StreamReader.Covers lengths (varIntBytes 10 (key fieldNumber type) ++ data ++ rest)
      (varIntBytes 10 (key fieldNumber type) ++ data).length)
    (hread : ∀ lengths : List Nat, StreamReader.Covers lengths (data ++ rest) data.length →
      getFieldOfType type fieldNumber { lengths := lengths, remaining := data ++ rest } =
        some ((field, fieldNumber), { lengths := lengths.map (· - data.length), remaining := rest })) :
    getField { lengths := lengths, remaining := varIntBytes 10 (key fieldNumber type) ++ data ++ rest } =
      some ((field, fieldNumber),
        { lengths := lengths.map (· - (varIntBytes 10 (key fieldNumber type) ++ data).length),
          remaining := rest }) := by
  rw [List.append_assoc, List.length_append] at *
  have hvalue := hcovers.sub
  rw [List.drop_left] at hvalue
  rw [getField_eq hnumber htype (hcovers.mono (by omega)), hread _ hvalue, map_sub_sub]

/-- `GetField` for a length-delimited value, of which the bytes are still to be read. -/
theorem getField_lengthDelimited {bytes : List UInt8} (hnumber : fieldNumber.toNat < 2 ^ 29)
    (hcovers : StreamReader.Covers lengths
      (varIntBytes 10 (key fieldNumber 2) ++ (varIntBytes 10 bytes.length ++ bytes) ++ rest)
      (varIntBytes 10 (key fieldNumber 2) ++ (varIntBytes 10 bytes.length ++ bytes)).length)
    (hsize : (varIntBytes 10 (key fieldNumber 2) ++ (varIntBytes 10 bytes.length ++ bytes) ++
      rest).length < 2 ^ 32) :
    ∃ lengths', getField
        { lengths := lengths
          remaining := varIntBytes 10 (key fieldNumber 2) ++ (varIntBytes 10 bytes.length ++ bytes) ++
            rest } =
        some ((.lengthDelimited bytes.length, fieldNumber), { lengths := lengths', remaining := bytes ++ rest }) ∧
      StreamReader.Covers lengths' (bytes ++ rest) bytes.length ∧
      lengths'.map (· - bytes.length) = lengths.map
        (· - (varIntBytes 10 (key fieldNumber 2) ++ (varIntBytes 10 bytes.length ++ bytes)).length) := by
  simp only [List.append_assoc, List.length_append] at *
  have hvalue := hcovers.sub
  rw [List.drop_left] at hvalue
  have hbytes := hvalue.sub
  rw [List.drop_left] at hbytes
  refine ⟨_, (getField_eq hnumber (by decide) (hcovers.mono (by omega))).trans
    (getFieldOfType_lengthDelimited (by omega) hvalue (by simp; omega)), hbytes, ?_⟩
  rw [map_sub_sub, map_sub_sub]

/-- **A field is read up to its payload.** -/
theorem getField_encodeField (value : Value) (hnumber : fieldNumber.toNat < 2 ^ 29)
    (hcovers : StreamReader.Covers lengths (encodeField fieldNumber value ++ rest)
      (encodeField fieldNumber value).length)
    (hsize : (encodeField fieldNumber value ++ rest).length < 2 ^ 32) :
    ∃ lengths', getField
        { lengths := lengths, remaining := encodeField fieldNumber value ++ rest } =
        some ((value.received, fieldNumber), { lengths := lengths', remaining := value.payload ++ rest }) ∧
      StreamReader.Covers lengths' (value.payload ++ rest) value.payload.length ∧
      lengths'.map (· - value.payload.length) = lengths.map (· - (encodeField fieldNumber value).length) := by
  -- nothing is left of a number
  have hnothing (n : Nat) (h : StreamReader.Covers lengths (encodeField fieldNumber value ++ rest) n) :
      StreamReader.Covers (lengths.map (· - n)) ([] ++ rest) 0 :=
    ⟨(StreamReader.Covers.sub (n := 0) h).lengths, Nat.zero_le _⟩
  cases value with
  | varInt value =>
      unfold encodeField at *
      exact ⟨_, getField_number (by decide) hnumber hcovers
        (fun _ h => getFieldOfType_varInt value h), hnothing _ hcovers, by simp [Value.payload]⟩
  | fixed32 value =>
      unfold encodeField at *
      exact ⟨_, getField_number (by decide) hnumber hcovers
        (fun _ h => getFieldOfType_fixed32 value h), hnothing _ hcovers, by simp [Value.payload]⟩
  | fixed64 value =>
      unfold encodeField at *
      exact ⟨_, getField_number (by decide) hnumber hcovers
        (fun _ h => getFieldOfType_fixed64 value h), hnothing _ hcovers, by simp [Value.payload]⟩
  | bytes bytes | message message =>
      unfold encodeField at *
      exact getField_lengthDelimited hnumber hcovers hsize

end GetField

mutual

/-- **A value is read back.** -/
theorem readValue_eq (value : Value) {lengths : List Nat} {rest : List UInt8} (hfit : value.NumbersFit)
    (hcovers : StreamReader.Covers lengths (value.payload ++ rest) value.payload.length)
    (hsize : (value.payload ++ rest).length < 2 ^ 32) :
    readValue value.kind value.received { lengths := lengths, remaining := value.payload ++ rest } =
      some (value, { lengths := lengths.map (· - value.payload.length), remaining := rest }) := by
  have hlength := hsize
  rw [List.length_append] at hlength
  cases value with
  | varInt value => simp [Value.kind, Value.received, Value.payload, readValue]
  | fixed32 value => simp [Value.kind, Value.received, Value.payload, readValue]
  | fixed64 value => simp [Value.kind, Value.received, Value.payload, readValue]
  | bytes bytes =>
      simp only [Value.payload] at *
      rw [Value.kind, Value.received, readValue, getBytes_limited hcovers (by omega) hsize]
      simp only [StreamReader.below, List.tail_cons]
  | message message =>
      simp only [Value.payload] at *
      have hfit' : message.NumbersFit := by
        rw [Value.NumbersFit] at hfit
        exact hfit
      rw [Value.kind, Value.received, readValue, parser_limited hcovers (by omega) hsize,
        readMessage_eq message hfit' (hcovers.cons (le_refl _) (by omega)) hsize]
      simp only [Option.bind_eq_bind, Option.bind_some, StreamReader.below, List.map_cons, List.tail_cons]
      rfl

/-- **A message is read back.** -/
theorem readMessage_eq (message : Message) {lengths : List Nat} {rest : List UInt8}
    (hfit : message.NumbersFit)
    (hcovers : StreamReader.Covers lengths (encode message ++ rest) (encode message).length)
    (hsize : (encode message ++ rest).length < 2 ^ 32) :
    readMessage message.kind
      { lengths := (encode message).length :: lengths, remaining := encode message ++ rest } =
      some (message,
        { lengths := 0 :: lengths.map (· - (encode message).length), remaining := rest }) := by
  cases message with
  | nil =>
      rw [Message.kind, readMessage]
      simp [encode, empty]
  | cons fieldNumber value rest' =>
      unfold encode at *
      rw [Message.NumbersFit] at hfit
      obtain ⟨hnumber, hvalue, hrest⟩ := hfit
      simp only [List.append_assoc, List.length_append] at *
      have hpos := length_encodeField fieldNumber value
      have hfield := hcovers.cons (le_refl _) (by omega)
      have hempty := not_empty hfield (by omega)
      have hafter := hcovers.sub
      rw [List.drop_left] at hafter
      obtain ⟨lengths', hget, hpayload, hlengths⟩ := getField_encodeField value hnumber (hfield.mono (by omega))
        (by simp; omega)
      have hread := readValue_eq value hvalue hpayload (by
        have := length_payload_le fieldNumber value
        simp; omega)
      rw [Message.kind, readMessage]
      simp only [hempty, Bool.false_eq_true, if_false, hget, Option.bind_eq_bind, Option.bind_some,
        hread, hlengths, List.map_cons, Nat.add_sub_cancel_left]
      rw [readMessage_eq rest' hrest hafter (by simp; omega)]
      simp only [Option.bind_some, map_sub_sub]
      rfl

end

/-! ## The round trip -/

/-- The message is formatted to the memory and read back, and no stream fails. -/
def RoundTrips (message : Message) (memory : List UInt8) : Prop :=
  ∃ w r, putMessage (ByteOutputStreamWriter.ofMemory memory) message = some w ∧
    w.failed = false ∧ parse message.kind w.processed = some (message, r) ∧ r.failed = false ∧
    empty r.lengths r.remaining = true

/-- **A message of less than `2 ^ 32` bytes is read back as it was.** -/
theorem roundTrips_of_length_lt {message : Message} {memory : List UInt8} (hfit : message.NumbersFit)
    (hroom : (encode message).length ≤ memory.length) (hsize : (encode message).length < 2 ^ 32) :
    RoundTrips message memory := by
  obtain ⟨w, free, hput, -, hw⟩ :=
    writes_putMessage message (Writes.ofMemory memory) hroom hsize
  have hprocessed := hw.processed
  rw [List.nil_append] at hprocessed
  have hcovers : StreamReader.Covers [] (encode message ++ []) (encode message).length :=
    ⟨fun _ hl => absurd hl (List.not_mem_nil), by simp⟩
  have hread := readMessage_eq message hfit hcovers (by simpa using hsize)
  rw [List.append_nil] at hread
  refine ⟨w, { lengths := [0], remaining := [] }, hput, hw.failed, ?_, rfl, rfl⟩
  rw [hprocessed, parse, parser, available, limited,
    Nat.mod_eq_of_lt hsize]
  exact hread

/-- A message in a message, with a number that takes two bytes. -/
theorem roundTrips_nested :
    RoundTrips (.cons 1 (.message (.cons 2 (.varInt 300) (.cons 3 (.bytes [1, 2]) .nil)))
      (.cons 4 (.fixed32 7) .nil)) (List.replicate 20 0) :=
  roundTrips_of_length_lt ⟨by decide, ⟨by decide, trivial, by decide, trivial, trivial⟩, by decide, trivial, trivial⟩
    (by decide +kernel) (by decide +kernel)

/-- What is read of a payload of `2 ^ 32` bytes: none of them. -/
theorem parse_long_payload {payload : List UInt8} (hpayload : payload.length = 2 ^ 32) :
    ∃ r, parse (.cons .bytes .nil) (encodeField 1 (.bytes payload)) =
      some (.cons 1 (.bytes []) .nil, r) := by
  have hkey : (varIntBytes 10 (key 1 2)).length = 1 := by decide
  have hsize : (varIntBytes 10 (2 ^ 32)).length = 5 := by decide
  have hcovers : ∀ n ≤ 6, StreamReader.Covers [6]
      (varIntBytes 10 (key 1 2) ++ (varIntBytes 10 (2 ^ 32) ++ payload)) n := by
    intro n hn
    refine ⟨?_, by simp only [List.length_append]; omega⟩
    intro l hl
    rw [List.mem_singleton.mp hl]
    omega
  -- the parser takes the length of the stream for 6
  have hlimit : parser { lengths := [], remaining := encodeField 1 (.bytes payload) } =
      { lengths := [6],
        remaining := varIntBytes 10 (key 1 2) ++ (varIntBytes 10 (2 ^ 32) ++ payload) } := by
    have hlength : (encodeField 1 (.bytes payload)).length % 2 ^ 32 = 6 := by
      rw [encodeField, hpayload]
      simp only [List.length_append]
      omega
    rw [parser, limited]
    simp only [available, hlength]
    rw [encodeField, hpayload]
  have hvalue : StreamReader.Covers ([6].map (· - (varIntBytes 10 (key 1 2)).length))
      (varIntBytes 10 (2 ^ 32) ++ payload) 5 := by
    rw [hkey]
    refine ⟨?_, by rw [List.length_append]; omega⟩
    intro l hl
    rw [List.mem_singleton.mp hl]
    norm_num
  have hfield : getField
      { lengths := [6],
        remaining := varIntBytes 10 (key 1 2) ++ (varIntBytes 10 (2 ^ 32) ++ payload) } =
      some ((Field.lengthDelimited 0, 1), { lengths := [0], remaining := payload }) := by
    rw [getField_eq (by decide) (by decide) (hcovers _ (by omega)), getFieldOfType,
      if_neg (by decide), if_neg (by decide), if_pos rfl,
      getVarInt_eq (by norm_num) (by rw [hsize]; exact hvalue), hkey, hsize]
    simp [reportResult]
  have hnonempty := not_empty (hcovers 1 (by omega)) (le_refl 1)
  have hbytes : getBytes (limited { lengths := [0], remaining := payload } 0) =
      ([], { lengths := [0, 0], remaining := payload }) := by
    simp [getBytes, limited, available, extract]
  refine ⟨{ lengths := [0], remaining := payload }, ?_⟩
  rw [parse, hlimit, readMessage]
  simp only [hnonempty, Bool.false_eq_true, if_false, hfield, Option.bind_eq_bind, Option.bind_some,
    readValue, hbytes]
  rfl

theorem not_roundTrips_of_length {payload : List UInt8} (hpayload : payload.length = 2 ^ 32) :
    ¬ RoundTrips (.cons 1 (.bytes payload) .nil) (encodeField 1 (.bytes payload)) := by
  rintro ⟨w, r, hput, -, hparse, -⟩
  obtain ⟨w', free, hput', -, hw⟩ := writes_putBytesField
    (Writes.ofMemory (encodeField 1 (.bytes payload))) 1 payload (le_refl _)
  have hw' : w = w' := by
    rw [putMessage, hput'] at hput
    simpa [putMessage] using hput.symm
  obtain ⟨r', hread⟩ := parse_long_payload hpayload
  rw [hw', hw.processed, List.nil_append] at hparse
  rw [Message.kind, Value.kind, Message.kind, hread] at hparse
  simp only [Option.some.injEq, Prod.mk.injEq, Message.cons.injEq, Value.bytes.injEq, true_and,
    and_true] at hparse
  rw [← hparse.1, List.length_nil] at hpayload
  omega

/-- **The lengths have 32 bits**: a payload of `2 ^ 32` bytes is not read back. -/
theorem not_roundTrips_long_payload :
    ¬ ∀ (message : Message) (memory : List UInt8), message.NumbersFit →
      (encode message).length ≤ memory.length → RoundTrips message memory := by
  intro h
  have hlength : (List.replicate (2 ^ 32) (0 : UInt8)).length = 2 ^ 32 := List.length_replicate
  refine not_roundTrips_of_length hlength (h (.cons 1 (.bytes (List.replicate (2 ^ 32) 0)) .nil)
    (encodeField 1 (.bytes (List.replicate (2 ^ 32) 0))) ?_ ?_)
  · exact ⟨by decide, trivial, trivial⟩
  · rw [encode, encode, List.append_nil]

end EmbeddedInfra.Proto
