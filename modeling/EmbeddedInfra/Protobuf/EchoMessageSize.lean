import EmbeddedInfra.Protobuf.EchoMessageRoundTrip

set_option autoImplicit false

/-! # The maximum size of a message

With each message class the echo plugin emits `maxMessageSize`, and a proxy asks for a send stream that has
room for the largest of the arguments of its methods. The size of most fields is that of their largest
value, but a negative `int32` takes ten bytes and is counted as five, and the length in front of a nested
message is not counted. A message type without such fields keeps to its maximum size, and no other does
(`fitsMaxMessageSize_iff`).
-/

namespace EmbeddedInfra.Echo

open Streams Proto

/-! ## The sizes that are emitted -/

/-- The loop of `MaxVarIntSize`. A number of 32 bits takes at most four turns. -/
def maxVarIntSizeFrom : Nat → Nat → Nat
  | 0, _ => 1
  | turns + 1, value => if value > 127 then maxVarIntSizeFrom turns (value >>> 7) + 1 else 1

def maxVarIntSize (value : UInt32) : UInt32 := UInt32.ofNat (maxVarIntSizeFrom 9 value.toNat)

/-- `MaxVarIntSize((number << 3) | 2)` -/
def maxKeySize (number : UInt32) : UInt32 := maxVarIntSize ((number <<< 3) ||| 2)

mutual

/-- What `GenerateMaxMessageSize` adds for a field. -/
def EchoField.maxSize : EchoField → UInt32 → UInt32
  | .int32, number => maxVarIntSize 0xffffffff + maxKeySize number
  | .fixed32, number => 4 + maxKeySize number
  | .bool, number => maxVarIntSize 1 + maxKeySize number
  | .string maxStringSize, number => maxStringSize + maxVarIntSize maxStringSize + maxKeySize number
  | .message message, number => message.maxMessageSize + maxKeySize number
  | .bytes maxBytesSize, number => maxBytesSize + maxVarIntSize maxBytesSize + maxKeySize number
  | .uint32, number => maxVarIntSize 0xffffffff + maxKeySize number
  | .repeatedString maxArraySize maxStringSize, number =>
      maxArraySize * (maxStringSize + maxVarIntSize maxStringSize + maxKeySize number)
  | .repeatedMessage maxArraySize message, number =>
      maxArraySize * message.maxMessageSize + maxArraySize * maxKeySize number
  | .repeatedUint32 maxArraySize, number => maxArraySize * (maxVarIntSize 0xffffffff + maxKeySize number)

def EchoMessage.maxMessageSize : EchoMessage → UInt32
  | .nil => 0
  | .cons number field rest => field.maxSize number + rest.maxMessageSize

end

/-- The size that is emitted for the argument of a method. -/
def maxArgumentSize : Option EchoMessage → UInt32
  | none => 0
  | some message => message.maxMessageSize

/-- `std::max<uint32_t>` -/
def stdMax (a b : UInt32) : UInt32 := if a < b then b else a

/-- `ServiceGenerator::MaxMessageSize` -/
def EchoService.maxMessageSize (service : EchoService) : UInt32 :=
  service.methods.foldl (fun result method =>
    stdMax (maxVarIntSize service.serviceId + maxKeySize method.methodId + 10 + maxArgumentSize method.parameter) result) 0

/-! ## The same sizes as natural numbers -/

/-- The size of a number as a varint. -/
def varIntSize (value : Nat) : Nat := (varIntBytes 10 value).length

def keySize (number : UInt32) : Nat := varIntSize (ProtoFormatter.key number 2)

mutual

/-- What `GenerateMaxMessageSize` adds for a field, when no number is too large for 32 bits. -/
def EchoField.size : EchoField → UInt32 → Nat
  | .int32, number => 5 + keySize number
  | .fixed32, number => 4 + keySize number
  | .bool, number => 1 + keySize number
  | .string maxStringSize, number => maxStringSize.toNat + varIntSize maxStringSize.toNat + keySize number
  | .message message, number => message.size + keySize number
  | .bytes maxBytesSize, number => maxBytesSize.toNat + varIntSize maxBytesSize.toNat + keySize number
  | .uint32, number => 5 + keySize number
  | .repeatedString maxArraySize maxStringSize, number =>
      maxArraySize.toNat * (maxStringSize.toNat + varIntSize maxStringSize.toNat + keySize number)
  | .repeatedMessage maxArraySize message, number =>
      maxArraySize.toNat * message.size + maxArraySize.toNat * keySize number
  | .repeatedUint32 maxArraySize, number => maxArraySize.toNat * (5 + keySize number)

/-- The sum of the sizes of the fields. -/
def EchoMessage.size : EchoMessage → Nat
  | .nil => 0
  | .cons number field rest => field.size number + rest.size

end

theorem length_varIntBytes_succ (turns value : Nat) :
    (varIntBytes (turns + 1) value).length = maxVarIntSizeFrom turns value := by
  induction turns generalizing value with
  | zero =>
      rw [varIntBytes, maxVarIntSizeFrom, List.length_cons]
      split <;> rfl
  | succ turns ih =>
      rw [maxVarIntSizeFrom]
      by_cases hmore : 127 < value
      · rw [varIntBytes_more _ hmore, List.length_cons, ih, if_pos hmore, Nat.shiftRight_eq_div_pow]
      · rw [varIntBytes_last _ (by omega), if_neg hmore, List.length_singleton]

theorem maxVarIntSizeFrom_le (turns value : Nat) : maxVarIntSizeFrom turns value ≤ turns + 1 := by
  induction turns generalizing value with
  | zero => rfl
  | succ turns ih =>
      rw [maxVarIntSizeFrom]
      split
      · exact Nat.succ_le_succ (ih _)
      · omega

theorem toNat_maxVarIntSize (value : UInt32) : (maxVarIntSize value).toNat = varIntSize value.toNat := by
  have hle := maxVarIntSizeFrom_le 9 value.toNat
  rw [maxVarIntSize, UInt32.toNat_ofNat', Nat.mod_eq_of_lt (by omega), varIntSize, length_varIntBytes_succ]

theorem toNat_maxKeySize (number : UInt32) : (maxKeySize number).toNat = keySize number := toNat_maxVarIntSize _

theorem varIntSize_max : varIntSize 4294967295 = 5 := by decide

theorem varIntSize_one : varIntSize 1 = 1 := by decide

mutual

theorem toNat_maxSize (field : EchoField) (number : UInt32) :
    (field.maxSize number).toNat = field.size number % 2 ^ 32 := by
  cases field with
  | message message =>
      simp only [EchoField.maxSize, EchoField.size, UInt32.toNat_add, toNat_maxKeySize, toNat_maxMessageSize message]
      omega
  | repeatedMessage maxArraySize message =>
      simp only [EchoField.maxSize, EchoField.size, UInt32.toNat_add, UInt32.toNat_mul, toNat_maxKeySize,
        toNat_maxMessageSize message]
      simp [Nat.add_mod, Nat.mul_mod]
  | int32 | fixed32 | bool | uint32 =>
      simp only [EchoField.maxSize, EchoField.size, UInt32.toNat_add, toNat_maxKeySize, toNat_maxVarIntSize,
        UInt32.reduceToNat, varIntSize_max, varIntSize_one]
  | string maxSize | bytes maxSize =>
      simp only [EchoField.maxSize, EchoField.size, UInt32.toNat_add, toNat_maxKeySize, toNat_maxVarIntSize]
      omega
  | repeatedString maxArraySize maxStringSize =>
      simp only [EchoField.maxSize, EchoField.size, UInt32.toNat_add, UInt32.toNat_mul, toNat_maxKeySize,
        toNat_maxVarIntSize]
      simp [Nat.add_mod, Nat.mul_mod]
  | repeatedUint32 maxArraySize =>
      simp only [EchoField.maxSize, EchoField.size, UInt32.toNat_add, UInt32.toNat_mul, toNat_maxKeySize,
        toNat_maxVarIntSize, UInt32.reduceToNat, varIntSize_max]
      simp [Nat.add_mod, Nat.mul_mod]

/-- **The emitted size is the sum of the sizes, with 32 bits.** -/
theorem toNat_maxMessageSize (message : EchoMessage) : message.maxMessageSize.toNat = message.size % 2 ^ 32 := by
  cases message with
  | nil => rfl
  | cons number field rest =>
      simp only [EchoMessage.maxMessageSize, EchoMessage.size, UInt32.toNat_add, toNat_maxSize field,
        toNat_maxMessageSize rest]
      omega

end

/-! ## The fields that are counted right -/

/-- The largest value of the field takes as many bytes as are counted. -/
def EchoField.isCounted : EchoField → Bool
  | .int32 | .message _ | .repeatedMessage _ _ => false
  | _ => true

/-- All fields are counted right. -/
def EchoMessage.isCounted : EchoMessage → Bool
  | .nil => true
  | .cons _ field rest => field.isCounted && rest.isCounted

/-- **The emitted maximum size is one**: `Serialize` does not write more than that, to any stream. -/
def EchoMessage.FitsMaxMessageSize (message : EchoMessage) : Prop :=
  ∀ (value : message.Val) (memory : List UInt8) (w : ByteOutputStreamWriter),
    message.serialize value (ByteOutputStreamWriter.ofMemory memory) = some w → w.failed = false →
      w.processed.length ≤ message.maxMessageSize.toNat

/-! ## The size of a value -/

/-- The bytes of some values with one field number. -/
def valuesSize (number : UInt32) (values : List Value) : Nat :=
  (values.map fun x => (writtenField number x).length).sum

theorem valuesSize_cons (number : UInt32) (x : Value) (values : List Value) :
    valuesSize number (x :: values) = (writtenField number x).length + valuesSize number values := by
  simp [valuesSize]

theorem valuesSize_single (number : UInt32) (x : Value) : valuesSize number [x] = (writtenField number x).length := by
  simp [valuesSize]

theorem length_written_consFields (number : UInt32) (values : List Value) (rest : Message) :
    (written (consFields number values rest)).length = valuesSize number values + (written rest).length := by
  induction values with
  | nil => simp [valuesSize, consFields]
  | cons x values ih =>
      rw [show consFields number (x :: values) rest = .cons number x (consFields number values rest) from rfl, written,
        List.length_append, ih]
      simp [valuesSize, Nat.add_assoc]

/-- The type of a field does not change the size of the key. -/
theorem length_key {number type : UInt32} (hnumber : number.toNat < 2 ^ 29) (htype : type.toNat < 8) :
    (varIntBytes 10 (ProtoFormatter.key number type)).length = keySize number := by
  have hfirst (value : Nat) : (varIntBytes 10 value).length =
      if value > 127 then maxVarIntSizeFrom 8 (value / 2 ^ 7) + 1 else 1 := by
    rw [length_varIntBytes_succ, maxVarIntSizeFrom, Nat.shiftRight_eq_div_pow]
  have hquotient : (8 * number.toNat + type.toNat) / 2 ^ 7 = (8 * number.toNat + UInt32.toNat 2) / 2 ^ 7 := by
    show _ = (8 * number.toNat + 2) / 2 ^ 7
    omega
  have hmore : 8 * number.toNat + type.toNat > 127 ↔ 8 * number.toNat + UInt32.toNat 2 > 127 := by
    show _ ↔ 8 * number.toNat + 2 > 127
    omega
  rw [keySize, varIntSize, hfirst, hfirst, ProtoParser.key_eq hnumber htype, ProtoParser.key_eq hnumber (by decide)]
  simp only [hquotient, hmore]

theorem varIntSize_mono {a b : Nat} (h : a ≤ b) : varIntSize a ≤ varIntSize b := by
  have hmono (turns : Nat) : maxVarIntSizeFrom turns a ≤ maxVarIntSizeFrom turns b := by
    induction turns generalizing a b with
    | zero => rfl
    | succ turns ih =>
        rw [maxVarIntSizeFrom, maxVarIntSizeFrom]
        by_cases ha : a > 127
        · rw [if_pos ha, if_pos (by omega)]
          exact Nat.succ_le_succ (ih (by simp only [Nat.shiftRight_eq_div_pow]; omega))
        · rw [if_neg ha]
          split <;> omega
  rw [varIntSize, varIntSize, length_varIntBytes_succ, length_varIntBytes_succ]
  exact hmono 9

theorem varIntSize_le_five {value : Nat} (h : value < 2 ^ 32) : varIntSize value ≤ 5 :=
  (varIntSize_mono (Nat.le_sub_one_of_lt h)).trans (le_of_eq varIntSize_max)

section Sizes

variable {number : UInt32} (hnumber : number.toNat < 2 ^ 29)
include hnumber

theorem length_varIntField (value : UInt64) :
    (writtenField number (.varInt value)).length = keySize number + varIntSize value.toNat := by
  simp only [writtenField, encodeField, List.length_append]
  rw [length_key hnumber (by decide)]
  rfl

theorem length_fixed32Field (value : UInt32) :
    (writtenField number (.fixed32 value)).length = keySize number + 4 := by
  simp only [writtenField, encodeField, List.length_append, ProtoParser.length_littleEndian]
  rw [length_key hnumber (by decide)]

end Sizes

theorem length_bytesField (number : UInt32) (bytes : List UInt8) :
    (writtenField number (.bytes bytes)).length = keySize number + (varIntSize bytes.length + bytes.length) := by
  simp only [writtenField, encodeField, List.length_append]
  rfl

theorem length_messageField (number : UInt32) (message : Message) :
    (writtenField number (.message message)).length =
      keySize number + (varIntSize ((written message).length % 2 ^ 32) + (written message).length) := by
  simp only [writtenField, List.length_append]
  rfl

/-! ## No value is larger -/

/-- The values of an array do not take more than as many times the largest one. -/
theorem valuesSize_map_le {α : Type} {maxArraySize number : UInt32} {f : α → Value} {bound : Nat}
    (value : BoundedVector α maxArraySize) (h : ∀ a, (writtenField number (f a)).length ≤ bound) :
    valuesSize number (value.1.map f) ≤ maxArraySize.toNat * bound := by
  have hsum (elements : List α) : valuesSize number (elements.map f) ≤ elements.length * bound := by
    induction elements with
    | nil => simp [valuesSize]
    | cons a elements ih =>
        have ha := h a
        rw [List.map_cons, valuesSize_cons, List.length_cons, Nat.add_mul, Nat.one_mul]
        omega
  exact (hsum value.1).trans (Nat.mul_le_mul_right _ value.2)

section Counted

variable {number : UInt32} (hnumber : number.toNat < 2 ^ 29)
include hnumber

theorem length_uint32Field_le (value : UInt32) :
    (writtenField number (.varInt (UInt32.toUInt64 value))).length ≤ 5 + keySize number := by
  have hvalue := varIntSize_le_five value.toNat_lt
  rw [length_varIntField hnumber, UInt32.toNat_toUInt64]
  omega

omit hnumber in
theorem length_boundedField_le {maxSize : UInt32} (value : BoundedVector UInt8 maxSize) :
    (writtenField number (.bytes value.1)).length ≤ maxSize.toNat + varIntSize maxSize.toNat + keySize number := by
  have hlength := varIntSize_mono value.2
  have hvalue := value.2
  rw [length_bytesField]
  omega

/-- The values of a data member do not take more than is counted for it. -/
theorem valuesSize_le {field : EchoField} (hcounted : field.isCounted = true) (value : field.Val) :
    valuesSize number (field.wire value) ≤ field.size number := by
  cases field with
  | int32 | message _ | repeatedMessage _ _ => cases hcounted
  | fixed32 =>
      exact le_of_eq ((valuesSize_single _ _).trans ((length_fixed32Field hnumber _).trans (Nat.add_comm _ _)))
  | bool =>
      have hsize : varIntSize (Bool.toUInt64 value).toNat = 1 := by cases value <;> decide
      refine le_of_eq ((valuesSize_single _ _).trans ((length_varIntField hnumber _).trans ?_))
      rw [hsize, Nat.add_comm]
      rfl
  | string | bytes => exact (le_of_eq (valuesSize_single _ _)).trans (length_boundedField_le value)
  | uint32 => exact (le_of_eq (valuesSize_single _ _)).trans (length_uint32Field_le hnumber value)
  | repeatedString maxArraySize maxStringSize => exact valuesSize_map_le value length_boundedField_le
  | repeatedUint32 maxArraySize => exact valuesSize_map_le value (length_uint32Field_le hnumber)

end Counted

theorem length_written_le {message : EchoMessage} (hmessage : message.WellFormed) (hcounted : message.isCounted = true)
    (value : message.Val) : (written (message.wire value)).length ≤ message.size := by
  induction message using EchoMessage.numbers.induct with
  | case1 => exact le_refl _
  | case2 number field rest ih =>
      obtain ⟨-, hnumber, -, -, hrest⟩ := hmessage
      obtain ⟨hfield, hcounted⟩ := Bool.and_eq_true_iff.mp hcounted
      refine (le_of_eq (length_written_consFields number (field.wire value.1) (rest.wire value.2))).trans ?_
      exact Nat.add_le_add (valuesSize_le hnumber hfield value.1) (ih hrest hcounted value.2)

/-! ### What has been written to a stream that has not failed -/

section Grows

/-- As many bytes have been written, unless the stream has failed. -/
def Grows (w w' : ByteOutputStreamWriter) (n : Nat) : Prop :=
  w'.failed = false → w.failed = false ∧ w'.offset = w.offset + n

variable {w w' w'' : ByteOutputStreamWriter} {m n : Nat}

theorem Grows.refl (w : ByteOutputStreamWriter) : Grows w w 0 := fun h => ⟨h, rfl⟩

theorem Grows.trans (h : Grows w w' m) (h' : Grows w' w'' n) : Grows w w'' (m + n) := by
  intro hfailed
  obtain ⟨hw', hoffset'⟩ := h' hfailed
  obtain ⟨hw, hoffset⟩ := h hw'
  exact ⟨hw, by omega⟩

theorem insert_grows (w : ByteOutputStreamWriter) (data : List UInt8) : Grows w (w.insert data) data.length := by
  intro h
  simp only [ByteOutputStreamWriter.insert, Bool.or_eq_false_iff, Bool.not_eq_false', decide_eq_true_eq] at h
  exact ⟨h.1, by simp [ByteOutputStreamWriter.insert, h.2]⟩

theorem putVarInt_grows (w : ByteOutputStreamWriter) (value : Nat) :
    Grows w (ProtoFormatter.putVarInt w value) (varIntBytes 10 value).length := by
  unfold ProtoFormatter.putVarInt
  induction varIntBytes 10 value generalizing w with
  | nil => exact Grows.refl w
  | cons byte bytes ih =>
      have hboth := (insert_grows w [byte]).trans (ih (w.insert [byte]))
      rwa [← List.length_append] at hboth

/-- A value that is not a message. -/
def IsPlain : Value → Prop
  | .message _ => False
  | _ => True

theorem putField_grows {number : UInt32} {x : Value} (hplain : IsPlain x)
    (hput : ProtoFormatter.putField w number x = some w') : Grows w w' (writtenField number x).length := by
  cases x with
  | message => exact hplain.elim
  | varInt value =>
      cases hput
      simp only [writtenField, encodeField, List.length_append]
      exact (putVarInt_grows w _).trans (putVarInt_grows _ _)
  | fixed32 value | fixed64 value =>
      cases hput
      simp only [writtenField, encodeField, List.length_append]
      exact (putVarInt_grows w _).trans (insert_grows _ _)
  | bytes bytes =>
      cases hput
      simp only [writtenField, encodeField, List.length_append]
      exact (putVarInt_grows w _).trans ((putVarInt_grows _ _).trans (insert_grows _ _))

/-- The fields of a data member that is counted right are no messages. -/
theorem isPlain_wire {field : EchoField} (hcounted : field.isCounted = true) (value : field.Val) :
    ∀ x ∈ field.wire value, IsPlain x := by
  intro x hx
  cases field with
  | int32 | message _ | repeatedMessage _ _ => cases hcounted
  | fixed32 | bool | string _ | bytes _ | uint32 =>
      obtain rfl := List.mem_singleton.mp hx
      trivial
  | repeatedString _ _ | repeatedUint32 _ =>
      obtain ⟨a, -, rfl⟩ := List.mem_map.mp hx
      trivial

theorem putFields_grows {number : UInt32} {values : List Value} (hplain : ∀ x ∈ values, IsPlain x)
    (hput : values.foldlM (fun w x => ProtoFormatter.putField w number x) w = some w') :
    Grows w w' (valuesSize number values) := by
  induction values generalizing w with
  | nil =>
      cases hput
      exact Grows.refl _
  | cons x values ih =>
      obtain ⟨w₁, hfirst, hrest⟩ := Option.bind_eq_some_iff.mp hput
      rw [valuesSize_cons]
      exact (putField_grows (hplain x List.mem_cons_self) hfirst).trans
        (ih (fun y hy => hplain y (List.mem_cons_of_mem _ hy)) hrest)

theorem serialize_grows {message : EchoMessage} (hcounted : message.isCounted = true) {value : message.Val}
    (h : message.serialize value w = some w') : Grows w w' (written (message.wire value)).length := by
  induction message using EchoMessage.numbers.induct generalizing w with
  | case1 =>
      cases h
      exact Grows.refl _
  | case2 number field rest ih =>
      obtain ⟨hfield, hrest⟩ := Bool.and_eq_true_iff.mp hcounted
      obtain ⟨w₁, hfirst, hlater⟩ := Option.bind_eq_some_iff.mp h
      rw [serialize_field] at hfirst
      have hboth := (putFields_grows (isPlain_wire hfield value.1) hfirst).trans (ih hrest hlater)
      rwa [← length_written_consFields] at hboth

theorem length_processed_le (w : ByteOutputStreamWriter) : w.processed.length ≤ w.offset := by
  rw [ByteOutputStreamWriter.processed, between, List.length_take]
  omega

end Grows

/-! ## Some value is as large -/

mutual

/-- A largest value. -/
def EchoField.largest : (field : EchoField) → field.Val
  | .int32 => (-1 : Int32)
  | .fixed32 => (0 : UInt32)
  | .bool => true
  | .string maxStringSize => ⟨List.replicate maxStringSize.toNat 0, le_of_eq List.length_replicate⟩
  | .message message => message.largest
  | .bytes maxBytesSize => ⟨List.replicate maxBytesSize.toNat 0, le_of_eq List.length_replicate⟩
  | .uint32 => (0xffffffff : UInt32)
  | .repeatedString maxArraySize maxStringSize =>
      ⟨List.replicate maxArraySize.toNat ⟨List.replicate maxStringSize.toNat 0, le_of_eq List.length_replicate⟩,
        le_of_eq List.length_replicate⟩
  | .repeatedMessage maxArraySize message =>
      ⟨List.replicate maxArraySize.toNat message.largest, le_of_eq List.length_replicate⟩
  | .repeatedUint32 maxArraySize =>
      ⟨List.replicate maxArraySize.toNat (0xffffffff : UInt32), le_of_eq List.length_replicate⟩

def EchoMessage.largest : (message : EchoMessage) → message.Val
  | .nil => ()
  | .cons _ field rest => (field.largest, rest.largest)

end

theorem valuesSize_replicate {α : Type} (number : UInt32) (f : α → Value) (a : α) (n : Nat) :
    valuesSize number ((List.replicate n a).map f) = n * (writtenField number (f a)).length := by
  simp [valuesSize]

theorem varIntSize_pos (value : Nat) : 1 ≤ varIntSize value := length_varIntBytes value

mutual

/-- The largest value takes as much as is counted for it, and more when it is not counted right. -/
theorem size_le_valuesSize (field : EchoField) (hfield : field.WellFormed) {number : UInt32}
    (hnumber : number.toNat < 2 ^ 29) :
    field.size number + (!field.isCounted).toNat ≤ valuesSize number (field.wire field.largest) := by
  cases field with
  | int32 =>
      have hsize : varIntSize (int32ToUint64 (-1)).toNat = 10 := by decide
      refine le_of_le_of_eq ?_ ((valuesSize_single _ _).trans (length_varIntField hnumber _)).symm
      show 5 + keySize number + 1 ≤ keySize number + varIntSize (int32ToUint64 (-1)).toNat
      omega
  | fixed32 =>
      refine le_of_le_of_eq ?_ ((valuesSize_single _ _).trans (length_fixed32Field hnumber _)).symm
      show 4 + keySize number ≤ keySize number + 4
      omega
  | bool =>
      refine le_of_le_of_eq ?_ ((valuesSize_single _ _).trans (length_varIntField hnumber _)).symm
      show 1 + keySize number ≤ keySize number + varIntSize 1
      rw [varIntSize_one, Nat.add_comm]
  | uint32 =>
      refine le_of_le_of_eq ?_ ((valuesSize_single _ _).trans (length_varIntField hnumber _)).symm
      show 5 + keySize number ≤ keySize number + varIntSize 4294967295
      rw [varIntSize_max, Nat.add_comm]
  | string maxSize | bytes maxSize =>
      refine le_of_le_of_eq ?_ ((valuesSize_single _ _).trans (length_bytesField number _)).symm
      show maxSize.toNat + varIntSize maxSize.toNat + keySize number ≤ keySize number +
        (varIntSize (List.replicate maxSize.toNat (0 : UInt8)).length + (List.replicate maxSize.toNat (0 : UInt8)).length)
      rw [List.length_replicate]
      omega
  | message message =>
      have hmessage := size_le_written message hfield
      have hlength := varIntSize_pos ((written (message.wire message.largest)).length % 2 ^ 32)
      refine le_of_le_of_eq ?_ ((valuesSize_single _ _).trans (length_messageField number _)).symm
      show message.size + keySize number + 1 ≤ keySize number +
        (varIntSize ((written (message.wire message.largest)).length % 2 ^ 32) +
          (written (message.wire message.largest)).length)
      omega
  | repeatedString maxArraySize maxStringSize =>
      refine le_of_eq (Eq.trans ?_ (valuesSize_replicate number _ _ _).symm)
      rw [length_bytesField, List.length_replicate]
      show maxArraySize.toNat * (maxStringSize.toNat + varIntSize maxStringSize.toNat + keySize number) = _
      congr 1
      omega
  | repeatedMessage maxArraySize message =>
      have hmessage := size_le_written message hfield.2
      have hlength := varIntSize_pos ((written (message.wire message.largest)).length % 2 ^ 32)
      have hpos : 0 < maxArraySize.toNat := hfield.1
      refine le_of_le_of_eq ?_ (valuesSize_replicate number _ _ _).symm
      rw [length_messageField]
      show maxArraySize.toNat * message.size + maxArraySize.toNat * keySize number + 1 ≤ _
      calc maxArraySize.toNat * message.size + maxArraySize.toNat * keySize number + 1
          ≤ maxArraySize.toNat * message.size + maxArraySize.toNat * keySize number + maxArraySize.toNat := by omega
        _ = maxArraySize.toNat * (message.size + keySize number + 1) := by ring
        _ ≤ _ := Nat.mul_le_mul_left _ (by omega)
  | repeatedUint32 maxArraySize =>
      refine le_of_eq (Eq.trans ?_ (valuesSize_replicate number _ _ _).symm)
      rw [length_varIntField hnumber]
      show maxArraySize.toNat * (5 + keySize number) = maxArraySize.toNat * (keySize number + varIntSize 4294967295)
      rw [varIntSize_max, Nat.add_comm 5]

theorem size_le_written (message : EchoMessage) (hmessage : message.WellFormed) :
    message.size + (!message.isCounted).toNat ≤ (written (message.wire message.largest)).length := by
  cases message with
  | nil => exact le_refl _
  | cons number field rest =>
      obtain ⟨-, hnumber, -, hfield, hrest⟩ := hmessage
      have hfirst := size_le_valuesSize field hfield hnumber
      have hlater := size_le_written rest hrest
      refine le_of_le_of_eq ?_ (length_written_consFields number (field.wire field.largest) (rest.wire rest.largest)).symm
      have hcounted : (!(field.isCounted && rest.isCounted)).toNat ≤ (!field.isCounted).toNat + (!rest.isCounted).toNat := by
        cases field.isCounted <;> cases rest.isCounted <;> decide
      show field.size number + rest.size + (!(field.isCounted && rest.isCounted)).toNat ≤ _
      omega

end

/-! ## When the maximum size is one -/

/-- **A message type keeps to its maximum size if and only if its fields are counted right**, and the sum of
their sizes is less than `2 ^ 32`. -/
theorem fitsMaxMessageSize_iff (message : EchoMessage) (hmessage : message.WellFormed) :
    message.FitsMaxMessageSize ↔ message.isCounted = true ∧ message.size < 2 ^ 32 := by
  have hemitted := toNat_maxMessageSize message
  constructor
  · intro h
    have hlargest := size_le_written message hmessage
    obtain ⟨w, free, hput, -, hw⟩ := ProtoFormatter.writes_putWritten (message.wire message.largest)
      (Writes.ofMemory (List.replicate (written (message.wire message.largest)).length 0)) (by simp)
    have hsize := h message.largest _ w ((serialize_eq message _ _).trans hput) hw.failed
    rw [hw.processed, List.nil_append, hemitted] at hsize
    have hmod := Nat.mod_le message.size (2 ^ 32)
    cases hcounted : message.isCounted with
    | false =>
        rw [hcounted] at hlargest
        change message.size + 1 ≤ _ at hlargest
        omega
    | true =>
        refine ⟨rfl, ?_⟩
        have hlt := Nat.mod_lt message.size (show 2 ^ 32 > 0 by decide)
        omega
  · rintro ⟨hcounted, hsize⟩ value memory w hserialize hfailed
    obtain ⟨-, hoffset⟩ := serialize_grows hcounted hserialize hfailed
    rw [hemitted, Nat.mod_eq_of_lt hsize]
    calc w.processed.length ≤ w.offset := length_processed_le w
      _ = (written (message.wire value)).length := by rw [hoffset]; exact Nat.zero_add _
      _ ≤ message.size := length_written_le hmessage hcounted value

/-! ## Calls -/

/-- What is counted for the argument of a method. -/
def argumentSize : Option EchoMessage → Nat
  | none => 0
  | some message => message.size

/-- The argument of the method is counted right, and what is counted for a call fits 32 bits. -/
structure EchoMethod.IsCounted (method : EchoMethod) (serviceId : UInt32) : Prop where
  parameter : ∀ message ∈ method.parameter, message.WellFormed ∧ message.isCounted = true
  size : varIntSize serviceId.toNat + keySize method.methodId + 10 + argumentSize method.parameter < 2 ^ 32

theorem toNat_stdMax (a b : UInt32) : (stdMax a b).toNat = max a.toNat b.toNat := by
  rw [stdMax]
  split
  case isTrue h => exact (Nat.max_eq_right (Nat.le_of_lt (UInt32.lt_iff_toNat_lt.mp h))).symm
  case isFalse h => exact (Nat.max_eq_left (Nat.not_lt.mp fun hlt => h (UInt32.lt_iff_toNat_lt.mpr hlt))).symm

/-- The result of the loop is not less than what is emitted for any of the methods. -/
theorem le_foldl_stdMax {α : Type} (f : α → UInt32) (methods : List α) (result : UInt32) :
    result.toNat ≤ (methods.foldl (fun result method => stdMax (f method) result) result).toNat ∧
      ∀ method ∈ methods,
        (f method).toNat ≤ (methods.foldl (fun result method => stdMax (f method) result) result).toNat := by
  induction methods generalizing result with
  | nil => exact ⟨le_refl _, by simp⟩
  | cons first rest ih =>
      obtain ⟨hresult, hrest⟩ := ih (stdMax (f first) result)
      rw [toNat_stdMax] at hresult
      refine ⟨(Nat.le_max_right _ _).trans hresult, ?_⟩
      intro method hmethod
      rcases List.mem_cons.mp hmethod with rfl | hmethod
      · exact (Nat.le_max_left _ _).trans hresult
      · exact hrest method hmethod

section Calls

variable {method : EchoMethod} {serviceId : UInt32} (hcounted : method.IsCounted serviceId)
include hcounted

theorem length_written_wireArgument (argument : Argument method.parameter) :
    (written (wireArgument method.parameter argument)).length ≤ argumentSize method.parameter := by
  have hparameter := hcounted.parameter
  cases method with
  | mk name methodId parameter =>
      cases parameter with
      | none => exact le_refl _
      | some message =>
          obtain ⟨hmessage, hfields⟩ := hparameter message rfl
          exact length_written_le hmessage hfields argument

theorem toNat_maxCallSize :
    (maxVarIntSize serviceId + maxKeySize method.methodId + 10 + maxArgumentSize method.parameter).toNat =
      varIntSize serviceId.toNat + keySize method.methodId + 10 + argumentSize method.parameter := by
  have hsize := hcounted.size
  have hargument : (maxArgumentSize method.parameter).toNat = argumentSize method.parameter := by
    cases hparameter : method.parameter with
    | none => rfl
    | some message =>
        rw [hparameter] at hsize
        exact (toNat_maxMessageSize message).trans (Nat.mod_eq_of_lt (lt_of_le_of_lt (Nat.le_add_left _ _) hsize))
  simp only [UInt32.toNat_add, toNat_maxVarIntSize, toNat_maxKeySize, hargument, UInt32.reduceToNat]
  omega

/-- **A call fits the stream that the proxy asks for.** -/
theorem proxyBody_fits {service : EchoService} (hid : service.serviceId = serviceId) (hmethod : method ∈ service.methods)
    (argument : Argument method.parameter) {memory : List UInt8}
    (hmemory : memory.length = service.maxMessageSize.toNat) :
    ∃ w, method.proxyBody serviceId argument (ByteOutputStreamWriter.ofMemory memory) = some w ∧ w.failed = false := by
  subst hid
  have hmax := (le_foldl_stdMax (fun method : EchoMethod => maxVarIntSize service.serviceId + maxKeySize method.methodId +
    10 + maxArgumentSize method.parameter) service.methods 0).2 method hmethod
  rw [toNat_maxCallSize hcounted] at hmax
  have hargument := length_written_wireArgument hcounted argument
  have hlength : varIntSize ((written (wireArgument method.parameter argument)).length % 2 ^ 32) ≤ 5 :=
    varIntSize_le_five (Nat.mod_lt _ (by decide))
  have hfield := length_messageField method.methodId (wireArgument method.parameter argument)
  have hroom : varIntSize service.serviceId.toNat +
      (writtenField method.methodId (.message (wireArgument method.parameter argument))).length ≤ memory.length := by
    rw [hfield, hmemory]
    exact le_trans (by omega) hmax
  obtain ⟨free₁, hfree₁, hw₁⟩ := ProtoFormatter.writes_putVarInt (Writes.ofMemory memory) service.serviceId.toNat
    ((Nat.le_add_right _ _).trans hroom)
  obtain ⟨w, free₂, hput, -, hw⟩ := ProtoFormatter.writes_putField method.methodId
    (.message (wireArgument method.parameter argument)) hw₁ (by
      change varIntSize _ + _ = _ at hfree₁
      omega)
  exact ⟨w, (proxyBody_eq method _ argument _).trans hput, hw.failed⟩

end Calls

/-- **A message type keeps to its emitted maximum size if and only if its fields are counted right**, and a call
with an argument that is counted right does not overflow the stream that its proxy asks for. -/
theorem maxMessageSize_spec (message : EchoMessage) (service : EchoService) :
    (message.WellFormed → (message.FitsMaxMessageSize ↔ message.isCounted = true ∧ message.size < 2 ^ 32)) ∧
    ∀ method ∈ service.methods, method.IsCounted service.serviceId →
      ∀ (argument : Argument method.parameter) (memory : List UInt8), memory.length = service.maxMessageSize.toNat →
        ∃ w, method.proxyBody service.serviceId argument (ByteOutputStreamWriter.ofMemory memory) = some w ∧
          w.failed = false :=
  ⟨fitsMaxMessageSize_iff message, fun _ hmethod hcounted argument _ hmemory =>
    proxyBody_fits hcounted rfl hmethod argument hmemory⟩

/-- A message of which all fields are counted right. -/
def countedMessage : EchoMessage := .cons 1 .uint32 (.cons 2 (.repeatedString 3 10) .nil)

def countedService : EchoService :=
  { name := "Counted", serviceId := 300, methods := [{ name := "Call", methodId := 1, parameter := some countedMessage }] }

theorem countedMessage_wellFormed : countedMessage.WellFormed := by
  simp [countedMessage, EchoMessage.WellFormed, EchoField.WellFormed, EchoMessage.numbers]

theorem maxMessageSize_spec_counted :
    countedMessage.FitsMaxMessageSize ∧ ¬ (EchoMessage.cons 1 .int32 .nil).FitsMaxMessageSize ∧
      ∀ argument : countedMessage.Val, ∃ w, EchoMethod.proxyBody
        { name := "Call", methodId := 1, parameter := some countedMessage } 300 argument
        (ByteOutputStreamWriter.ofMemory (List.replicate countedService.maxMessageSize.toNat 0)) = some w ∧
          w.failed = false := by
  refine ⟨?_, ?_, ?_⟩
  · exact ((maxMessageSize_spec _ countedService).1 countedMessage_wellFormed).mpr ⟨rfl, by decide⟩
  · rw [(maxMessageSize_spec _ countedService).1 (by simp [EchoMessage.WellFormed, EchoField.WellFormed, EchoMessage.numbers])]
    decide
  · intro argument
    refine (maxMessageSize_spec countedMessage countedService).2 _ List.mem_cons_self ⟨?_, by decide⟩ argument _ List.length_replicate
    intro message hmessage
    cases hmessage
    exact ⟨countedMessage_wellFormed, rfl⟩

/-- **A negative number takes ten bytes**, of which five are counted. -/
theorem not_fitsMaxMessageSize_negative :
    ¬ ∀ message : EchoMessage, message.WellFormed → message.FitsMaxMessageSize := by
  intro h
  have hsize := h (.cons 1 .int32 .nil)
    (by simp [EchoMessage.WellFormed, EchoField.WellFormed, EchoMessage.numbers]) ((-1 : Int32), ())
    (List.replicate 11 0) _ rfl (by decide +kernel)
  exact absurd hsize (by decide +kernel)

end EmbeddedInfra.Echo
