import EmbeddedInfra.Infra.Syntax.Proto

set_option autoImplicit false

/-! # Messages of the echo plugin

The echo plugin of protoc makes a class of each message type, with the statements of `Serialize`,
`Deserialize` and `operator==` put together field by field. A message type is given as the list of its
fields (`EchoMessage`), and what the statements do is said by recursion on it. Message types are used by
others only when they are complete, so that they do not contain themselves.
-/

namespace EmbeddedInfra.Echo

open Streams Proto ProtoFormatter

/-! ## Message types -/

mutual

/-- The fields that the plugin accepts, with the sizes that the attributes `string_size`, `bytes_size` and
`array_size` give them. -/
inductive EchoField where
  | int32
  | fixed32
  | bool
  | string (maxStringSize : UInt32)
  | message (message : EchoMessage)
  | bytes (maxBytesSize : UInt32)
  | uint32
  | repeatedString (maxArraySize maxStringSize : UInt32)
  | repeatedMessage (maxArraySize : UInt32) (message : EchoMessage)
  | repeatedUint32 (maxArraySize : UInt32)

/-- The fields of a message, with their numbers. -/
inductive EchoMessage where
  | nil
  | cons (number : UInt32) (field : EchoField) (rest : EchoMessage)

end

/-- The field numbers of a message. -/
def EchoMessage.numbers : EchoMessage → List UInt32
  | .nil => []
  | .cons number _ rest => number :: rest.numbers

/-- The field that has a number. -/
def EchoMessage.field? : EchoMessage → UInt32 → Option EchoField
  | .nil, _ => none
  | .cons number field rest, n => if n = number then some field else rest.field? n

mutual

/-- The sizes are positive, which the plugin asks for, and the message types are well-formed. -/
def EchoField.WellFormed : EchoField → Prop
  | .string maxStringSize => 0 < maxStringSize
  | .message message => message.WellFormed
  | .bytes maxBytesSize => 0 < maxBytesSize
  | .repeatedString maxArraySize maxStringSize => 0 < maxArraySize ∧ 0 < maxStringSize
  | .repeatedMessage maxArraySize message => 0 < maxArraySize ∧ message.WellFormed
  | .repeatedUint32 maxArraySize => 0 < maxArraySize
  | _ => True

/-- The numbers of the fields are different, and in the range that protoc allows. -/
def EchoMessage.WellFormed : EchoMessage → Prop
  | .nil => True
  | .cons number field rest =>
      0 < number ∧ number.toNat < 2 ^ 29 ∧ number ∉ rest.numbers ∧ field.WellFormed ∧ rest.WellFormed

end

/-! ## Values -/

/-- `infra::BoundedVector::WithMaxSize` and, for characters, `infra::BoundedString::WithStorage`. -/
def BoundedVector (α : Type) (maxSize : UInt32) : Type := { contents : List α // contents.length ≤ maxSize.toNat }

mutual

/-- The data member that is declared for a field. -/
def EchoField.Val : EchoField → Type
  | .int32 => Int32
  | .fixed32 => UInt32
  | .bool => Bool
  | .string maxStringSize => BoundedVector UInt8 maxStringSize
  | .message message => message.Val
  | .bytes maxBytesSize => BoundedVector UInt8 maxBytesSize
  | .uint32 => UInt32
  | .repeatedString maxArraySize maxStringSize => BoundedVector (BoundedVector UInt8 maxStringSize) maxArraySize
  | .repeatedMessage maxArraySize message => BoundedVector message.Val maxArraySize
  | .repeatedUint32 maxArraySize => BoundedVector UInt32 maxArraySize

/-- The data members of the class, one for each field. -/
def EchoMessage.Val : EchoMessage → Type
  | .nil => Unit
  | .cons _ field rest => field.Val × rest.Val

end

namespace BoundedVector

variable {α : Type} {maxSize : UInt32}

def empty : BoundedVector α maxSize := ⟨[], Nat.zero_le _⟩

/-- `emplace_back`, which asserts that there is room. -/
def emplaceBack (v : BoundedVector α maxSize) (a : α) : Option (BoundedVector α maxSize) :=
  if h : (v.1 ++ [a]).length ≤ maxSize.toNat then some ⟨v.1 ++ [a], h⟩ else none

end BoundedVector

mutual

/-- The initial value of a data member. -/
def EchoField.default : (field : EchoField) → field.Val
  | .int32 => (0 : Int32)
  | .fixed32 => (0 : UInt32)
  | .bool => false
  | .string _ => BoundedVector.empty
  | .message message => message.default
  | .bytes _ => BoundedVector.empty
  | .uint32 => (0 : UInt32)
  | .repeatedString _ _ => BoundedVector.empty
  | .repeatedMessage _ _ => BoundedVector.empty
  | .repeatedUint32 _ => BoundedVector.empty

/-- The default constructor. -/
def EchoMessage.default : (message : EchoMessage) → message.Val
  | .nil => ()
  | .cons _ field rest => (field.default, rest.default)

end

mutual

/-- `name == other.name` -/
def EchoField.equal : (field : EchoField) → field.Val → field.Val → Bool
  | .int32, a, b => @BEq.beq Int32 _ a b
  | .fixed32, a, b => @BEq.beq UInt32 _ a b
  | .bool, a, b => @BEq.beq Bool _ a b
  | .string _, a, b => a.1 == b.1
  | .message message, a, b => message.equal a b
  | .bytes _, a, b => a.1 == b.1
  | .uint32, a, b => @BEq.beq UInt32 _ a b
  | .repeatedString _ _, a, b => a.1.map Subtype.val == b.1.map Subtype.val
  | .repeatedMessage _ message, a, b =>
      decide (a.1.length = b.1.length) && (a.1.zip b.1).all fun p => message.equal p.1 p.2
  | .repeatedUint32 _, a, b => a.1 == b.1

/-- `operator==` -/
def EchoMessage.equal : (message : EchoMessage) → message.Val → message.Val → Bool
  | .nil, _, _ => true
  | .cons _ field rest, a, b => field.equal a.1 b.1 && rest.equal a.2 b.2

end

/-! ## Serialize -/

/-- The conversion of an `int32_t` to a `uint64_t`. -/
def int32ToUint64 (value : Int32) : UInt64 := value.toInt64.toUInt64

mutual

/-- What `SerializerBody` emits for a field. -/
def EchoField.serialize : (field : EchoField) → UInt32 → field.Val → ByteOutputStreamWriter →
    Option ByteOutputStreamWriter
  | .int32, number, value, w => putField w number (.varInt (int32ToUint64 value))
  | .fixed32, number, value, w => putField w number (.fixed32 value)
  | .bool, number, value, w => putField w number (.varInt (Bool.toUInt64 value))
  | .string _, number, value, w => putField w number (.bytes value.1)
  | .message message, number, value, w => do
      let w := putVarInt w (key number 2)
      let marker := w.constructSaveMarker
      let w ← message.serialize value w
      finishLengthDelimited w marker
  | .bytes _, number, value, w => putField w number (.bytes value.1)
  | .uint32, number, value, w => putField w number (.varInt (UInt32.toUInt64 value))
  | .repeatedString _ _, number, value, w =>
      value.1.foldlM (fun w subField => putField w number (.bytes subField.1)) w
  | .repeatedMessage _ message, number, value, w =>
      value.1.foldlM (fun w subField => do
        let w := putVarInt w (key number 2)
        let marker := w.constructSaveMarker
        let w ← message.serialize subField w
        finishLengthDelimited w marker) w
  | .repeatedUint32 _, number, value, w =>
      value.1.foldlM (fun w subField => putField w number (.varInt (UInt32.toUInt64 subField))) w

def EchoMessage.serialize : (message : EchoMessage) → message.Val → ByteOutputStreamWriter →
    Option ByteOutputStreamWriter
  | .nil, _, w => some w
  | .cons number field rest, value, w => do
      let w ← field.serialize number value.1 w
      rest.serialize value.2 w

end

/-! ## Deserialize -/

/-- `ExtractContiguousRange` of at most `max` bytes, down a chain of readers. -/
def extractContiguousRange : List Nat → List UInt8 → Nat → List Nat × List UInt8 × Nat
  | [], remaining, max => ([], remaining.drop max, min max remaining.length)
  | length :: lengths, remaining, max =>
      let (lengths, remaining, size) := extractContiguousRange lengths remaining (min max length)
      ((length - size) :: lengths, remaining, size)

/-- The loop of `SkipEverything`. -/
def skipEverything : Nat → StreamReader → StreamReader
  | 0, r => r
  | turns + 1, r =>
      if StreamReader.empty r.lengths r.remaining then r
      else
        let (lengths, remaining, _) := extractContiguousRange r.lengths r.remaining (2 ^ 32 - 1)
        skipEverything turns { r with lengths, remaining }

/-- `Get<uint64_t>()` of a field, which asserts that it is of the type. -/
def getUint64 : Field → Option UInt64
  | .uint64 value => some value
  | _ => none

/-- `Get<uint32_t>()` -/
def getUint32 : Field → Option UInt32
  | .uint32 value => some value
  | _ => none

/-- `Get<infra::ProtoLengthDelimited>()` -/
def getLengthDelimited : Field → Option Nat
  | .lengthDelimited length => some length
  | _ => none

/-- `GetString` and `GetBytes`, which assert that the result fits. -/
def getBounded (maxSize : UInt32) (received : Field) (r : StreamReader) :
    Option (BoundedVector UInt8 maxSize × StreamReader) := do
  let length ← getLengthDelimited received
  let (bytes, r) := getBytes (r.limited length)
  if h : bytes.length ≤ maxSize.toNat then some (⟨bytes, h⟩, r.below) else none

/-- The loop of `Deserialize`, with the switch on the number of the field as parameter. -/
def deserializeFields {V : Type} (assign : V → UInt32 → Field → StreamReader → Option (V × StreamReader)) :
    Nat → V → StreamReader → Option (V × StreamReader)
  | 0, _, _ => none
  | turns + 1, value, r =>
      if StreamReader.empty r.lengths r.remaining then some (value, r)
      else do
        let ((field, number), r) ← ProtoParser.getField r
        let (value, r) ← assign value number field r
        deserializeFields assign turns value r

/-- `Deserialize` of the contents of a field. Every turn of the loop takes a byte. -/
def deserializeNested {V : Type} (assign : V → UInt32 → Field → StreamReader → Option (V × StreamReader))
    (value : V) (received : Field) (r : StreamReader) : Option (V × StreamReader) := do
  let length ← getLengthDelimited received
  let nested := ProtoParser.parser (r.limited length)
  let (value, nested) ← deserializeFields assign (nested.remaining.length + 1) value nested
  return (value, nested.below.below)

/-- The default case of the switch. -/
def skipField (received : Field) (r : StreamReader) : StreamReader :=
  match getLengthDelimited received with
  | some length => (skipEverything (r.remaining.length + 1) (r.limited length)).below
  | none => r

mutual

/-- The case that `DeserializerBody` emits for a field. -/
def EchoField.deserialize : (field : EchoField) → field.Val → Field → StreamReader →
    Option (field.Val × StreamReader)
  | .int32, _, received, r => do
      let value ← getUint64 received
      return (value.toInt64.toInt32, r)
  | .fixed32, _, received, r => do
      let value ← getUint32 received
      return (value, r)
  | .bool, _, received, r => do
      let value ← getUint64 received
      return (value != 0, r)
  | .string maxStringSize, _, received, r => getBounded maxStringSize received r
  | .message message, value, received, r => deserializeNested message.assign value received r
  | .bytes maxBytesSize, _, received, r => getBounded maxBytesSize received r
  | .uint32, _, received, r => do
      let value ← getUint64 received
      return (value.toUInt32, r)
  | .repeatedString _ maxStringSize, value, received, r => do
      let (back, r) ← getBounded maxStringSize received r
      return (← value.emplaceBack back, r)
  | .repeatedMessage _ message, value, received, r => do
      let (back, r) ← deserializeNested message.assign message.default received r
      return (← value.emplaceBack back, r)
  | .repeatedUint32 _, value, received, r => do
      let subField ← getUint64 received
      return (← value.emplaceBack subField.toUInt32, r)

/-- The switch of `Deserialize`: fields with other numbers are skipped. -/
def EchoMessage.assign : (message : EchoMessage) → message.Val → UInt32 → Field → StreamReader →
    Option (message.Val × StreamReader)
  | .nil, value, _, received, r => some (value, skipField received r)
  | .cons number field rest, value, n, received, r =>
      if n = number then do
        let (member, r) ← field.deserialize value.1 received r
        return ((member, value.2), r)
      else do
        let (members, r) ← rest.assign value.2 n received r
        return ((value.1, members), r)

end

/-- `Deserialize`, on a parser. -/
def EchoMessage.deserialize (message : EchoMessage) (value : message.Val) (r : StreamReader) :
    Option (message.Val × StreamReader) :=
  deserializeFields message.assign (r.remaining.length + 1) value r

/-! ## Services -/

structure EchoMethod where
  name : String
  methodId : UInt32
  parameter : Option EchoMessage

structure EchoService where
  name : String
  serviceId : UInt32
  methods : List EchoMethod

/-- The argument of a proxy method. -/
def Argument : Option EchoMessage → Type
  | none => Unit
  | some message => message.Val

/-- `argument.Serialize(formatter)`, for a method that has a parameter. -/
def serializeArgument : (parameter : Option EchoMessage) → Argument parameter → ByteOutputStreamWriter →
    Option ByteOutputStreamWriter
  | none, _, w => some w
  | some message, argument, w => message.serialize argument w

/-- `ProxyMethodBody`, up to `Send` -/
def EchoMethod.proxyBody (method : EchoMethod) (serviceId : UInt32) (argument : Argument method.parameter)
    (w : ByteOutputStreamWriter) : Option ByteOutputStreamWriter := do
  let w := putVarInt w serviceId.toNat
  let w := putVarInt w (key method.methodId 2)
  let marker := w.constructSaveMarker
  let w ← serializeArgument method.parameter argument w
  finishLengthDelimited w marker

/-! ## The fields that are written -/

/-- Fields with one number in front of others. -/
def consFields (number : UInt32) (values : List Value) (rest : Message) : Message :=
  values.foldr (fun value rest => .cons number value rest) rest

mutual

/-- The values that a data member is written as, all with the number of its field. -/
def EchoField.wire : (field : EchoField) → field.Val → List Value
  | .int32, value => [.varInt (int32ToUint64 value)]
  | .fixed32, value => [.fixed32 value]
  | .bool, value => [.varInt (Bool.toUInt64 value)]
  | .string _, value => [.bytes value.1]
  | .message message, value => [.message (message.wire value)]
  | .bytes _, value => [.bytes value.1]
  | .uint32, value => [.varInt (UInt32.toUInt64 value)]
  | .repeatedString _ _, value => value.1.map fun subField => .bytes subField.1
  | .repeatedMessage _ message, value => value.1.map fun subField => .message (message.wire subField)
  | .repeatedUint32 _, value => value.1.map fun subField => .varInt (UInt32.toUInt64 subField)

/-- The fields that a message is written as. -/
def EchoMessage.wire : (message : EchoMessage) → message.Val → Message
  | .nil, _ => .nil
  | .cons number field rest, value => consFields number (field.wire value.1) (rest.wire value.2)

end

/-- The fields of an argument. -/
def wireArgument : (parameter : Option EchoMessage) → Argument parameter → Message
  | none, _ => .nil
  | some message, argument => message.wire argument

end EmbeddedInfra.Echo
