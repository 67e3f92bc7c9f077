import EmbeddedInfra.Protobuf.EchoMessage

set_option autoImplicit false

/-! # Generated messages are read back

`Serialize` writes the fields of `EchoMessage.wire`. What `Deserialize` does with the bytes of any fields is
to take their values one by one (`EchoMessage.take`), and for the fields that `Serialize` writes, with
others put between them, the result is the value that was written.
-/

namespace EmbeddedInfra.Echo

open Streams Proto ProtoFormatter

/-! ## What is written -/

theorem putMessage_consFields (w : ByteOutputStreamWriter) (number : UInt32) (values : List Value) (rest : Message) :
    putMessage w (consFields number values rest) =
      (values.foldlM (fun w value => putField w number value) w).bind
        fun w => putMessage w rest := by
  induction values generalizing w with
  | nil => rfl
  | cons value values ih =>
      rw [List.foldlM_cons, Option.bind_eq_bind, Option.bind_assoc]
      rw [show consFields number (value :: values) rest = .cons number value (consFields number values rest) from rfl,
        putMessage]
      exact congrArg _ (funext fun w => ih w)

mutual

theorem serialize_field (field : EchoField) (number : UInt32) (value : field.Val) (w : ByteOutputStreamWriter) :
    field.serialize number value w =
      (field.wire value).foldlM (fun w value => putField w number value) w := by
  cases field with
  | message message =>
      simp only [EchoField.serialize, EchoField.wire, List.foldlM_cons, List.foldlM_nil, ProtoFormatter.putField,
        bind_pure]
      rw [serialize_eq message value]
  | repeatedMessage maxArraySize message =>
      simp only [EchoField.serialize, EchoField.wire, List.foldlM_map, ProtoFormatter.putField, serialize_eq message]
  | repeatedString | repeatedUint32 => simp only [EchoField.serialize, EchoField.wire, List.foldlM_map]
  | _ => simp [EchoField.serialize, EchoField.wire]

/-- **`Serialize` puts the fields of the message.** -/
theorem serialize_eq (message : EchoMessage) (value : message.Val) (w : ByteOutputStreamWriter) :
    message.serialize value w = putMessage w (message.wire value) := by
  cases message with
  | nil => rfl
  | cons number field rest =>
      rw [EchoMessage.serialize, EchoMessage.wire, putMessage_consFields, serialize_field field]
      exact congrArg _ (funext fun w => serialize_eq rest value.2 w)

end

/-- A call is the service id and a field with the method id and the argument. -/
theorem proxyBody_eq (method : EchoMethod) (serviceId : UInt32) (argument : Argument method.parameter)
    (w : ByteOutputStreamWriter) :
    method.proxyBody serviceId argument w =
      putField (putVarInt w serviceId.toNat) method.methodId
        (.message (wireArgument method.parameter argument)) := by
  have hargument (w : ByteOutputStreamWriter) : serializeArgument method.parameter argument w =
      putMessage w (wireArgument method.parameter argument) := by
    cases method with
    | mk name methodId parameter =>
        cases parameter with
        | none => rfl
        | some message => exact serialize_eq message argument w
  simp only [EchoMethod.proxyBody, putField, hargument]

/-! ## What is taken -/

/-- The fields of a message are taken one by one. -/
def takeFields {V : Type} (take : V → UInt32 → Value → Option V) : V → Message → Option V
  | value, .nil => some value
  | value, .cons number field rest => (take value number field).bind fun value => takeFields take value rest

/-- Bytes that are not more than fit. -/
def boundedBytes (maxSize : UInt32) (bytes : List UInt8) : Option (BoundedVector UInt8 maxSize) :=
  if h : bytes.length ≤ maxSize.toNat then some ⟨bytes, h⟩ else none

/-- The number in a varint field. -/
def varInt? : Value → Option UInt64
  | .varInt value => some value
  | _ => none

def fixed32? : Value → Option UInt32
  | .fixed32 value => some value
  | _ => none

def bytes? : Value → Option (List UInt8)
  | .bytes bytes => some bytes
  | _ => none

def message? : Value → Option Message
  | .message message => some message
  | _ => none

mutual

/-- The member after a value has been received for it. -/
def EchoField.take : (field : EchoField) → field.Val → Value → Option field.Val
  | .int32, _, x => (varInt? x).bind fun value => some value.toInt64.toInt32
  | .fixed32, _, x => fixed32? x
  | .bool, _, x => (varInt? x).bind fun value => some (value != 0)
  | .string maxStringSize, _, x => (bytes? x).bind (boundedBytes maxStringSize)
  | .message message, value, x => (message? x).bind (takeFields message.take value)
  | .bytes maxBytesSize, _, x => (bytes? x).bind (boundedBytes maxBytesSize)
  | .uint32, _, x => (varInt? x).bind fun value => some value.toUInt32
  | .repeatedString _ maxStringSize, value, x =>
      ((bytes? x).bind (boundedBytes maxStringSize)).bind value.emplaceBack
  | .repeatedMessage _ message, value, x =>
      ((message? x).bind (takeFields message.take message.default)).bind value.emplaceBack
  | .repeatedUint32 _, value, x => (varInt? x).bind fun subField => value.emplaceBack subField.toUInt32

/-- The members after a field has been received. -/
def EchoMessage.take : (message : EchoMessage) → message.Val → UInt32 → Value → Option message.Val
  | .nil, value, _, _ => some value
  | .cons number field rest, value, n, received =>
      if n = number then (field.take value.1 received).map fun member => (member, value.2)
      else (rest.take value.2 n received).map fun members => (value.1, members)

end

/-! ## Reading -/

variable {maxSize : UInt32} {fields : Message} {message : EchoMessage}

section Reading

variable {lengths : List Nat} {rest : List UInt8}

theorem extractContiguousRange_eq {remaining : List UInt8} {n : Nat} (h : StreamReader.Covers lengths remaining n) :
    extractContiguousRange lengths remaining n = (lengths.map (· - n), remaining.drop n, n) := by
  induction lengths with
  | nil => simp [extractContiguousRange, h.remaining]
  | cons length lengths ih =>
      have hn := (h.lengths length List.mem_cons_self).1
      have hrest : StreamReader.Covers lengths remaining n :=
        ⟨fun l hl => h.lengths l (List.mem_cons_of_mem _ hl), h.remaining⟩
      rw [extractContiguousRange, Nat.min_eq_left hn, ih hrest]
      rfl

/-- The bytes of a field are skipped in one turn. -/
theorem skipEverything_limited {bytes : List UInt8}
    (hcovers : StreamReader.Covers lengths (bytes ++ rest) bytes.length) (hlength : bytes.length < 2 ^ 32) :
    skipEverything ((bytes ++ rest).length + 1)
      (StreamReader.limited { lengths := lengths, remaining := bytes ++ rest } bytes.length) =
      { lengths := 0 :: lengths.map (· - bytes.length), remaining := rest } := by
  rw [StreamReader.limited, Nat.mod_eq_of_lt hlength, skipEverything]
  cases bytes with
  | nil => simp [StreamReader.empty]
  | cons byte bytes =>
      have hall := hcovers.cons (le_refl _) hlength
      have hextract : extractContiguousRange ((byte :: bytes).length :: lengths) (byte :: bytes ++ rest) (2 ^ 32 - 1) =
          (0 :: lengths.map (· - (byte :: bytes).length), rest, (byte :: bytes).length) := by
        rw [extractContiguousRange, Nat.min_eq_right (by omega), extractContiguousRange_eq hcovers, List.drop_left]
        simp
      have hempty := StreamReader.not_empty hall (by simp)
      simp only [hempty, Bool.false_eq_true, if_false, hextract]
      rw [List.cons_append, List.length_cons, skipEverything, if_pos (by simp [StreamReader.empty])]

theorem getBounded_eq {bytes : List UInt8} {result : BoundedVector UInt8 maxSize}
    (hbytes : boundedBytes maxSize bytes = some result)
    (hcovers : StreamReader.Covers lengths (bytes ++ rest) bytes.length) (hsize : (bytes ++ rest).length < 2 ^ 32) :
    getBounded maxSize (.lengthDelimited bytes.length) { lengths := lengths, remaining := bytes ++ rest } =
      some (result, { lengths := lengths.map (· - bytes.length), remaining := rest }) := by
  have hlength := hsize
  rw [List.length_append] at hlength
  simp only [boundedBytes, Option.dite_none_right_eq_some] at hbytes
  obtain ⟨hfits, hresult⟩ := hbytes
  cases hresult
  simp only [getBounded, getLengthDelimited, Option.bind_eq_bind, Option.bind_some]
  rw [getBytes_limited hcovers (by omega) hsize]
  simp only [hfits, dif_pos, StreamReader.below, List.tail_cons]

end Reading

/-- **What is read of a value is what is taken of it.** -/
structure Reads {V : Type} (read : V → Field → StreamReader → Option (V × StreamReader))
    (take : V → Value → Option V) : Prop where
  read : ∀ {value value' : V} {x : Value} {lengths : List Nat} {rest : List UInt8}, take value x = some value' →
    x.NumbersFit → StreamReader.Covers lengths (x.payload ++ rest) x.payload.length →
    (x.payload ++ rest).length < 2 ^ 32 →
    read value x.received { lengths := lengths, remaining := x.payload ++ rest } =
      some (value', { lengths := lengths.map (· - x.payload.length), remaining := rest })

section Fields

variable {V : Type} {assign : V → UInt32 → Field → StreamReader → Option (V × StreamReader)}
  {take : V → UInt32 → Value → Option V} {value value' : V} {lengths : List Nat} {rest : List UInt8}

/-- The loop takes the fields that it reads. -/
theorem deserializeFields_eq (hreads : ∀ number, Reads (fun value => assign value number) fun value => take value number)
    {turns : Nat} (htake : takeFields take value fields = some value') (hfit : fields.NumbersFit)
    (hcovers : StreamReader.Covers lengths (encode fields ++ rest) (encode fields).length)
    (hsize : (encode fields ++ rest).length < 2 ^ 32) (hturns : (encode fields).length < turns) :
    deserializeFields assign turns value
      { lengths := (encode fields).length :: lengths, remaining := encode fields ++ rest } =
      some (value', { lengths := 0 :: lengths.map (· - (encode fields).length), remaining := rest }) := by
  induction turns generalizing value lengths fields with
  | zero => omega
  | succ turns ih =>
      cases fields with
      | nil =>
          cases htake
          simp [deserializeFields, encode, StreamReader.empty]
      | cons number x later =>
          rw [Message.NumbersFit] at hfit
          obtain ⟨hnumber, hx, hlater⟩ := hfit
          obtain ⟨value₁, htake₁, htake₂⟩ := Option.bind_eq_some_iff.mp htake
          have hencode : encode (.cons number x later) = encodeField number x ++ encode later := by rw [encode]
          rw [hencode] at hcovers hsize hturns ⊢
          simp only [List.append_assoc, List.length_append] at hcovers hsize hturns ⊢
          have hpos := length_encodeField number x
          have hpayload := length_payload_le number x
          have hfield := hcovers.cons (le_refl _) (by omega)
          have hafter := hcovers.sub
          rw [List.drop_left] at hafter
          obtain ⟨lengths', hget, hcovers', hlengths⟩ := getField_encodeField x hnumber (hfield.mono (by omega))
            (by simp; omega)
          have hread := (hreads number).read htake₁ hx hcovers' (by simp; omega)
          rw [deserializeFields, if_neg (by simp [StreamReader.not_empty hfield (by omega)])]
          simp only [hget, Option.bind_eq_bind, Option.bind_some, hread, hlengths, List.map_cons,
            Nat.add_sub_cancel_left]
          rw [ih htake₂ hlater hafter (by simp; omega) (by omega), map_sub_sub]

theorem deserializeNested_eq (hreads : ∀ number, Reads (fun value => assign value number) fun value => take value number)
    (htake : takeFields take value fields = some value') (hfit : fields.NumbersFit)
    (hcovers : StreamReader.Covers lengths (encode fields ++ rest) (encode fields).length)
    (hsize : (encode fields ++ rest).length < 2 ^ 32) :
    deserializeNested assign value (.lengthDelimited (encode fields).length)
      { lengths := lengths, remaining := encode fields ++ rest } =
      some (value', { lengths := lengths.map (· - (encode fields).length), remaining := rest }) := by
  have hlength := hsize
  rw [List.length_append] at hlength
  simp only [deserializeNested, getLengthDelimited, Option.bind_eq_bind, Option.bind_some]
  rw [parser_limited hcovers (by omega) hsize, deserializeFields_eq hreads htake hfit (hcovers.cons (le_refl _) (by omega)) hsize
    (by rw [List.length_append]; omega)]
  simp [StreamReader.below]

end Fields

section Kinds

variable {V : Type} {x : Value} {W : Type}
  {read : V → Field → StreamReader → Option (V × StreamReader)}

theorem eq_of_varInt? {value : UInt64} (h : varInt? x = some value) : x = .varInt value := by
  cases x <;> simp_all [varInt?]

theorem eq_of_fixed32? {value : UInt32} (h : fixed32? x = some value) : x = .fixed32 value := by
  cases x <;> simp_all [fixed32?]

theorem eq_of_bytes? {bytes : List UInt8} (h : bytes? x = some bytes) : x = .bytes bytes := by
  cases x <;> simp_all [bytes?]

theorem eq_of_message? {message : Message} (h : message? x = some message) : x = .message message := by
  cases x <;> simp_all [message?]

/-- A member that is made of what is read. -/
theorem Reads.convert {read : W → Field → StreamReader → Option (W × StreamReader)}
    {take : W → Value → Option W} (h : Reads read take) (initial : W) (convert : V → W → Option V) :
    Reads (fun value received r => (read initial received r).bind fun p => (convert value p.1).bind fun v => some (v, p.2))
      fun value x => (take initial x).bind (convert value) := by
  constructor
  intro value value' x lengths rest htake hfit hcovers hsize
  obtain ⟨result, hresult, hconvert⟩ := Option.bind_eq_some_iff.mp htake
  simp [h.read hresult hfit hcovers hsize, hconvert]

/-- A member that is read from a number. -/
theorem reads_varInt (convert : V → UInt64 → Option V) :
    Reads (fun value received r => (getUint64 received).bind fun n => (convert value n).bind fun v => some (v, r))
      fun value x => (varInt? x).bind (convert value) := by
  constructor
  intro value value' x lengths rest htake _ _ _
  obtain ⟨n, hn, hconvert⟩ := Option.bind_eq_some_iff.mp htake
  obtain rfl := eq_of_varInt? hn
  simp [Value.received, Value.payload, getUint64, hconvert]

theorem reads_fixed32 : Reads (fun _ received r => (getUint32 received).bind fun n => some (n, r)) fun _ x => fixed32? x := by
  constructor
  intro value value' x lengths rest htake _ _ _
  obtain rfl := eq_of_fixed32? htake
  simp [Value.received, Value.payload, getUint32]

/-- A member that is read from bytes. -/
theorem reads_bytes (maxSize : UInt32) :
    Reads (fun _ => getBounded maxSize) fun _ x => (bytes? x).bind (boundedBytes maxSize) := by
  constructor
  intro value value' x lengths rest htake _ hcovers hsize
  obtain ⟨bytes, hbytes, hbounded⟩ := Option.bind_eq_some_iff.mp htake
  obtain rfl := eq_of_bytes? hbytes
  exact getBounded_eq hbounded hcovers hsize

/-- A member that is read from a nested message. -/
theorem reads_nested {assign : V → UInt32 → Field → StreamReader → Option (V × StreamReader)}
    {take : V → UInt32 → Value → Option V}
    (hreads : ∀ number, Reads (fun value => assign value number) fun value => take value number) :
    Reads (deserializeNested assign) fun value x => (message? x).bind (takeFields take value) := by
  constructor
  intro value value' x lengths rest htake hfit hcovers hsize
  obtain ⟨fields, hfields, hnested⟩ := Option.bind_eq_some_iff.mp htake
  obtain rfl := eq_of_message? hfields
  exact deserializeNested_eq hreads hnested hfit hcovers hsize

/-- A field that is skipped. -/
theorem reads_skip : Reads (fun value received r => some (value, skipField received r)) fun (value : V) _ => some value := by
  constructor
  intro value value' x lengths rest htake _ hcovers hsize
  obtain rfl : value = value' := Option.some.inj htake
  rw [List.length_append] at hsize
  have hskip {bytes : List UInt8} (hcovers : StreamReader.Covers lengths (bytes ++ rest) bytes.length)
      (hlength : bytes.length < 2 ^ 32) :
      skipField (.lengthDelimited bytes.length) { lengths := lengths, remaining := bytes ++ rest } =
        { lengths := lengths.map (· - bytes.length), remaining := rest } := by
    simp only [skipField, getLengthDelimited]
    rw [skipEverything_limited hcovers hlength]
    rfl
  cases x with
  | bytes bytes | message message => exact congrArg (fun r => some (value, r)) (hskip hcovers (lt_of_le_of_lt (Nat.le_add_right _ _) hsize))
  | _ => simp [skipField, getLengthDelimited, Value.received, Value.payload]

/-- One of two data members is read. -/
theorem Reads.fst {take : V → Value → Option V} (h : Reads read take) :
    Reads (fun (value : V × W) received r => (read value.1 received r).bind fun p => some ((p.1, value.2), p.2))
      fun value x => (take value.1 x).map fun member => (member, value.2) := by
  constructor
  intro value value' x lengths rest htake hfit hcovers hsize
  obtain ⟨member, hmember, rfl⟩ := Option.map_eq_some_iff.mp htake
  simp [h.read hmember hfit hcovers hsize]

theorem Reads.snd {take : V → Value → Option V} (h : Reads read take) :
    Reads (fun (value : W × V) received r => (read value.2 received r).bind fun p => some ((value.1, p.1), p.2))
      fun value x => (take value.2 x).map fun members => (value.1, members) := by
  constructor
  intro value value' x lengths rest htake hfit hcovers hsize
  obtain ⟨members, hmembers, rfl⟩ := Option.map_eq_some_iff.mp htake
  simp [h.read hmembers hfit hcovers hsize]

theorem reads_ite {c : Prop} [Decidable c] {read' : V → Field → StreamReader → Option (V × StreamReader)}
    {take take' : V → Value → Option V} (h : Reads read take) (h' : Reads read' take') :
    Reads (fun value received r => if c then read value received r else read' value received r)
      fun value x => if c then take value x else take' value x := by
  by_cases hc : c
  · simpa only [hc, if_true] using h
  · simpa only [hc, if_false] using h'

end Kinds

mutual

/-- Each case of the switch. -/
theorem reads_field (field : EchoField) : Reads field.deserialize field.take := by
  cases field with
  | int32 => exact reads_varInt fun _ n => some n.toInt64.toInt32
  | fixed32 => exact reads_fixed32
  | bool => exact reads_varInt fun _ n => some (n != 0)
  | string maxStringSize => exact reads_bytes maxStringSize
  | message message => exact reads_nested (reads_message message)
  | bytes maxBytesSize => exact reads_bytes maxBytesSize
  | uint32 => exact reads_varInt fun _ n => some n.toUInt32
  | repeatedString maxArraySize maxStringSize =>
      exact (reads_bytes maxStringSize).convert .empty BoundedVector.emplaceBack
  | repeatedMessage maxArraySize message =>
      exact (reads_nested (reads_message message)).convert message.default BoundedVector.emplaceBack
  | repeatedUint32 maxArraySize => exact reads_varInt fun value n => BoundedVector.emplaceBack value n.toUInt32

/-- The switch. -/
theorem reads_message (message : EchoMessage) (number : UInt32) :
    Reads (fun value => message.assign value number) fun value => message.take value number := by
  cases message with
  | nil => exact reads_skip
  | cons first field rest => exact reads_ite (reads_field field).fst (reads_message rest number).snd

end

/-! ## Fields with other numbers -/

/-- Fields with numbers that the message type does not have are put between the fields of a message, and
between those of the messages in it. -/
inductive Inserts : EchoMessage → Message → Message → Prop
  | nil (message : EchoMessage) : Inserts message .nil .nil
  | insert {message : EchoMessage} {fields fields' : Message} (number : UInt32) (value : Value)
      (hnumber : number.toNat < 2 ^ 29) (hother : number ∉ message.numbers) (hfit : value.NumbersFit)
      (h : Inserts message fields fields') : Inserts message fields (.cons number value fields')
  | keep {message : EchoMessage} {fields fields' : Message} (number : UInt32) (value : Value)
      (h : Inserts message fields fields') : Inserts message (.cons number value fields) (.cons number value fields')
  | inMessage {message nested : EchoMessage} {fields fields' contents contents' : Message} (number : UInt32)
      (hfield : message.field? number = some (.message nested)) (hcontents : Inserts nested contents contents')
      (h : Inserts message fields fields') :
      Inserts message (.cons number (.message contents) fields) (.cons number (.message contents') fields')
  | inRepeatedMessage {message nested : EchoMessage} {maxArraySize : UInt32}
      {fields fields' contents contents' : Message} (number : UInt32)
      (hfield : message.field? number = some (.repeatedMessage maxArraySize nested))
      (hcontents : Inserts nested contents contents') (h : Inserts message fields fields') :
      Inserts message (.cons number (.message contents) fields) (.cons number (.message contents') fields')

/-- The numbers of the fields of a message. -/
def fieldNumbers : Message → List UInt32
  | .nil => []
  | .cons number _ rest => number :: fieldNumbers rest

theorem Inserts.refl (message : EchoMessage) (fields : Message) : Inserts message fields fields := by
  induction fields using fieldNumbers.induct with
  | case1 => exact .nil message
  | case2 number value rest ih => exact .keep number value ih

theorem take_other (message : EchoMessage) {number : UInt32} (h : number ∉ message.numbers) (value : message.Val)
    (x : Value) : message.take value number x = some value := by
  induction message using EchoMessage.numbers.induct with
  | case1 => rfl
  | case2 first field rest ih =>
      rw [EchoMessage.numbers, List.mem_cons, not_or] at h
      rw [EchoMessage.take, if_neg h.1, ih h.2]
      rfl

/-- Only the field with the number takes part. -/
theorem take_congr (message : EchoMessage) {number : UInt32} {field : EchoField} {x x' : Value}
    (hfield : message.field? number = some field) (h : ∀ value, field.take value x = field.take value x')
    (value : message.Val) : message.take value number x = message.take value number x' := by
  induction message using EchoMessage.numbers.induct with
  | case1 => cases hfield
  | case2 first other rest ih =>
      simp only [EchoMessage.field?] at hfield
      simp only [EchoMessage.take]
      split at hfield
      case isTrue hfirst =>
        cases hfield
        rw [if_pos hfirst, if_pos hfirst, h]
      case isFalse hfirst => rw [if_neg hfirst, if_neg hfirst, ih hfield]

/-- **Fields with other numbers make no difference.** -/
theorem takeFields_inserts {fields' : Message} (h : Inserts message fields fields')
    (value : message.Val) : takeFields message.take value fields' = takeFields message.take value fields := by
  induction h with
  | nil => rfl
  | insert number x _ hother _ _ ih =>
      rw [takeFields, take_other _ hother]
      exact ih value
  | keep number x _ ih =>
      rw [takeFields, takeFields]
      exact congrArg _ (funext ih)
  | @inMessage message nested fields fields' contents contents' number hfield _ _ ihcontents ih =>
      have hnested (value : (EchoField.message nested).Val) :
          (EchoField.message nested).take value (.message contents') =
            (EchoField.message nested).take value (.message contents) := ihcontents value
      rw [takeFields, takeFields, take_congr _ hfield hnested]
      exact congrArg _ (funext ih)
  | @inRepeatedMessage message nested maxArraySize fields fields' contents contents' number hfield _ _ ihcontents ih =>
      have hnested (value : (EchoField.repeatedMessage maxArraySize nested).Val) :
          (EchoField.repeatedMessage maxArraySize nested).take value (.message contents') =
            (EchoField.repeatedMessage maxArraySize nested).take value (.message contents) :=
        congrArg (Option.bind · (BoundedVector.emplaceBack value)) (ihcontents nested.default)
      rw [takeFields, takeFields, take_congr _ hfield hnested]
      exact congrArg _ (funext ih)

theorem Inserts.numbersFit {fields' : Message} (h : Inserts message fields fields')
    (hfit : fields.NumbersFit) : fields'.NumbersFit := by
  induction h with
  | nil => trivial
  | insert number value hnumber _ hvalue _ ih => exact ⟨hnumber, hvalue, ih hfit⟩
  | keep number value _ ih => exact ⟨hfit.1, hfit.2.1, ih hfit.2.2⟩
  | inMessage number _ _ _ ihcontents ih => exact ⟨hfit.1, ihcontents hfit.2.1, ih hfit.2.2⟩
  | inRepeatedMessage number _ _ _ ihcontents ih => exact ⟨hfit.1, ihcontents hfit.2.1, ih hfit.2.2⟩

/-! ## What was written is taken -/

theorem fieldNumbers_consFields {number : UInt32} {values : List Value} {rest : Message} :
    ∀ n ∈ fieldNumbers (consFields number values rest), n = number ∨ n ∈ fieldNumbers rest := by
  intro n hn
  induction values with
  | nil => exact .inr hn
  | cons value values ih =>
      rcases List.mem_cons.mp hn with rfl | hn
      · exact .inl rfl
      · exact ih hn

theorem fieldNumbers_wire (message : EchoMessage) (value : message.Val) :
    ∀ n ∈ fieldNumbers (message.wire value), n ∈ message.numbers := by
  induction message using EchoMessage.numbers.induct with
  | case1 => simp [EchoMessage.wire, fieldNumbers]
  | case2 number field rest ih =>
      intro n hn
      rw [EchoMessage.numbers, List.mem_cons]
      exact (fieldNumbers_consFields n hn).imp_right (ih value.2 n)

section Cons

variable {number : UInt32} {field : EchoField} {rest : EchoMessage}

/-- Some values for one field are taken by its data member. -/
theorem takeFields_first (values : List Value) (value : field.Val) (members : rest.Val) (later : Message) :
    takeFields (EchoMessage.cons number field rest).take (value, members) (consFields number values later) =
      (values.foldlM field.take value).bind fun value =>
        takeFields (EchoMessage.cons number field rest).take (value, members) later := by
  induction values generalizing value with
  | nil => rfl
  | cons x values ih =>
      have hfirst : (EchoMessage.cons number field rest).take (value, members) number x =
          (field.take value x).map fun member => (member, members) := if_pos rfl
      refine (congrArg (Option.bind · fun value => takeFields _ value (consFields number values later)) hfirst).trans ?_
      rw [List.foldlM_cons]
      cases field.take value x with
      | none => rfl
      | some value => exact ih value

/-- The fields that follow do not touch it. -/
theorem takeFields_rest (value : field.Val) (members : rest.Val) {later : Message} (h : number ∉ fieldNumbers later) :
    takeFields (EchoMessage.cons number field rest).take (value, members) later =
      (takeFields rest.take members later).map fun members => (value, members) := by
  induction later using fieldNumbers.induct generalizing members with
  | case1 => rfl
  | case2 n x later ih =>
      rw [fieldNumbers, List.mem_cons, not_or] at h
      have hrest : (EchoMessage.cons number field rest).take (value, members) n x =
          (rest.take members n x).map fun members => (value, members) := if_neg (Ne.symm h.1)
      refine (congrArg (Option.bind · fun value => takeFields _ value later) hrest).trans ?_
      rw [takeFields]
      cases rest.take members n x with
      | none => rfl
      | some members => exact ih members h.2

end Cons

/-- Elements are appended one by one. -/
theorem foldlM_emplaceBack {α : Type} (encode : α → Value) (decode : Value → Option α)
    (h : ∀ a, decode (encode a) = some a) (value contents : BoundedVector α maxSize) (later : List α)
    (hcontents : contents.1 = value.1 ++ later) :
    (later.map encode).foldlM (fun value x => (decode x).bind (BoundedVector.emplaceBack value)) value =
      some contents := by
  induction later generalizing value with
  | nil => exact congrArg some (Subtype.ext (by simpa using hcontents.symm))
  | cons a later ih =>
      have hroom : (value.1 ++ [a]).length ≤ maxSize.toNat := by
        have hsize := contents.2
        simp only [hcontents, List.length_append, List.length_cons, List.length_nil] at hsize ⊢
        omega
      have hpush : value.emplaceBack a = some ⟨value.1 ++ [a], hroom⟩ := dif_pos hroom
      rw [List.map_cons, List.foldlM_cons, h a]
      simp only [Option.bind_some, hpush, Option.bind_eq_bind]
      exact ih _ (by simp [hcontents])

theorem boundedBytes_val (value : BoundedVector UInt8 maxSize) :
    boundedBytes maxSize value.1 = some value := dif_pos value.2

theorem foldlM_single {V : Type} (take : V → Value → Option V) (value : V) (x : Value) :
    [x].foldlM take value = take value x := by
  simp

mutual

theorem take_wire_field (field : EchoField) (value : field.Val) (hfield : field.WellFormed) :
    (field.wire value).foldlM field.take field.default = some value := by
  cases field with
  | int32 => exact congrArg some (Int32.toInt32_toInt64 value)
  | fixed32 => rfl
  | bool => cases value <;> rfl
  | string maxStringSize => exact (foldlM_single _ _ _).trans (boundedBytes_val value)
  | message message => exact (foldlM_single _ _ _).trans (takeFields_wire message value hfield)
  | bytes maxBytesSize => exact (foldlM_single _ _ _).trans (boundedBytes_val value)
  | uint32 => exact congrArg some (UInt32.toUInt32_toUInt64 value)
  | repeatedString maxArraySize maxStringSize =>
      exact foldlM_emplaceBack (fun a => .bytes a.1) (fun x => (bytes? x).bind (boundedBytes maxStringSize))
        boundedBytes_val BoundedVector.empty value value.1 rfl
  | repeatedMessage maxArraySize message =>
      exact foldlM_emplaceBack (fun a => .message (message.wire a))
        (fun x => (message? x).bind (takeFields message.take message.default))
        (fun a => takeFields_wire message a hfield.2) BoundedVector.empty value value.1 rfl
  | repeatedUint32 maxArraySize =>
      have htake : (EchoField.repeatedUint32 maxArraySize).take = fun value x =>
          ((varInt? x).bind fun n => some n.toUInt32).bind (BoundedVector.emplaceBack value) := by
        funext value x
        cases x <;> rfl
      rw [htake]
      exact foldlM_emplaceBack (fun n => .varInt (UInt32.toUInt64 n)) (fun x => (varInt? x).bind fun n => some n.toUInt32)
        (fun n => congrArg some (UInt32.toUInt32_toUInt64 n)) BoundedVector.empty value value.1 rfl

/-- **The fields of a message give the message.** -/
theorem takeFields_wire (message : EchoMessage) (value : message.Val) (hmessage : message.WellFormed) :
    takeFields message.take message.default (message.wire value) = some value := by
  cases message with
  | nil => rfl
  | cons number field rest =>
      obtain ⟨-, -, hother, hfield, hrest⟩ := hmessage
      have hnumber : number ∉ fieldNumbers (rest.wire value.2) :=
        fun h => hother (fieldNumbers_wire rest value.2 number h)
      have hfirst := @takeFields_first number field rest (field.wire value.1) field.default rest.default (rest.wire value.2)
      rw [take_wire_field field value.1 hfield] at hfirst
      refine hfirst.trans ?_
      rw [Option.bind_some, takeFields_rest _ _ hnumber, takeFields_wire rest value.2 hrest]
      rfl

end

theorem numbersFit_consFields {number : UInt32} {values : List Value} {rest : Message} (hnumber : number.toNat < 2 ^ 29)
    (hvalues : ∀ x ∈ values, x.NumbersFit) (hrest : rest.NumbersFit) : (consFields number values rest).NumbersFit := by
  induction values with
  | nil => exact hrest
  | cons x values ih =>
      exact ⟨hnumber, hvalues x List.mem_cons_self, ih fun y hy => hvalues y (List.mem_cons_of_mem _ hy)⟩

mutual

theorem numbersFit_wire_field (field : EchoField) (value : field.Val) (hfield : field.WellFormed) :
    ∀ x ∈ field.wire value, x.NumbersFit := by
  cases field with
  | message message =>
      intro x hx
      obtain rfl := List.mem_singleton.mp hx
      exact numbersFit_wire message value hfield
  | repeatedMessage maxArraySize message =>
      intro x hx
      obtain ⟨a, -, rfl⟩ := List.mem_map.mp hx
      exact numbersFit_wire message a hfield.2
  | repeatedString | repeatedUint32 =>
      intro x hx
      obtain ⟨a, -, rfl⟩ := List.mem_map.mp hx
      trivial
  | _ =>
      intro x hx
      obtain rfl := List.mem_singleton.mp hx
      trivial

theorem numbersFit_wire (message : EchoMessage) (value : message.Val) (hmessage : message.WellFormed) :
    (message.wire value).NumbersFit := by
  cases message with
  | nil => trivial
  | cons number field rest =>
      obtain ⟨-, hnumber, -, hfield, hrest⟩ := hmessage
      exact numbersFit_consFields hnumber (numbersFit_wire_field field value.1 hfield)
        (numbersFit_wire rest value.2 hrest)

end

mutual

theorem equal_self_field (field : EchoField) (value : field.Val) : field.equal value value = true := by
  cases field with
  | message message => exact equal_self message value
  | repeatedMessage maxArraySize message =>
      have hall : (value.1.zip value.1).all (fun p => message.equal p.1 p.2) = true := by
        rw [List.zip_eq_zipWith, List.zipWith_self, List.all_map, List.all_eq_true]
        exact fun a _ => equal_self message a
      rw [EchoField.equal, hall, decide_eq_true rfl]
      rfl
  | int32 => exact @beq_self_eq_true Int32 _ _ value
  | fixed32 => exact @beq_self_eq_true UInt32 _ _ value
  | bool => exact @beq_self_eq_true Bool _ _ value
  | uint32 => exact @beq_self_eq_true UInt32 _ _ value
  | string maxStringSize => exact beq_self_eq_true value.1
  | bytes maxBytesSize => exact beq_self_eq_true value.1
  | repeatedString maxArraySize maxStringSize => exact beq_self_eq_true (value.1.map Subtype.val)
  | repeatedUint32 maxArraySize => exact beq_self_eq_true value.1

theorem equal_self (message : EchoMessage) (value : message.Val) : message.equal value value = true := by
  cases message with
  | nil => rfl
  | cons number field rest =>
      rw [EchoMessage.equal, equal_self_field field, equal_self rest]
      rfl

end

/-! ## The round trip -/

/-- A default-constructed message that is deserialised from the bytes: the parser ends empty, nothing has
failed, and the result is equal to the value. -/
def EchoMessage.ReadsBack (message : EchoMessage) (value : message.Val) (bytes : List UInt8) : Prop :=
  ∃ value' r, message.deserialize message.default (ProtoParser.parser { lengths := [], remaining := bytes }) =
      some (value', r) ∧
    StreamReader.empty r.lengths r.remaining = true ∧ r.failed = false ∧ message.equal value' value = true

/-- The fields of a message, with others between them, are read back. -/
theorem readsBack_inserts {value : message.Val}
    (hmessage : message.WellFormed) (hfields : Inserts message (message.wire value) fields)
    (hsize : (encode fields).length < 2 ^ 32) : message.ReadsBack value (encode fields) := by
  have htake : takeFields message.take message.default fields = some value :=
    (takeFields_inserts hfields _).trans (takeFields_wire message value hmessage)
  have hcovers : StreamReader.Covers [] (encode fields ++ []) (encode fields).length :=
    ⟨fun _ hl => absurd hl (List.not_mem_nil), by simp⟩
  have hread := deserializeFields_eq (reads_message message) htake
    (hfields.numbersFit (numbersFit_wire message value hmessage)) hcovers (by simpa using hsize) (Nat.lt_succ_self _)
  rw [List.append_nil] at hread
  refine ⟨value, { lengths := [0], remaining := [] }, ?_, rfl, rfl, equal_self message value⟩
  rw [ProtoParser.parser, StreamReader.available, StreamReader.limited, Nat.mod_eq_of_lt hsize]
  exact hread

/-- **Generated messages survive serialisation**, also with fields with other numbers between theirs, as long
as there are less than `2 ^ 32` bytes. -/
theorem serialize_readsBack (message : EchoMessage) (hmessage : message.WellFormed) (value : message.Val)
    (hsize : (encode (message.wire value)).length < 2 ^ 32) (memory : List UInt8)
    (hroom : (encode (message.wire value)).length ≤ memory.length) :
    ∃ w, message.serialize value (ByteOutputStreamWriter.ofMemory memory) = some w ∧ w.failed = false ∧
      w.processed = encode (message.wire value) ∧ message.ReadsBack value w.processed ∧
      ∀ fields, Inserts message (message.wire value) fields → (encode fields).length < 2 ^ 32 →
        message.ReadsBack value (encode fields) := by
  obtain ⟨w, free, hput, -, hw⟩ :=
    writes_putMessage (message.wire value) (Writes.ofMemory memory) hroom hsize
  have hprocessed := hw.processed
  rw [List.nil_append] at hprocessed
  refine ⟨w, (serialize_eq message value _).trans hput, hw.failed, hprocessed, ?_, ?_⟩
  · rw [hprocessed]
    exact readsBack_inserts hmessage (Inserts.refl _ _) hsize
  · intro fields hfields hlength
    exact readsBack_inserts hmessage hfields hlength

/-- A message type with all kinds of fields. -/
def sampleMessage : EchoMessage :=
  .cons 1 .int32 (.cons 2 (.string 5) (.cons 3 (.repeatedMessage 2 (.cons 1 .bool .nil)) (.cons 4 .fixed32 .nil)))

def sampleValue : sampleMessage.Val :=
  ((-3 : Int32), ⟨[0x61, 0x62], by decide⟩, ⟨[(true, ()), (false, ())], by decide⟩, (7 : UInt32), ())

theorem serialize_readsBack_sample :
    ∃ w, sampleMessage.serialize sampleValue (ByteOutputStreamWriter.ofMemory (List.replicate 40 0)) = some w ∧
      w.failed = false ∧ sampleMessage.ReadsBack sampleValue w.processed := by
  have hmessage : sampleMessage.WellFormed := by
    simp [sampleMessage, EchoMessage.WellFormed, EchoField.WellFormed, EchoMessage.numbers]
  obtain ⟨w, hserialize, hfailed, -, hback, -⟩ := serialize_readsBack sampleMessage hmessage sampleValue
    (by decide +kernel) (List.replicate 40 0) (by decide +kernel)
  exact ⟨w, hserialize, hfailed, hback⟩

/-- Of `2 ^ 32` bytes the parser takes the length to be 0. -/
theorem deserialize_of_length {value : message.Val} {bytes : List UInt8}
    (hlength : bytes.length = 2 ^ 32) :
    message.deserialize value (ProtoParser.parser { lengths := [], remaining := bytes }) =
      some (value, { lengths := [0], remaining := bytes }) := by
  have hparser : ProtoParser.parser { lengths := [], remaining := bytes } = { lengths := [0], remaining := bytes } := by
    rw [ProtoParser.parser, StreamReader.available, StreamReader.limited, hlength]
    rfl
  rw [hparser, EchoMessage.deserialize, deserializeFields, if_pos (by simp [StreamReader.empty])]

/-- A message type with room for a payload whose encoding has `2 ^ 32` bytes. -/
def payloadMessage : EchoMessage := .cons 1 (.bytes 4294967295) .nil

/-- **The lengths have 32 bits**: a message of `2 ^ 32` bytes is not read back. -/
theorem not_readsBack_long_payload :
    ¬ ∀ (message : EchoMessage) (value : message.Val) (memory : List UInt8) (w : ByteOutputStreamWriter),
      message.WellFormed → message.serialize value (ByteOutputStreamWriter.ofMemory memory) = some w →
        w.failed = false → message.ReadsBack value w.processed := by
  intro h
  have hpayload : (List.replicate (2 ^ 32 - 6) (0 : UInt8)).length = 2 ^ 32 - 6 := List.length_replicate
  generalize List.replicate (2 ^ 32 - 6) (0 : UInt8) = payload at hpayload
  have hfits : payload.length ≤ (4294967295 : UInt32).toNat := by rw [hpayload]; decide
  have hlength : (encodeField 1 (.bytes payload)).length = 2 ^ 32 := by
    have hkey : (varIntBytes 10 (key 1 2)).length = 1 := by decide
    have hsize : (varIntBytes 10 (2 ^ 32 - 6)).length = 5 := by decide
    rw [encodeField, hpayload]
    simp only [List.length_append, hkey, hsize, hpayload]
    norm_num
  obtain ⟨w, free, hput, -, hw⟩ := writes_putBytesField
    (Writes.ofMemory (encodeField 1 (.bytes payload))) 1 payload (le_refl _)
  have hserialize : payloadMessage.serialize (⟨payload, hfits⟩, ())
      (ByteOutputStreamWriter.ofMemory (encodeField 1 (.bytes payload))) = some w :=
    congrArg (Option.bind · some) hput
  have hwritten : w.processed.length = 2 ^ 32 := by rw [hw.processed, List.nil_append, hlength]
  obtain ⟨value', r, hread, -, -, hequal⟩ := h payloadMessage (⟨payload, hfits⟩, ()) _ w
    (by simp [payloadMessage, EchoMessage.WellFormed, EchoField.WellFormed, EchoMessage.numbers]) hserialize hw.failed
  rw [deserialize_of_length hwritten] at hread
  cases hread
  have hempty : (([] : List UInt8) == payload) = true := (Bool.and_eq_true_iff.mp hequal).1
  rw [← eq_of_beq hempty, List.length_nil] at hpayload
  omega

end EmbeddedInfra.Echo
