import EmbeddedInfra.Protobuf.EchoMessage
import EmbeddedInfra.Lib.EventSystem

set_option autoImplicit false

/-! # Receiving method calls

`services::Echo` reads method calls from its connection and hands each one to the service that it is for. A
call is acknowledged after its handler has returned; until then its bytes are offered again with those that
come in later. A call for a service that has not finished the one before is left where it is until
`MethodDone`, which schedules another `DataReceived`.
-/

namespace EmbeddedInfra.Echo

open Streams Proto ProtoParser StreamReader

/-! ## Reading a call -/

/-- What the first half of a turn of the loop in `DataReceived` comes to. `argument` is the parser that
the handler is given. -/
inductive Parsed where
  | incomplete
  | abort
  | call (serviceId methodId : UInt32) (argument : StreamReader)
deriving DecidableEq, Repr

/-- The loop of `DataReceived`, up to `ExecuteMethod`. -/
def parseCall (received : List UInt8) : Parsed :=
  let parser := parser { lengths := [], remaining := received }
  let (value, parser) := getVarInt parser
  let serviceId := UInt32.ofNat value
  match getField parser with
  | none => .abort
  | some ((contents, methodId), parser) =>
      if parser.failed then .incomplete
      else
        match getLengthDelimited contents with
        | none => .abort
        | some length => .call serviceId methodId (ProtoParser.parser (parser.limited length))

/-! ## Echo -/

structure Service where
  serviceId : UInt32
  inProgress : Bool := false
deriving DecidableEq, Repr

/-- A call as its sender means it. -/
structure Call where
  serviceId : UInt32
  methodId : UInt32
  argument : List UInt8
deriving DecidableEq, Repr

/-- What has happened to the services. -/
inductive Entry where
  | handle (call : Call)
  | methodDone (serviceId : UInt32)
deriving DecidableEq, Repr

def Entry.isHandle : Entry → Bool
  | .handle _ => true
  | .methodDone _ => false

/-- What the services do. -/
structure Handlers where
  /-- `Handle` of a service, for a method: what remains of the argument, or `none` when it aborts. -/
  handle : UInt32 → UInt32 → StreamReader → Option StreamReader
  /-- The calls of `MethodDone` that are made from inside the handler of a call, by its position. -/
  during : Nat → List UInt32

/-- The receiving half of Echo, with what its connection has received and not yet been acknowledged, the number
of calls of `DataReceived` that are scheduled, and a log. -/
structure Receiver where
  services : List Service
  serviceBusy : Option UInt32 := none
  received : List UInt8 := []
  scheduled : Nat := 0
  log : List Entry := []
  aborted : Bool := false
deriving DecidableEq, Repr

namespace Receiver

/-- `Service::MethodDone`, with `Echo::ServiceDone` -/
def methodDone (s : Receiver) (serviceId : UInt32) : Receiver :=
  let s := { s with services := s.services.map fun service =>
                      if service.serviceId = serviceId then { service with inProgress := false } else service
                    log := s.log ++ [.methodDone serviceId] }
  if s.serviceBusy = some serviceId then { s with serviceBusy := none, scheduled := s.scheduled + 1 } else s

/-- The bytes that an argument parser has. -/
def argumentBytes (argument : StreamReader) : List UInt8 :=
  argument.remaining.take (available argument.lengths argument.remaining)

/-- `Echo::ExecuteMethod` -/
def executeMethod (h : Handlers) (s : Receiver) (serviceId methodId : UInt32) (argument : StreamReader) :
    Receiver × Option StreamReader :=
  match s.services.find? fun service => service.serviceId = serviceId with
  | none => (s, some argument)
  | some service =>
      if service.inProgress then ({ s with serviceBusy := some serviceId }, some argument)
      else
        let position := s.log.countP Entry.isHandle
        let s := { s with services := s.services.map fun service =>
                            if service.serviceId = serviceId then { service with inProgress := true } else service
                          log := s.log ++ [.handle ⟨serviceId, methodId, argumentBytes argument⟩] }
        ((h.during position).foldl methodDone s, h.handle serviceId methodId argument)

/-- The loop of `Echo::DataReceived`. Every turn but the last acknowledges a byte. -/
def dataReceivedFrom (h : Handlers) : Nat → Receiver → Receiver
  | 0, s => s
  | turns + 1, s =>
      if s.serviceBusy.isSome then s
      else
        match parseCall s.received with
        | .incomplete => s
        | .abort => { s with aborted := true }
        | .call serviceId methodId argument =>
            match s.executeMethod h serviceId methodId argument with
            | (s, none) => { s with aborted := true }
            | (s, some argument) =>
                if argument.failed then { s with aborted := true }
                else if s.serviceBusy.isSome then s
                else
                  -- `AckReceived` drops what has been extracted
                  let s := { s with received := argument.remaining }
                  if s.received.isEmpty then s else dataReceivedFrom h turns s

def dataReceived (h : Handlers) (s : Receiver) : Receiver := dataReceivedFrom h (s.received.length + 1) s

end Receiver

/-- Bytes come in, a scheduled call of `DataReceived` is made, or a service calls `MethodDone`. -/
inductive ReceiverEvent where
  | dataReceived (bytes : List UInt8)
  | scheduledDataReceived
  | methodDone (serviceId : UInt32)
deriving DecidableEq, Repr

/-- The bytes that come in. -/
def ReceiverEvent.bytes : ReceiverEvent → List UInt8
  | .dataReceived bytes => bytes
  | _ => []

/-- What the connection, the event dispatcher and the services do. -/
def Receiver.step (h : Handlers) (s : Receiver) : ReceiverEvent → Option Receiver
  | .dataReceived bytes => some (Receiver.dataReceived h { s with received := s.received ++ bytes })
  | .scheduledDataReceived =>
      if 0 < s.scheduled then some (Receiver.dataReceived h { s with scheduled := s.scheduled - 1 }) else none
  | .methodDone serviceId => some (s.methodDone serviceId)

/-! ## The bytes of a call -/

/-- What a proxy sends. -/
def Call.encode (call : Call) : List UInt8 :=
  varIntBytes 10 call.serviceId.toNat ++ encodeField call.methodId (.bytes call.argument)

/-- The method id is a field number, and the length has 32 bits. -/
structure Call.WellFormed (call : Call) : Prop where
  methodId : call.methodId.toNat < 2 ^ 29
  argument : call.argument.length < 2 ^ 32

/-- The bytes of some calls. -/
def encodeCalls (calls : List Call) : List UInt8 := calls.flatMap Call.encode

/-- The handler of a call reads its whole argument. -/
def Handlers.ReadsArgument (h : Handlers) (call : Call) : Prop :=
  ∀ (lengths : List Nat) (rest : List UInt8),
    StreamReader.Covers lengths (call.argument ++ rest) call.argument.length → (call.argument ++ rest).length < 2 ^ 32 →
    ∃ lengths', h.handle call.serviceId call.methodId
        { lengths := call.argument.length :: lengths, remaining := call.argument ++ rest } =
      some { lengths := lengths', remaining := rest }

/-! ## Calls that are there -/

/-- The parser of the whole stream. -/
theorem parser_eq {bytes : List UInt8} (hsize : bytes.length < 2 ^ 32) :
    parser { lengths := [], remaining := bytes } = { lengths := [bytes.length], remaining := bytes } := by
  rw [parser, limited, available, Nat.mod_eq_of_lt hsize]

theorem covers_all {bytes : List UInt8} (hsize : bytes.length < 2 ^ 32) :
    StreamReader.Covers [bytes.length] bytes bytes.length := by
  refine ⟨?_, le_refl _⟩
  intro length hlength
  rw [List.mem_singleton.mp hlength]
  exact ⟨le_refl _, hsize⟩

/-- **A call that has come in is read.** -/
theorem parseCall_encode {call : Call} (hcall : call.WellFormed) {rest : List UInt8}
    (hsize : (call.encode ++ rest).length < 2 ^ 32) :
    ∃ lengths, parseCall (call.encode ++ rest) = .call call.serviceId call.methodId
        { lengths := call.argument.length :: lengths, remaining := call.argument ++ rest } ∧
      StreamReader.Covers lengths (call.argument ++ rest) call.argument.length := by
  have hid : call.serviceId.toNat < 2 ^ 64 := call.serviceId.toNat_lt.trans (by decide)
  have hcovers := covers_all hsize
  have hparser := parser_eq hsize
  unfold Call.encode at *
  rw [List.append_assoc] at *
  rw [List.length_append] at hcovers hparser
  -- the service id, and after it a field
  have hafter := hcovers.sub
  rw [List.drop_left] at hafter
  obtain ⟨lengths, hfield, hpayload, -⟩ := getField_encodeField (.bytes call.argument) hcall.methodId
    (hafter.mono (by simp)) (lt_of_le_of_lt (by simp) hsize)
  simp only [Value.payload] at hpayload
  have hargument := hcall.argument
  have hrest : (call.argument ++ rest).length < 2 ^ 32 := by
    have hle := length_payload_le call.methodId (.bytes call.argument)
    simp only [Value.payload] at hle
    simp only [List.length_append] at hsize ⊢
    omega
  refine ⟨call.argument.length :: lengths, ?_, hpayload.cons (le_refl _) hargument⟩
  have hnumber := getVarInt_eq hid (hcovers.mono (Nat.le_add_right _ _))
  simp only [parseCall, hparser, hnumber, hfield, Value.received, Value.payload, getLengthDelimited, Bool.false_eq_true,
    if_false]
  rw [parser_limited hpayload hargument hrest, UInt32.ofNat_toNat]

/-! ## Calls that are not there yet -/

variable {k : Nat}

section Failed

variable {lengths : List Nat} {remaining : List UInt8} {r : StreamReader}

theorem extract_failed (n : Nat) : (extract lengths remaining true n).2.failed = true := by
  induction lengths generalizing n with
  | nil => simp [extract]
  | cons length lengths ih => simp [extract, ih]

/-- Nothing can be read of an empty stream. -/
theorem extract_nil {failed : Bool} {n : Nat} (hn : 1 ≤ n) :
    (extract lengths [] failed n).2.failed = true := by
  induction lengths generalizing failed n with
  | nil =>
      have hno : ¬ n ≤ 0 := by omega
      simp [extract, hno]
  | cons length lengths ih =>
      by_cases hlength : n ≤ length
      · simp [extract, hlength, ih hn]
      · simp [extract, hlength, extract_failed]

/-- A number of which bytes are missing cannot be read. -/
theorem getVarIntFrom_truncated (n : Nat) {turns value result shift : Nat} {byte : UInt8}
    (hk : k < (varIntBytes n value).length)
    (hcovers : StreamReader.Covers lengths ((varIntBytes n value).take k) k) (hturns : k < turns) :
    (getVarIntFrom turns { lengths := lengths, remaining := (varIntBytes n value).take k } result byte
      shift).2.failed = true := by
  induction n generalizing turns value result shift k byte lengths with
  | zero => simp [varIntBytes] at hk
  | succ n ih =>
      obtain ⟨turns, rfl⟩ : ∃ t, turns = t + 1 := ⟨turns - 1, by omega⟩
      cases k with
      | zero =>
          have hfailed := @extract_nil lengths false 1 (le_refl 1)
          rw [List.take_zero, getVarIntFrom]
          simp [hfailed]
      | succ k =>
          by_cases hlast : value ≤ 127
          · rw [varIntBytes_last n hlast, List.length_singleton] at hk
            omega
          · have hmore : 127 < value := by omega
            rw [varIntBytes_more n hmore] at hk hcovers ⊢
            rw [List.take_succ_cons] at hcovers ⊢
            rw [List.length_cons] at hk
            rw [Nat.add_comm k 1] at hcovers
            rw [getVarIntFrom_step (by omega) (hcovers.mono (by omega)), if_neg (by omega)]
            have hrest := hcovers.sub
            rw [List.drop_succ_cons, List.drop_zero] at hrest
            exact ih (by omega) hrest (by omega)

theorem getVarIntFrom_failed {turns result shift : Nat} {byte : UInt8} (h : r.failed = true) :
    (getVarIntFrom turns r result byte shift).2.failed = true := by
  cases turns with
  | zero => exact h
  | succ turns =>
      rw [getVarIntFrom, h]
      simp [extract_failed]

theorem getVarInt_failed (h : r.failed = true) : (getVarInt r).2.failed = true :=
  getVarIntFrom_failed h

/-- A field of a stream that has failed is read without aborting, and the stream stays failed. -/
theorem getFieldOfType_failed (type number : UInt32) (h : r.failed = true) :
    ∃ contents number' r', getFieldOfType type number r = some ((contents, number'), r') ∧
      r'.failed = true := by
  have hnumber := getVarInt_failed h
  unfold getFieldOfType
  generalize getVarInt r = p at hnumber
  split
  · exact ⟨_, _, p.2, rfl, hnumber⟩
  split
  · exact ⟨_, _, _, rfl, by simp [h, extract_failed]⟩
  split
  · exact ⟨_, _, _, rfl, by simp [reportResult, hnumber]⟩
  split
  · exact ⟨_, _, _, rfl, by simp [h, extract_failed]⟩
  · simp [h]

/-- When the key cannot be read, neither can the field. -/
theorem getField_failed (h : (getVarInt r).2.failed = true) :
    ∃ contents number r', getField r = some ((contents, number), r') ∧ r'.failed = true :=
  getFieldOfType_failed _ _ h

theorem getVarInt_truncated {value : Nat} (hk : k < (varIntBytes 10 value).length)
    (hcovers : StreamReader.Covers lengths ((varIntBytes 10 value).take k) k) :
    (getVarInt { lengths := lengths, remaining := (varIntBytes 10 value).take k }).2.failed = true := by
  have hlength : ((varIntBytes 10 value).take k).length = k := by
    rw [List.length_take]
    omega
  rw [getVarInt, hlength]
  exact getVarIntFrom_truncated 10 hk hcovers (Nat.lt_succ_self k)

theorem available_le (lengths : List Nat) (remaining : List UInt8) :
    available lengths remaining ≤ remaining.length := by
  induction lengths with
  | nil => exact le_refl _
  | cons length lengths ih =>
      calc available (length :: lengths) remaining
          ≤ available lengths remaining % 2 ^ 32 := Nat.min_le_right _ _
        _ ≤ available lengths remaining := Nat.mod_le _ _
        _ ≤ remaining.length := ih

/-- A field with too few bytes after its length. -/
theorem getFieldOfType_short {number : UInt32} {length : Nat} {rest : List UInt8} (hlength : length < 2 ^ 32)
    (hcovers : StreamReader.Covers lengths (varIntBytes 10 length ++ rest) (varIntBytes 10 length).length)
    (hshort : rest.length < length) :
    ∃ contents number' r', getFieldOfType 2 number
        { lengths := lengths, remaining := varIntBytes 10 length ++ rest } = some ((contents, number'), r') ∧
      r'.failed = true := by
  have havailable := available_le (lengths.map (· - (varIntBytes 10 length).length)) rest
  rw [getFieldOfType, if_neg (by decide), if_neg (by decide), if_pos rfl,
    getVarInt_eq (by omega) hcovers]
  refine ⟨_, _, _, rfl, ?_⟩
  simp only [Nat.mod_eq_of_lt hlength, reportResult, Bool.or_eq_true, Bool.not_eq_true', decide_eq_false_iff_not]
  omega

/-- A field of which bytes are missing cannot be read. -/
theorem getField_truncated {number : UInt32} {argument : List UInt8} (hnumber : number.toNat < 2 ^ 29)
    (hargument : argument.length < 2 ^ 32) (hk : k < (encodeField number (.bytes argument)).length)
    (hcovers : StreamReader.Covers lengths ((encodeField number (.bytes argument)).take k) k) :
    ∃ contents number' r', getField
        { lengths := lengths, remaining := (encodeField number (.bytes argument)).take k } =
        some ((contents, number'), r') ∧ r'.failed = true := by
  unfold encodeField at *
  simp only [List.length_append] at hk
  by_cases hkey : k < (varIntBytes 10 (ProtoFormatter.key number 2)).length
  · rw [List.take_append_of_le_length (by omega)] at hcovers ⊢
    exact getField_failed (getVarInt_truncated hkey hcovers)
  -- the key is there
  obtain ⟨j, rfl⟩ : ∃ j, k = (varIntBytes 10 (ProtoFormatter.key number 2)).length + j :=
    Nat.exists_eq_add_of_le (by omega)
  rw [List.take_length_add_append] at hcovers ⊢
  have hafter := hcovers.sub
  rw [List.drop_left] at hafter
  rw [getField_eq hnumber (by decide) (hcovers.mono (by omega))]
  by_cases hlength : j < (varIntBytes 10 argument.length).length
  · rw [List.take_append_of_le_length (by omega)] at hafter ⊢
    have hfailed := getVarInt_truncated hlength hafter
    rw [getFieldOfType, if_neg (by decide), if_neg (by decide), if_pos rfl]
    generalize getVarInt _ = p at hfailed
    exact ⟨_, _, _, rfl, by simp [reportResult, hfailed]⟩
  · obtain ⟨i, rfl⟩ : ∃ i, j = (varIntBytes 10 argument.length).length + i :=
      Nat.exists_eq_add_of_le (by omega)
    rw [List.take_length_add_append] at hafter ⊢
    exact getFieldOfType_short hargument (hafter.mono (by omega)) (by rw [List.length_take]; omega)

end Failed

/-- **A call of which bytes are missing is not read.** -/
theorem parseCall_truncated {call : Call} (hcall : call.WellFormed) (hk : k < call.encode.length)
    (hsize : k < 2 ^ 32) : parseCall (call.encode.take k) = .incomplete := by
  have hlength : (call.encode.take k).length = k := by
    rw [List.length_take]
    omega
  have hparser := parser_eq (lt_of_le_of_lt (le_of_eq hlength) hsize)
  have hcovers := covers_all (lt_of_le_of_lt (le_of_eq hlength) hsize)
  rw [hlength] at hparser hcovers
  have hfailed : ∃ contents number r', getField
      (getVarInt { lengths := [k], remaining := call.encode.take k }).2 =
        some ((contents, number), r') ∧ r'.failed = true := by
    unfold Call.encode at *
    by_cases hid : k < (varIntBytes 10 call.serviceId.toNat).length
    · rw [List.take_append_of_le_length (by omega)] at hcovers ⊢
      exact getField_failed (getVarInt_failed (getVarInt_truncated hid hcovers))
    · -- the service id is there
      obtain ⟨j, rfl⟩ : ∃ j, k = (varIntBytes 10 call.serviceId.toNat).length + j :=
        Nat.exists_eq_add_of_le (by omega)
      rw [List.take_length_add_append] at hcovers ⊢
      rw [List.length_append] at hk
      have hafter := hcovers.sub
      rw [List.drop_left] at hafter
      rw [getVarInt_eq (call.serviceId.toNat_lt.trans (by decide)) (hcovers.mono (by omega))]
      exact getField_truncated hcall.methodId hcall.argument (by omega) hafter
  obtain ⟨contents, number, r', hfield, hfailed⟩ := hfailed
  simp [parseCall, hparser, hfield, hfailed]

theorem parseCall_nil : parseCall [] = .incomplete := by decide

end EmbeddedInfra.Echo
