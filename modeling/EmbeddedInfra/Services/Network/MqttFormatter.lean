import EmbeddedInfra.Lib.ContinuedNumbers
import EmbeddedInfra.Services.Network.MqttClientImpl

set_option autoImplicit false

/-! # The length of an MQTT packet

`MqttFormatter` writes CONNECT and PUBLISH packets and says beforehand how much room they need. `MqttParser` reads
the length in front of a packet. What is written for a length is the number in groups of seven bits
(`sizeBytes_eq`), but the parser puts the groups together eight bits apart, and with the bits that say that there
is more (`extractSizeFrom_sizeBytes`); so it only reads a length of one byte back.
-/

namespace EmbeddedInfra.Mqtt

open ContinuedNumbers

/-! ## The formatter -/

namespace MqttFormatter

def packetTypeConnect : UInt8 := 1

def packetTypePublish : UInt8 := 3

/-- `BigEndianUint16` -/
def bigEndianUint16 (value : UInt16) : List UInt8 := [(value >>> 8).toUInt8, value.toUInt8]

/-- `PacketConnect`, as it is in memory. -/
structure PacketConnect where
  protocolNameLength : UInt16 := 4
  protocolName : List UInt8 := [0x4d, 0x51, 0x54, 0x54]
  protocolLevel : UInt8 := 4
  connectFlags : UInt8 := 0xc2
  keepAlive : UInt16 := 0

def PacketConnect.bytes (packet : PacketConnect) : List UInt8 :=
  bigEndianUint16 packet.protocolNameLength ++ (packet.protocolName ++
    ([packet.protocolLevel, packet.connectFlags] ++ bigEndianUint16 packet.keepAlive))

def encodedLength (value : List UInt8) : Nat := 2 + value.length

def addString (value : List UInt8) : List UInt8 := bigEndianUint16 (UInt16.ofNat value.length) ++ value

def makePacketType (packetType flags : UInt8) : UInt8 := (packetType <<< 4) ||| flags

/-- The loop of `Header`, and the byte behind it. -/
def sizeBytes (size : Nat) : List UInt8 :=
  if 127 < size then UInt8.ofNat ((size &&& 0x7f) ||| 0x80) :: sizeBytes (size >>> 7) else [UInt8.ofNat size]
termination_by size
decreasing_by
  rw [Nat.shiftRight_eq_div_pow]
  omega

def header (packetType : UInt8) (size : Nat) (flags : UInt8) : List UInt8 :=
  makePacketType packetType flags :: sizeBytes size

end MqttFormatter

open MqttFormatter

/-- The packets that the client sends. -/
inductive Packet where
  | connect (clientId username password : List UInt8)
  | publish (topic payload : List UInt8)

namespace Packet

/-- The size that `Header` is given. -/
def remainingLength : Packet → Nat
  | connect clientId username password =>
      ({} : PacketConnect).bytes.length + encodedLength clientId + encodedLength username + encodedLength password
  | publish topic payload => encodedLength topic + payload.length + 2

/-- What `MessageConnect` and `MessagePublish` write behind the header. -/
def contents : Packet → List UInt8
  | connect clientId username password =>
      ({} : PacketConnect).bytes ++ (addString clientId ++ (addString username ++ addString password))
  | publish topic payload => addString topic ++ (bigEndianUint16 1 ++ payload)

/-- `MessageConnect` and `MessagePublish` -/
def message (p : Packet) : List UInt8 :=
  match p with
  | connect _ _ _ => header packetTypeConnect p.remainingLength 0 ++ p.contents
  | publish _ _ => header packetTypePublish p.remainingLength 2 ++ p.contents

/-- `MessageSizeConnect` and `MessageSizePublish` -/
def messageSize : Packet → Nat
  | connect clientId username password =>
      5 + ({} : PacketConnect).bytes.length + encodedLength clientId + encodedLength username + encodedLength password
  | publish topic payload => 5 + encodedLength topic + payload.length

/-- The strings have a length of two bytes, and the packet one that MQTT has room for. -/
structure Valid (p : Packet) : Prop where
  strings : match p with
    | connect clientId username password =>
        clientId.length ≤ 65535 ∧ username.length ≤ 65535 ∧ password.length ≤ 65535
    | publish topic _ => topic.length ≤ 65535
  remaining : p.remainingLength ≤ 268435455

end Packet

/-! ## The parser -/

/-- `ExtractSize`, with the values that its variables have, and what follows it. `none` when the stream fails. -/
def extractSizeFrom (size : UInt32) (shift : Nat) : List UInt8 → Option (UInt32 × List UInt8)
  | [] => none
  | sizeByte :: rest =>
      if 127 < sizeByte then extractSizeFrom (size + UInt32.ofNat (sizeByte.toNat <<< shift)) (shift + 8) rest
      else some (size + UInt32.ofNat (sizeByte.toNat <<< shift), rest)

/-! ## The length that is written -/

theorem sizeBytes_eq (size : Nat) : sizeBytes size = write size := by
  induction size using Nat.strong_induction_on with
  | _ size ih =>
      by_cases hmore : 127 < size
      · have hor := @Nat.two_pow_add_eq_or_of_lt 7 (size % 128) (by omega) 1
        have hlow : (size &&& 0x7f) ||| 0x80 = size % 128 + 128 := by
          calc (size &&& 0x7f) ||| 0x80
              = size % 128 ||| 0x80 := by rw [Nat.and_two_pow_sub_one_eq_mod size 7]
            _ = 0x80 ||| size % 128 := Nat.or_comm _ _
            _ = 0x80 + size % 128 := hor.symm
            _ = size % 128 + 128 := Nat.add_comm _ _
        have hhigh : size >>> 7 = size / 128 := Nat.shiftRight_eq_div_pow size 7
        rw [sizeBytes, if_pos hmore, hlow, hhigh, ih (size / 128) (by omega), write_more hmore]
      · rw [sizeBytes, if_neg hmore, write_last (by omega)]

theorem length_addString (value : List UInt8) : (addString value).length = encodedLength value := by
  rw [addString, List.length_append, encodedLength]
  rfl

namespace Packet

variable {p : Packet}

/-- The length is that of what follows. -/
theorem length_contents (p : Packet) : p.contents.length = p.remainingLength := by
  cases p with
  | connect clientId username password =>
      simp only [contents, remainingLength, List.length_append, length_addString]
      omega
  | publish topic payload =>
      simp only [contents, remainingLength, List.length_append, length_addString]
      have hidentifier : (bigEndianUint16 1).length = 2 := rfl
      omega

theorem message_tail (p : Packet) : p.message.tail = sizeBytes p.remainingLength ++ p.contents := by
  cases p with
  | connect clientId username password => rfl
  | publish topic payload => rfl

theorem length_message (p : Packet) :
    p.message.length = 1 + (sizeBytes p.remainingLength).length + p.remainingLength := by
  have htail := congrArg List.length p.message_tail
  have hpos : 0 < p.message.length := by
    cases p with
    | connect clientId username password => exact Nat.succ_pos _
    | publish topic payload => exact Nat.succ_pos _
  rw [List.length_tail, List.length_append, length_contents] at htail
  omega

/-- The room for a PUBLISH packet does not count the packet identifier, so it takes the bytes that a longer length
could have. -/
theorem fits_iff (h : p.Valid) :
    p.message.length ≤ p.messageSize ↔
      match p with
      | connect _ _ _ => True
      | publish _ _ => p.remainingLength < 128 ^ 2 := by
  have hfour : (sizeBytes p.remainingLength).length ≤ 4 := by
    rw [sizeBytes_eq, length_write_le_iff]
    have := h.remaining
    omega
  have hlength := p.length_message
  cases p with
  | connect clientId username password =>
      simp only [remainingLength, messageSize] at *
      exact iff_of_true (by omega) trivial
  | publish topic payload =>
      have htwo := @length_write_le_iff (remainingLength (publish topic payload)) 1
      rw [← sizeBytes_eq] at htwo
      simp only [remainingLength, messageSize] at *
      rw [← htwo]
      omega

end Packet

/-! ## The length that is read -/

/-- The groups with their high bits, eight bits apart. -/
def spread (value : Nat) : Nat :=
  if 127 < value then value % 128 + 128 + 256 * spread (value / 128) else value
termination_by value

variable {value n : Nat}

theorem spread_last (h : value ≤ 127) : spread value = value := by
  rw [spread, if_neg (by omega)]

theorem spread_more (h : 127 < value) : spread value = value % 128 + 128 + 256 * spread (value / 128) := by
  rw [spread, if_pos h]

theorem le_spread (value : Nat) : value ≤ spread value := by
  induction value using Nat.strong_induction_on with
  | _ value ih =>
      by_cases hmore : 127 < value
      · have hlater := ih (value / 128) (by omega)
        rw [spread_more hmore]
        omega
      · exact (spread_last (by omega)).ge

theorem lt_spread (h : 127 < value) : value < spread value := by
  have hlater := le_spread (value / 128)
  rw [spread_more h]
  omega

theorem spread_lt (h : value < 128 ^ (n + 1)) : spread value < 256 ^ (n + 1) := by
  induction n generalizing value with
  | zero =>
      rw [spread_last (by omega)]
      omega
  | succ n ih =>
      have hpow : 256 ^ (n + 1 + 1) = 256 * 256 ^ (n + 1) := by rw [Nat.pow_succ, Nat.mul_comm]
      by_cases hmore : 127 < value
      · rw [Nat.pow_succ, Nat.mul_comm] at h
        have hlater := @ih (value / 128) (by omega)
        rw [spread_more hmore]
        omega
      · have hpos : 0 < 256 ^ (n + 1) := Nat.pow_pos (by omega)
        rw [spread_last (by omega)]
        omega

theorem extractSizeFrom_sizeBytes (value : Nat) (size : UInt32) (shift : Nat) (rest : List UInt8) :
    extractSizeFrom size shift (sizeBytes value ++ rest) =
      some (size + UInt32.ofNat (spread value * 2 ^ shift), rest) := by
  rw [sizeBytes_eq]
  induction value using Nat.strong_induction_on generalizing size shift with
  | _ value ih =>
      by_cases hmore : 127 < value
      · have hsum : (value % 128 + 128) * 2 ^ shift + spread (value / 128) * 2 ^ (shift + 8) =
            spread value * 2 ^ shift := by
          rw [spread_more hmore, Nat.pow_add]
          ring
        rw [write_more hmore, List.cons_append, extractSizeFrom,
          if_pos (lt_more value), ih (value / 128) (by omega), toNat_more,
          Nat.shiftLeft_eq, UInt32.add_assoc, ← UInt32.ofNat_add, hsum]
      · have hlast : value ≤ 127 := by omega
        rw [write_last hlast, List.singleton_append, extractSizeFrom,
          if_neg (not_lt_last hlast), toNat_last hlast, Nat.shiftLeft_eq,
          spread_last hlast]

/-- Of the lengths that MQTT has, those of one byte are read back. -/
theorem extractSize_iff (h : value ≤ 268435455) :
    (∀ rest, extractSizeFrom 0 0 (sizeBytes value ++ rest) = some (UInt32.ofNat value, rest)) ↔ value ≤ 127 := by
  have hspread : spread value < 256 ^ 4 := spread_lt (by omega)
  constructor
  · intro hread
    by_contra hmore
    have hlt := lt_spread (show 127 < value by omega)
    have hsize := hread []
    rw [extractSizeFrom_sizeBytes, Nat.pow_zero, Nat.mul_one, UInt32.zero_add, Option.some.injEq, Prod.mk.injEq] at hsize
    have hnat := congrArg UInt32.toNat hsize.1
    rw [UInt32.toNat_ofNat_of_lt' (lt_of_lt_of_eq hspread rfl),
      UInt32.toNat_ofNat_of_lt' (show value < 2 ^ 32 by omega)] at hnat
    omega
  · intro hlast rest
    rw [extractSizeFrom_sizeBytes, spread_last hlast, Nat.pow_zero, Nat.mul_one, UInt32.zero_add]

/-! ## Both together -/

/-- There is room for the packet, its length is that of what follows, and the parser reads it back and stops behind
it. -/
structure CodesLength (p : Packet) : Prop where
  fits : p.message.length ≤ p.messageSize
  announced : ∃ contents, read p.message.tail = some (contents.length, contents)
  extracted : ∀ rest, extractSizeFrom 0 0 (sizeBytes p.remainingLength ++ rest) =
    some (UInt32.ofNat p.remainingLength, rest)

/-- The length that is announced is right for every packet. -/
theorem Packet.announced (p : Packet) :
    ∃ contents, read p.message.tail = some (contents.length, contents) := by
  refine ⟨p.contents, ?_⟩
  rw [p.message_tail, sizeBytes_eq, read_write, p.length_contents]

theorem codesLength_iff {p : Packet} (h : p.Valid) : CodesLength p ↔ p.remainingLength ≤ 127 := by
  constructor
  · intro hcodes
    exact (extractSize_iff h.remaining).mp hcodes.extracted
  · intro hsmall
    constructor
    · rw [Packet.fits_iff h]
      split
      · trivial
      · omega
    · exact p.announced
    · exact (extractSize_iff h.remaining).mpr hsmall

theorem codesLength_small : CodesLength (.publish [0x74] [0x70]) :=
  (codesLength_iff ⟨by decide, by decide⟩).mpr (by decide)

/-- A payload of 200 bytes is announced with two bytes, which are not read back; and one of 20000 bytes has no room. -/
theorem not_codesLength_longer :
    ¬ CodesLength (.publish [0x74] (List.replicate 200 0)) ∧
      ¬ (Packet.publish [0x74] (List.replicate 20000 0)).message.length ≤
        (Packet.publish [0x74] (List.replicate 20000 0)).messageSize := by
  have hlength (n : Nat) : (Packet.publish [0x74] (List.replicate n 0)).remainingLength = n + 5 := by
    rw [Packet.remainingLength, List.length_replicate, encodedLength, List.length_singleton]
    omega
  constructor
  · intro h
    have hsmall := (extractSize_iff (by rw [hlength]; omega)).mp h.extracted
    rw [hlength] at hsmall
    omega
  · have hvalid : (Packet.publish [0x74] (List.replicate 20000 0)).Valid := ⟨by decide, by rw [hlength]; omega⟩
    rw [Packet.fits_iff hvalid]
    show ¬ _ < 128 ^ 2
    rw [hlength]
    omega

end EmbeddedInfra.Mqtt
