import EmbeddedInfra.Infra.Syntax.Proto
import Mathlib.Logic.Relation

set_option autoImplicit false

/-! # Parsing of any bytes

Somebody who does not know what to expect calls `GetField` of an `infra::ProtoParser` again and again,
and `SkipEverything` of every length delimited field, until the parser is empty or has failed. Here this
is done with any bytes: with unknown wire types, with numbers of too many bytes, with lengths that are
too large, and with an end at any place.
-/

namespace EmbeddedInfra.Streams.StreamReader

/-- `ExtractContiguousRange` of the chain of readers. -/
def extractContiguousRange : List Nat → List UInt8 → Bool → Nat → List UInt8 × StreamReader
  | [], remaining, failed, max =>
      (remaining.take max, { lengths := [], remaining := remaining.drop max, failed := failed })
  | length :: lengths, remaining, failed, max =>
      let (result, reader) := extractContiguousRange lengths remaining failed (min length max)
      (result, { reader with lengths := (length - result.length) :: reader.lengths })

end EmbeddedInfra.Streams.StreamReader

namespace EmbeddedInfra.Proto

open EmbeddedInfra.Streams

/-- The loop of `SkipEverything`; the first argument bounds its turns. -/
def skipEverythingFor : Nat → StreamReader → Option StreamReader
  | 0, _ => none
  | turns + 1, r =>
      if StreamReader.empty r.lengths r.remaining then some r
      else skipEverythingFor turns
        (StreamReader.extractContiguousRange r.lengths r.remaining r.failed (2 ^ 32 - 1)).2

def skipEverything (r : StreamReader) : Option StreamReader := skipEverythingFor (r.remaining.length + 1) r

namespace ProtoParser

/-- The distances by which the loop of `GetVarInt` shifts; the counter is a `uint8_t`. -/
def varIntShiftsFrom : Nat → StreamReader → UInt8 → Nat → List Nat
  | 0, _, _, _ => []
  | turns + 1, r, byte, shift =>
      let (data, r) := StreamReader.extract r.lengths r.remaining r.failed 1
      let byte := data.headD byte
      shift :: if r.failed = false ∧ byte &&& 0x80 ≠ 0 then varIntShiftsFrom turns r byte ((shift + 7) % 256)
        else []

def varIntShifts (r : StreamReader) : List Nat := varIntShiftsFrom (r.remaining.length + 1) r 0 0

/-- All distances of a call of `GetField`. -/
def fieldShifts (r : StreamReader) : List Nat :=
  let key := getVarInt r
  let type := UInt32.ofNat key.1 &&& 7
  varIntShifts r ++ if type = 0 ∨ type = 2 then varIntShifts key.2 else []

/-- A turn of the caller: `GetField`, and `SkipEverything` of a length delimited field. -/
def takeField (r : StreamReader) : Option StreamReader := do
  let ((field, _), r) ← getField r
  match field with
  | .lengthDelimited length => (skipEverything (r.limited length)).map StreamReader.below
  | _ => some r

/-- The caller goes on while the parser is neither empty nor has failed. -/
def Continues (r : StreamReader) : Prop := StreamReader.empty r.lengths r.remaining = false ∧ r.failed = false

instance (r : StreamReader) : Decidable (Continues r) := inferInstanceAs (Decidable (_ ∧ _))

/-- The loop of the caller. -/
def takeFields : Nat → StreamReader → Option StreamReader
  | 0, _ => none
  | turns + 1, r => if Continues r then (takeField r).bind (takeFields turns) else some r

end ProtoParser

/-! ## The layout of bytes -/

/-- The byte is not the last one of its number. -/
def continues (byte : UInt8) : Bool := byte &&& 0x80 ≠ 0

/-- The size of the number that the bytes begin with. When its end is missing, one more than there are. -/
def varIntSize (text : List UInt8) : Nat := (text.takeWhile continues).length + 1

/-- The end of the number is missing. -/
def CutVarInt (text : List UInt8) : Prop := text.length < varIntSize text

def afterVarInt (text : List UInt8) : List UInt8 := text.drop (varIntSize text)

/-- Seven bits of every byte. -/
def sevenBits : List UInt8 → Nat
  | [] => 0
  | byte :: text => byte.toNat % 128 + 128 * sevenBits text

/-- The number that the bytes begin with, of 64 bits. -/
def varIntValue (text : List UInt8) : Nat := sevenBits (text.take (varIntSize text)) % 2 ^ 64

/-- The wire type is in the first byte of the key. -/
def wireType (text : List UInt8) : Nat := (text.headD 0).toNat % 8

/-- The payload of a field of this type ends before it is complete. -/
def PayloadTruncated (type : Nat) (payload : List UInt8) : Prop :=
  (type = 0 ∧ CutVarInt payload) ∨ (type = 1 ∧ payload.length < 8) ∨ (type = 5 ∧ payload.length < 4) ∨
    (type = 2 ∧ (CutVarInt payload ∨ (afterVarInt payload).length < varIntValue payload))

/-- The field that the bytes begin with is truncated. -/
def Truncated (text : List UInt8) : Prop :=
  CutVarInt text ∨ PayloadTruncated (wireType text) (afterVarInt text)

/-- What comes after a field that is complete. -/
def afterField (text : List UInt8) : List UInt8 :=
  let payload := afterVarInt text
  if wireType text = 0 then afterVarInt payload
  else if wireType text = 1 then payload.drop 8
  else if wireType text = 5 then payload.drop 4
  else (afterVarInt payload).drop (varIntValue payload)

/-- The parser can take the field that the bytes begin with: its numbers have at most ten bytes (nine
when the end is missing), its wire type is a known one, and its length has 32 bits, or is too large even
without the others. -/
def FieldFits (text : List UInt8) : Prop :=
  varIntSize text ≤ 10 ∧ (CutVarInt text ∨
    (wireType text = 0 ∧ varIntSize (afterVarInt text) ≤ 10) ∨ wireType text = 1 ∨ wireType text = 5 ∨
    (wireType text = 2 ∧ varIntSize (afterVarInt text) ≤ 10 ∧
      (CutVarInt (afterVarInt text) ∨ varIntValue (afterVarInt text) < 2 ^ 32 ∨
        (afterVarInt (afterVarInt text)).length < varIntValue (afterVarInt text) % 2 ^ 32)))

/-- Fields that the parser can take, of which the last one may be truncated. -/
inductive FieldsFit : List UInt8 → Prop
  | nil : FieldsFit []
  | last {text : List UInt8} (hne : text ≠ []) (hfits : FieldFits text) (htruncated : Truncated text) :
      FieldsFit text
  | more {text : List UInt8} (hne : text ≠ []) (hfits : FieldFits text) (hcomplete : ¬ Truncated text)
      (hrest : FieldsFit (afterField text)) : FieldsFit text

/-! ## Numbers -/

variable {byte : UInt8} {text : List UInt8}

theorem varIntSize_of_continues (h : continues byte = true) (text : List UInt8) :
    varIntSize (byte :: text) = varIntSize text + 1 := by
  rw [varIntSize, varIntSize, List.takeWhile_cons_of_pos h, List.length_cons]

theorem varIntSize_of_last (h : continues byte = false) (text : List UInt8) :
    varIntSize (byte :: text) = 1 := by
  rw [varIntSize, List.takeWhile_cons_of_neg (by simp [h]), List.length_nil]

theorem cutVarInt_cons : CutVarInt (byte :: text) ↔ continues byte = true ∧ CutVarInt text := by
  cases hbyte : continues byte with
  | true => simp [CutVarInt, varIntSize_of_continues hbyte]
  | false => simp [CutVarInt, varIntSize_of_last hbyte]

theorem cutVarInt_nil : CutVarInt [] := Nat.zero_lt_one

/-- The reader of a parser whose remaining bytes are `text`; the bytes after it are not for the parser. -/
def inner (text rest : List UInt8) : StreamReader := { lengths := [text.length], remaining := text ++ rest }

/-- The reader when it could not read all that it should. -/
def ended (rest : List UInt8) : StreamReader := { lengths := [0], remaining := rest, failed := true }

theorem extract_inner {text : List UInt8} {n : Nat} (h : n ≤ text.length) (rest : List UInt8) :
    StreamReader.extract (inner text rest).lengths (inner text rest).remaining (inner text rest).failed n =
      (text.take n, inner (text.drop n) rest) := by
  have hfits : n ≤ text.length + rest.length := by omega
  simp [StreamReader.extract, inner, h, hfits, List.take_append_of_le_length, List.drop_append_of_le_length]

theorem extract_short {text : List UInt8} {n : Nat} (h : text.length < n) (rest : List UInt8) :
    StreamReader.extract (inner text rest).lengths (inner text rest).remaining (inner text rest).failed n =
      (text, ended rest) := by
  simp [StreamReader.extract, inner, ended, Nat.min_eq_right (Nat.le_of_lt h), Nat.not_le.mpr h]

namespace ProtoParser

/-- A turn of `GetVarInt` takes a byte. -/
theorem getVarIntFrom_cons (turns : Nat) (next : UInt8) (text rest : List UInt8) (result : Nat) (byte : UInt8)
    (shift : Nat) :
    getVarIntFrom (turns + 1) (inner (next :: text) rest) result byte shift =
      if continues next then
        getVarIntFrom turns (inner text rest) ((result + next.toNat % 128 * 2 ^ shift) % 2 ^ 64) next (shift + 7)
      else ((result + next.toNat % 128 * 2 ^ shift) % 2 ^ 64, inner text rest) := by
  have hlow : (next &&& 0x7f).toNat = next.toNat % 128 := by
    rw [UInt8.toNat_and]
    exact Nat.and_two_pow_sub_one_eq_mod next.toNat 7
  rw [getVarIntFrom, @extract_inner (next :: text) 1 (by simp) rest]
  simp only [List.take_succ_cons, List.take_zero, List.drop_succ_cons, List.drop_zero, List.headD_cons, hlow, Nat.shiftLeft_eq, continues, decide_eq_true_eq]
  simp only [inner, true_and]

/-- A turn at the end of the bytes fails. -/
theorem getVarIntFrom_nil (turns : Nat) (rest : List UInt8) (result : Nat) (byte : UInt8) (shift : Nat) :
    (getVarIntFrom (turns + 1) (inner [] rest) result byte shift).2 = ended rest := by
  rw [getVarIntFrom, @extract_short [] 1 (by simp) rest]
  simp [ended]

theorem getVarIntFrom_cut (h : CutVarInt text) {turns : Nat} (hturns : text.length < turns)
    (rest : List UInt8) (result : Nat) (byte : UInt8) (shift : Nat) :
    (getVarIntFrom turns (inner text rest) result byte shift).2 = ended rest := by
  induction text generalizing turns result byte shift with
  | nil =>
      obtain ⟨turns, rfl⟩ : ∃ t, turns = t + 1 := ⟨turns - 1, by simp at hturns; omega⟩
      exact getVarIntFrom_nil turns rest result byte shift
  | cons next text ih =>
      obtain ⟨turns, rfl⟩ : ∃ t, turns = t + 1 := ⟨turns - 1, by omega⟩
      obtain ⟨hnext, hcut⟩ := cutVarInt_cons.mp h
      rw [getVarIntFrom_cons, if_pos hnext]
      exact ih hcut (by simpa using hturns) _ _ _

theorem getVarIntFrom_complete (h : ¬ CutVarInt text) {turns : Nat}
    (hturns : text.length < turns) (rest : List UInt8) (result : Nat) (byte : UInt8) (shift : Nat) :
    getVarIntFrom turns (inner text rest) result byte shift =
      ((result + sevenBits (text.take (varIntSize text)) * 2 ^ shift) % 2 ^ 64, inner (afterVarInt text) rest) := by
  induction text generalizing turns result byte shift with
  | nil => exact absurd cutVarInt_nil h
  | cons next text ih =>
      obtain ⟨turns, rfl⟩ : ∃ t, turns = t + 1 := ⟨turns - 1, by omega⟩
      rw [getVarIntFrom_cons, afterVarInt]
      cases hnext : continues next with
      | true =>
          rw [if_pos rfl, varIntSize_of_continues hnext,
            ih (fun hcut => h (cutVarInt_cons.mpr ⟨hnext, hcut⟩)) (by simpa using hturns)]
          refine Prod.ext ?_ rfl
          rw [List.take_succ_cons, sevenBits]
          -- the bits of this byte and those of the others
          have hsum : result + next.toNat % 128 * 2 ^ shift +
              sevenBits (text.take (varIntSize text)) * 2 ^ (shift + 7) =
              result + (next.toNat % 128 + 128 * sevenBits (text.take (varIntSize text))) * 2 ^ shift := by
            rw [Nat.pow_add]
            ring
          rw [← hsum, Nat.mod_add_mod]
      | false =>
          rw [if_neg (by simp), varIntSize_of_last hnext]
          simp [sevenBits]

/-- **A number is taken, or the parser fails.** -/
theorem getVarInt_inner (h : ¬ CutVarInt text) (rest : List UInt8) :
    getVarInt (inner text rest) = (varIntValue text, inner (afterVarInt text) rest) := by
  rw [getVarInt, getVarIntFrom_complete h (by simp [inner])]
  simp [varIntValue]

theorem getVarInt_cut (h : CutVarInt text) (rest : List UInt8) :
    (getVarInt (inner text rest)).2 = ended rest :=
  getVarIntFrom_cut h (by simp [inner]) rest 0 0 0

/-! ## Shifts -/

theorem varIntShiftsFrom_cons (turns : Nat) (next : UInt8) (text rest : List UInt8) (byte : UInt8) (shift : Nat) :
    varIntShiftsFrom (turns + 1) (inner (next :: text) rest) byte shift =
      shift :: if continues next then varIntShiftsFrom turns (inner text rest) next ((shift + 7) % 256) else [] := by
  rw [varIntShiftsFrom, @extract_inner (next :: text) 1 (by simp) rest]
  simp only [List.take_succ_cons, List.take_zero, List.drop_succ_cons, List.drop_zero, List.headD_cons, continues, decide_eq_true_eq]
  simp only [inner, true_and]

theorem varIntShiftsFrom_nil (turns : Nat) (rest : List UInt8) (byte : UInt8) (shift : Nat) :
    varIntShiftsFrom (turns + 1) (inner [] rest) byte shift = [shift] := by
  rw [varIntShiftsFrom, @extract_short [] 1 (by simp) rest]
  simp [ended]

/-- The eleventh turn shifts too far, and no turn before it does. -/
theorem varIntShiftsFrom_lt (text rest : List UInt8) {turns i : Nat} (hturns : text.length < turns) (hi : i ≤ 10)
    (byte : UInt8) :
    (∀ shift ∈ varIntShiftsFrom turns (inner text rest) byte (7 * i), shift < 64) ↔ varIntSize text + i ≤ 10 := by
  induction text generalizing turns i byte with
  | nil =>
      obtain ⟨turns, rfl⟩ : ∃ t, turns = t + 1 := ⟨turns - 1, by simp at hturns; omega⟩
      rw [varIntShiftsFrom_nil]
      simp [varIntSize]
      omega
  | cons next text ih =>
      obtain ⟨turns, rfl⟩ : ∃ t, turns = t + 1 := ⟨turns - 1, by omega⟩
      rw [varIntShiftsFrom_cons, List.forall_mem_cons]
      cases hnext : continues next with
      | true =>
          rw [if_pos rfl, varIntSize_of_continues hnext]
          rcases Nat.lt_or_ge i 10 with hlt | hge
          · have hmod : (7 * i + 7) % 256 = 7 * (i + 1) := by omega
            rw [hmod, ih (by simpa using hturns) (by omega)]
            omega
          · have : 1 ≤ varIntSize text := Nat.succ_pos _
            omega
      | false =>
          rw [if_neg (by simp), varIntSize_of_last hnext]
          simp
          omega

theorem varIntShifts_lt (text rest : List UInt8) :
    (∀ shift ∈ varIntShifts (inner text rest), shift < 64) ↔ varIntSize text ≤ 10 := by
  have h := @varIntShiftsFrom_lt text rest ((text ++ rest).length + 1) 0 (by simp) (by omega) 0
  rw [Nat.add_zero] at h
  exact h

/-- A reader that has failed is asked once. -/
theorem varIntShifts_ended (rest : List UInt8) : varIntShifts (ended rest) = [0] := by
  simp [varIntShifts, varIntShiftsFrom, ended, StreamReader.extract]

/-! ## Fields -/

/-- The wire type of a key is that of its first byte. -/
theorem type_of_varIntValue (h : ¬ CutVarInt text) :
    UInt32.ofNat (varIntValue text) &&& 7 = UInt32.ofNat (wireType text) := by
  cases text with
  | nil => exact absurd cutVarInt_nil h
  | cons byte text =>
      have hvalue : varIntValue (byte :: text) =
          (byte.toNat % 128 + 128 * sevenBits (text.take (varIntSize (byte :: text) - 1))) % 2 ^ 64 := rfl
      apply UInt32.toNat_inj.mp
      rw [UInt32.toNat_and, UInt32.toNat_ofNat', UInt32.toNat_ofNat', hvalue]
      have hand : ∀ n, n &&& (7 : UInt32).toNat = n % 8 := fun n => Nat.and_two_pow_sub_one_eq_mod n 3
      rw [hand, wireType, List.headD_cons]
      omega

theorem getField_inner (h : ¬ CutVarInt text) (rest : List UInt8) :
    getField (inner text rest) = getFieldOfType (UInt32.ofNat (wireType text))
      (UInt32.ofNat (varIntValue text) >>> 3) (inner (afterVarInt text) rest) := by
  rw [getField, getVarInt_inner h]
  simp only [type_of_varIntValue h]

theorem extract_ended (rest : List UInt8) (n : Nat) :
    StreamReader.extract (ended rest).lengths (ended rest).remaining (ended rest).failed n = ([], ended rest) := by
  simp [StreamReader.extract, ended]

theorem getVarInt_ended (rest : List UInt8) : (getVarInt (ended rest)).2 = ended rest := by
  rw [getVarInt, getVarIntFrom, extract_ended]
  simp [ended]

/-- A reader that has failed takes no more, and does not abort. -/
theorem getFieldOfType_ended (type fieldNumber : UInt32) (rest : List UInt8) :
    ∃ field, getFieldOfType type fieldNumber (ended rest) = some (field, ended rest) := by
  have hreport (ok : Bool) : (ended rest).reportResult ok = ended rest := rfl
  unfold getFieldOfType
  split_ifs with h0 h1 h2 h5 hfailed
  · exact ⟨_, by simp only [getVarInt_ended]; rfl⟩
  · exact ⟨_, by simp only [getFixed64, extract_ended]; rfl⟩
  · exact ⟨_, by simp only [getVarInt_ended, hreport]; rfl⟩
  · exact ⟨_, by simp only [getFixed32, extract_ended]; rfl⟩
  · exact ⟨_, rfl⟩
  · exact absurd rfl hfailed

/-- **A key without its end** makes the parser fail. -/
theorem getField_cut (h : CutVarInt text) (rest : List UInt8) :
    ∃ field, getField (inner text rest) = some (field, ended rest) := by
  unfold getField
  simp only [getVarInt_cut h]
  exact getFieldOfType_ended _ _ rest

/-! ## Skipping -/

/-- **`SkipEverything` ends**, at the end of the field or of what there is. -/
theorem skipEverything_eq {length n : Nat} {remaining : List UInt8} (hlength : length < 2 ^ 32)
    (hn : n ≤ remaining.length) (failed : Bool) :
    skipEverything { lengths := [length, n], remaining := remaining, failed := failed } =
      some { lengths := [length - min length n, n - min length n], remaining := remaining.drop (min length n),
             failed := failed } := by
  rw [skipEverything, skipEverythingFor]
  by_cases hempty : StreamReader.empty [length, n] remaining = true
  · have hzero : min length n = 0 := by
      simp only [StreamReader.empty, Bool.or_eq_true, beq_iff_eq, List.isEmpty_iff] at hempty
      rcases hempty with h | h | rfl
      · omega
      · omega
      · simp at hn
        omega
    rw [if_pos hempty, hzero]
    simp
  · have hne : length ≠ 0 ∧ n ≠ 0 ∧ remaining ≠ [] := by
      simpa [StreamReader.empty] using hempty
    rw [if_neg hempty]
    have hpart : min length (2 ^ 32 - 1) = length := by omega
    obtain ⟨turns, hturns⟩ : ∃ t, remaining.length = t + 1 :=
      ⟨remaining.length - 1, by have := List.length_pos_iff.mpr hne.2.2; omega⟩
    -- one range is all there is
    have hrange : (StreamReader.extractContiguousRange [length, n] remaining failed (2 ^ 32 - 1)).2 =
        { lengths := [length - min length n, n - min length n], remaining := remaining.drop (min length n)
          failed := failed } := by
      simp only [StreamReader.extractContiguousRange, hpart, List.length_take, Nat.min_comm n length]
      rw [Nat.min_eq_left (by omega)]
    rw [hrange, hturns, skipEverythingFor, if_pos]
    have hend : length - min length n = 0 ∨ n - min length n = 0 := by omega
    rcases hend with hend | hend <;> simp [StreamReader.empty, hend]

/-! ## The payload of a field -/

section

variable {text : List UInt8} (rest : List UInt8) (fieldNumber : UInt32)

theorem getFieldOfType_number_inner (h : ¬ CutVarInt text) :
    getFieldOfType (UInt32.ofNat 0) fieldNumber (inner text rest) =
      some ((.uint64 (UInt64.ofNat (varIntValue text)), fieldNumber), inner (afterVarInt text) rest) := by
  rw [getFieldOfType, if_pos (by decide), getVarInt_inner h]

theorem getFieldOfType_number_cut (h : CutVarInt text) :
    ∃ field, getFieldOfType (UInt32.ofNat 0) fieldNumber (inner text rest) = some (field, ended rest) := by
  rw [getFieldOfType, if_pos (by decide)]
  simp only [getVarInt_cut h]
  exact ⟨_, rfl⟩

theorem getFieldOfType_fixed64_inner (h : 8 ≤ text.length) :
    ∃ value, getFieldOfType (UInt32.ofNat 1) fieldNumber (inner text rest) =
      some ((.uint64 value, fieldNumber), inner (text.drop 8) rest) := by
  refine ⟨UInt64.ofNat (ofLittleEndian (text.take 8)), ?_⟩
  rw [getFieldOfType, if_neg (by decide), if_pos (by decide), getFixed64, extract_inner h rest]

theorem getFieldOfType_fixed64_short (h : text.length < 8) :
    ∃ field, getFieldOfType (UInt32.ofNat 1) fieldNumber (inner text rest) = some (field, ended rest) := by
  rw [getFieldOfType, if_neg (by decide), if_pos (by decide), getFixed64, extract_short h rest]
  exact ⟨_, rfl⟩

theorem getFieldOfType_fixed32_inner (h : 4 ≤ text.length) :
    ∃ value, getFieldOfType (UInt32.ofNat 5) fieldNumber (inner text rest) =
      some ((.uint32 value, fieldNumber), inner (text.drop 4) rest) := by
  refine ⟨UInt32.ofNat (ofLittleEndian (text.take 4)), ?_⟩
  rw [getFieldOfType, if_neg (by decide), if_neg (by decide), if_neg (by decide), if_pos (by decide), getFixed32, extract_inner h rest]

theorem getFieldOfType_fixed32_short (h : text.length < 4) :
    ∃ field, getFieldOfType (UInt32.ofNat 5) fieldNumber (inner text rest) = some (field, ended rest) := by
  rw [getFieldOfType, if_neg (by decide), if_neg (by decide), if_neg (by decide), if_pos (by decide), getFixed32, extract_short h rest]
  exact ⟨_, rfl⟩

theorem available_inner (hsmall : text.length < 2 ^ 32) (hrest : rest.length % 2 ^ 32 = 0) :
    StreamReader.available (inner text rest).lengths (inner text rest).remaining = text.length := by
  simp only [inner, StreamReader.available, List.length_append]
  omega

/-- The length of a field is reported when more is announced than there is; of the announced length, only
32 bits are looked at. -/
theorem getFieldOfType_lengthDelimited_inner (h : ¬ CutVarInt text) (hsmall : text.length < 2 ^ 32)
    (hrest : rest.length % 2 ^ 32 = 0) :
    getFieldOfType (UInt32.ofNat 2) fieldNumber (inner text rest) =
      some ((.lengthDelimited (varIntValue text % 2 ^ 32), fieldNumber),
        (inner (afterVarInt text) rest).reportResult
          (decide (varIntValue text % 2 ^ 32 ≤ (afterVarInt text).length))) := by
  have hafter : (afterVarInt text).length < 2 ^ 32 := by
    rw [afterVarInt, List.length_drop]
    omega
  rw [getFieldOfType, if_neg (by decide), if_neg (by decide), if_pos (by decide), getVarInt_inner h]
  simp only [available_inner rest hafter hrest]

theorem getFieldOfType_lengthDelimited_cut (h : CutVarInt text) :
    ∃ field, getFieldOfType (UInt32.ofNat 2) fieldNumber (inner text rest) = some (field, ended rest) := by
  rw [getFieldOfType, if_neg (by decide), if_neg (by decide), if_pos (by decide)]
  simp only [getVarInt_cut h]
  exact ⟨_, rfl⟩

/-- **An unknown wire type aborts the program.** -/
theorem getFieldOfType_unknown {type : Nat} (htype : type = 3 ∨ type = 4 ∨ type = 6 ∨ type = 7) :
    getFieldOfType (UInt32.ofNat type) fieldNumber (inner text rest) = none := by
  rcases htype with rfl | rfl | rfl | rfl <;>
    rw [getFieldOfType, if_neg (by decide), if_neg (by decide), if_neg (by decide), if_neg (by decide)] <;>
    rfl

end

variable {r : StreamReader}

/-- What is done with a field after it could not be read. -/
theorem takeField_of_failed {r' : StreamReader} {field : Field × UInt32} (h : getField r = some (field, r'))
    (hfailed : r'.failed = true) (hr : ∃ n, r'.lengths = [n] ∧ n ≤ r'.remaining.length) :
    ∃ r'', takeField r = some r'' ∧ r''.failed = true := by
  obtain ⟨lengths, remaining, failed⟩ := r'
  obtain ⟨n, rfl, hn⟩ := hr
  obtain ⟨field, fieldNumber⟩ := field
  rw [takeField, h]
  cases field with
  | uint32 value => exact ⟨_, rfl, hfailed⟩
  | uint64 value => exact ⟨_, rfl, hfailed⟩
  | lengthDelimited length =>
      simp only [Option.bind_eq_bind, Option.bind_some, StreamReader.limited]
      rw [skipEverything_eq (Nat.mod_lt _ (by decide)) hn]
      exact ⟨_, rfl, hfailed⟩

/-! ## A field that the parser can take -/

section

variable {text rest : List UInt8}

theorem length_afterVarInt_lt (hne : text ≠ []) : (afterVarInt text).length < text.length := by
  have hpos := List.length_pos_iff.mpr hne
  have hsize : 1 ≤ varIntSize text := Nat.succ_pos _
  rw [afterVarInt, List.length_drop]
  omega

theorem length_afterField_lt (hne : text ≠ []) : (afterField text).length < text.length := by
  have hlt := length_afterVarInt_lt hne
  have hle : (afterVarInt (afterVarInt text)).length ≤ (afterVarInt text).length := by
    rw [afterVarInt, List.length_drop]
    omega
  simp only [afterField]
  split_ifs
  · omega
  · rw [List.length_drop]
    omega
  · rw [List.length_drop]
    omega
  · rw [List.length_drop]
    omega

/-- **A truncated field makes the parser fail.** -/
theorem getField_truncated (hfits : FieldFits text) (htruncated : Truncated text) (hsmall : text.length < 2 ^ 32)
    (hrest : rest.length % 2 ^ 32 = 0) :
    ∃ field r, getField (inner text rest) = some (field, r) ∧ r.failed = true ∧
      ∃ n, r.lengths = [n] ∧ n ≤ r.remaining.length := by
  have hended {field : Field × UInt32} (h : getField (inner text rest) = some (field, ended rest)) :
      ∃ field r, getField (inner text rest) = some (field, r) ∧ r.failed = true ∧
        ∃ n, r.lengths = [n] ∧ n ≤ r.remaining.length :=
    ⟨field, ended rest, h, rfl, 0, rfl, Nat.zero_le _⟩
  by_cases hkey : CutVarInt text
  · obtain ⟨field, h⟩ := getField_cut hkey rest
    exact hended h
  have hfield := getField_inner hkey rest
  rcases htruncated with hcut | ⟨htype, hcut⟩ | ⟨htype, hshort⟩ | ⟨htype, hshort⟩ | ⟨htype, hlength⟩
  · exact absurd hcut hkey
  · rw [htype] at hfield
    obtain ⟨field, h⟩ := getFieldOfType_number_cut rest (UInt32.ofNat (varIntValue text) >>> 3) hcut
    exact hended (hfield.trans h)
  · rw [htype] at hfield
    obtain ⟨field, h⟩ := getFieldOfType_fixed64_short rest (UInt32.ofNat (varIntValue text) >>> 3) hshort
    exact hended (hfield.trans h)
  · rw [htype] at hfield
    obtain ⟨field, h⟩ := getFieldOfType_fixed32_short rest (UInt32.ofNat (varIntValue text) >>> 3) hshort
    exact hended (hfield.trans h)
  · rw [htype] at hfield
    by_cases hcut : CutVarInt (afterVarInt text)
    · obtain ⟨field, h⟩ := getFieldOfType_lengthDelimited_cut rest
        (UInt32.ofNat (varIntValue text) >>> 3) hcut
      exact hended (hfield.trans h)
    · have hafter : (afterVarInt text).length < 2 ^ 32 := by
        rw [afterVarInt, List.length_drop]
        omega
      rw [getFieldOfType_lengthDelimited_inner rest _ hcut hafter hrest] at hfield
      -- the announced length is too large as it is looked at
      have htoo : (afterVarInt (afterVarInt text)).length < varIntValue (afterVarInt text) % 2 ^ 32 := by
        have hlength := hlength.resolve_left hcut
        rcases hfits.2 with h | ⟨h, -⟩ | h | h | ⟨-, -, h | h | h⟩
        · exact absurd h hkey
        · omega
        · omega
        · omega
        · exact absurd h hcut
        · rw [Nat.mod_eq_of_lt h]
          exact hlength
        · exact h
      refine ⟨_, _, hfield, ?_, (afterVarInt (afterVarInt text)).length, rfl, ?_⟩
      · rw [decide_eq_false (Nat.not_le.mpr htoo)]
        rfl
      · simp [StreamReader.reportResult, inner]

/-- **A complete field is taken**, with its payload. -/
theorem takeField_complete (hfits : FieldFits text) (hcomplete : ¬ Truncated text) (hsmall : text.length < 2 ^ 32)
    (hrest : rest.length % 2 ^ 32 = 0) :
    takeField (inner text rest) = some (inner (afterField text) rest) ∧ (getField (inner text rest)).isSome := by
  have hkey : ¬ CutVarInt text := fun hcut => hcomplete (.inl hcut)
  have hpayload : ¬ PayloadTruncated (wireType text) (afterVarInt text) := fun hcut => hcomplete (.inr hcut)
  have hfield := getField_inner hkey rest
  rcases hfits.2 with h | ⟨htype, -⟩ | htype | htype | ⟨htype, -, hvalue⟩
  · exact absurd h hkey
  · have hcut : ¬ CutVarInt (afterVarInt text) := fun hcut => hpayload (.inl ⟨htype, hcut⟩)
    rw [htype, getFieldOfType_number_inner rest _ hcut] at hfield
    rw [takeField, hfield, afterField, if_pos htype]
    exact ⟨rfl, rfl⟩
  · have hlong : ¬ (afterVarInt text).length < 8 := fun hshort => hpayload (.inr (.inl ⟨htype, hshort⟩))
    obtain ⟨value, h⟩ := getFieldOfType_fixed64_inner rest (UInt32.ofNat (varIntValue text) >>> 3)
      (Nat.not_lt.mp hlong)
    rw [htype, h] at hfield
    rw [takeField, hfield, afterField, if_neg (by omega), if_pos htype]
    exact ⟨rfl, rfl⟩
  · have hlong : ¬ (afterVarInt text).length < 4 := fun hshort => hpayload (.inr (.inr (.inl ⟨htype, hshort⟩)))
    obtain ⟨value, h⟩ := getFieldOfType_fixed32_inner rest (UInt32.ofNat (varIntValue text) >>> 3)
      (Nat.not_lt.mp hlong)
    rw [htype, h] at hfield
    rw [takeField, hfield, afterField, if_neg (by omega), if_neg (by omega), if_pos htype]
    exact ⟨rfl, rfl⟩
  · have hnot : ¬ (CutVarInt (afterVarInt text) ∨
        (afterVarInt (afterVarInt text)).length < varIntValue (afterVarInt text)) :=
      fun hcut => hpayload (.inr (.inr (.inr ⟨htype, hcut⟩)))
    obtain ⟨hcut, hlong⟩ := not_or.mp hnot
    have hafter : (afterVarInt text).length < 2 ^ 32 := by
      rw [afterVarInt, List.length_drop]
      omega
    have hlt : varIntValue (afterVarInt text) < 2 ^ 32 := by
      have : (afterVarInt (afterVarInt text)).length ≤ (afterVarInt text).length := by
        rw [afterVarInt, List.length_drop]
        omega
      omega
    rw [htype, getFieldOfType_lengthDelimited_inner rest _ hcut hafter hrest, Nat.mod_eq_of_lt hlt,
      decide_eq_true (Nat.not_lt.mp hlong)] at hfield
    have hskip := @skipEverything_eq _ (afterVarInt (afterVarInt text)).length
      (afterVarInt (afterVarInt text) ++ rest) hlt (by simp) false
    rw [Nat.min_eq_left (Nat.not_lt.mp hlong), List.drop_append_of_le_length (Nat.not_lt.mp hlong)] at hskip
    rw [takeField, hfield, afterField, if_neg (by omega), if_neg (by omega), if_neg (by omega)]
    refine ⟨?_, rfl⟩
    simp only [Option.bind_eq_bind, Option.bind_some, StreamReader.limited, Nat.mod_eq_of_lt hlt]
    refine (congrArg (Option.map StreamReader.below) hskip).trans ?_
    simp [StreamReader.below, inner]

theorem forall_fieldShifts_of_cut (h : CutVarInt text) :
    (∀ shift ∈ fieldShifts (inner text rest), shift < 64) ↔ varIntSize text ≤ 10 := by
  rw [← varIntShifts_lt text rest, fieldShifts]
  simp only [getVarInt_cut h, varIntShifts_ended]
  split_ifs
  · rw [List.forall_mem_append]
    simp
  · simp

theorem forall_fieldShifts (h : ¬ CutVarInt text) :
    (∀ shift ∈ fieldShifts (inner text rest), shift < 64) ↔ varIntSize text ≤ 10 ∧
      (wireType text = 0 ∨ wireType text = 2 → varIntSize (afterVarInt text) ≤ 10) := by
  have hlt : wireType text < 8 := Nat.mod_lt _ (by decide)
  have htype : (UInt32.ofNat (wireType text) = 0 ∨ UInt32.ofNat (wireType text) = 2) ↔
      wireType text = 0 ∨ wireType text = 2 := by
    generalize wireType text = type at hlt ⊢
    interval_cases type <;> decide
  rw [← varIntShifts_lt text rest, ← varIntShifts_lt (afterVarInt text) rest, fieldShifts]
  simp only [getVarInt_inner h, type_of_varIntValue h, htype]
  split_ifs with hnumber
  · rw [List.forall_mem_append]
    simp [hnumber]
  · simp [hnumber]

end

/-! ## Every run -/

/-- A call of `GetField` does what it should: it does not abort, shifts no number too far, and reports a
field that is truncated. -/
structure CallSound (r : StreamReader) : Prop where
  noAbort : (getField r).isSome
  shifts : ∀ shift ∈ fieldShifts r, shift < 64
  reports : Truncated (r.remaining.take (StreamReader.available r.lengths r.remaining)) →
    ∀ field r', getField r = some (field, r') → r'.failed = true

section

variable {text rest : List UInt8} (hsmall : text.length < 2 ^ 32) (hrest : rest.length % 2 ^ 32 = 0)

include hsmall hrest

theorem view_inner :
    (inner text rest).remaining.take (StreamReader.available (inner text rest).lengths (inner text rest).remaining) =
      text := by
  rw [available_inner rest hsmall hrest]
  simp [inner]

/-- **The calls that do what they should are those for a field that the parser can take.** -/
theorem callSound_iff : CallSound (inner text rest) ↔ FieldFits text := by
  constructor
  · rintro ⟨hsome, hshifts, hreports⟩
    rw [view_inner hsmall hrest] at hreports
    by_cases hkey : CutVarInt text
    · exact ⟨(forall_fieldShifts_of_cut hkey).mp hshifts, .inl hkey⟩
    obtain ⟨hsize, hnumber⟩ := (forall_fieldShifts hkey).mp hshifts
    refine ⟨hsize, .inr ?_⟩
    have hfield := getField_inner hkey rest
    have hlt : wireType text < 8 := Nat.mod_lt _ (by decide)
    have htypes : wireType text = 0 ∨ wireType text = 1 ∨ wireType text = 5 ∨ wireType text = 2 ∨
        (wireType text = 3 ∨ wireType text = 4 ∨ wireType text = 6 ∨ wireType text = 7) := by omega
    rcases htypes with htype | htype | htype | htype | htype
    · exact .inl ⟨htype, hnumber (.inl htype)⟩
    · exact .inr (.inl htype)
    · exact .inr (.inr (.inl htype))
    · refine .inr (.inr (.inr ⟨htype, hnumber (.inr htype), ?_⟩))
      by_cases hcut : CutVarInt (afterVarInt text)
      · exact .inl hcut
      refine .inr ?_
      by_contra hnot
      obtain ⟨hlarge, hlow⟩ := not_or.mp hnot
      have hafter : (afterVarInt text).length < 2 ^ 32 := by
        rw [afterVarInt, List.length_drop]
        omega
      have hlength : (afterVarInt (afterVarInt text)).length ≤ (afterVarInt text).length := by
        rw [afterVarInt, List.length_drop]
        omega
      -- the field is truncated, but what is looked at of its length is not too large
      have htruncated : Truncated text := .inr (.inr (.inr (.inr ⟨htype, .inr (by omega)⟩)))
      rw [htype, getFieldOfType_lengthDelimited_inner rest _ hcut hafter hrest,
        decide_eq_true (Nat.not_lt.mp hlow)] at hfield
      have hfailed := hreports htruncated _ _ hfield
      cases hfailed
    · rw [hfield, getFieldOfType_unknown rest _ htype] at hsome
      cases hsome
  · intro hfits
    have hshifts : ∀ shift ∈ fieldShifts (inner text rest), shift < 64 := by
      by_cases hkey : CutVarInt text
      · exact (forall_fieldShifts_of_cut hkey).mpr hfits.1
      · refine (forall_fieldShifts hkey).mpr ⟨hfits.1, ?_⟩
        intro htype
        rcases hfits.2 with h | ⟨-, h⟩ | h | h | ⟨-, h, -⟩
        · exact absurd h hkey
        · exact h
        · omega
        · omega
        · exact h
    by_cases htruncated : Truncated text
    · obtain ⟨field, r, hfield, hfailed, -⟩ := getField_truncated hfits htruncated hsmall hrest
      refine ⟨by rw [hfield]; rfl, hshifts, ?_⟩
      intro _ field' r' hfield'
      rw [hfield] at hfield'
      cases hfield'
      exact hfailed
    · refine ⟨(takeField_complete hfits htruncated hsmall hrest).2, hshifts, ?_⟩
      rw [view_inner hsmall hrest]
      exact fun h => absurd h htruncated

end

/-- A turn of the caller. -/
def Turn (r r' : StreamReader) : Prop := Continues r ∧ takeField r = some r'

/-- From this state on, the caller comes to an end and all calls do what they should. -/
structure RobustFrom (r : StreamReader) : Prop where
  terminates : ∃ turns r', takeFields turns r = some r'
  calls : ∀ r', Relation.ReflTransGen Turn r r' → Continues r' → CallSound r'

/-- The parser of the bytes is robust. -/
def Robust (bytes : List UInt8) : Prop := RobustFrom (parser { lengths := [], remaining := bytes })

/-- A parser is given the number of its bytes in 32 bits. -/
def received (bytes : List UInt8) : List UInt8 := bytes.take (bytes.length % 2 ^ 32)

theorem robustFrom_of_not_continues (h : ¬ Continues r) : RobustFrom r := by
  refine ⟨⟨1, r, by rw [takeFields, if_neg h]⟩, ?_⟩
  intro r' hreach hr'
  rcases Relation.ReflTransGen.cases_head hreach with rfl | ⟨m, ⟨hr, -⟩, -⟩
  · exact absurd hr' h
  · exact absurd hr h

theorem robustFrom_of_turn {m : StreamReader} (hr : Continues r) (hcall : CallSound r) (hm : takeField r = some m)
    (hrest : RobustFrom m) : RobustFrom r := by
  obtain ⟨⟨turns, r', hturns⟩, hcalls⟩ := hrest
  refine ⟨⟨turns + 1, r', ?_⟩, ?_⟩
  · rw [takeFields, if_pos hr, hm, Option.bind_some]
    exact hturns
  · intro r'' hreach hr''
    rcases Relation.ReflTransGen.cases_head hreach with rfl | ⟨m', ⟨-, hm'⟩, hreach'⟩
    · exact hcall
    · cases hm.symm.trans hm'
      exact hcalls r'' hreach' hr''

variable {rest : List UInt8}

theorem continues_inner (hne : text ≠ []) : Continues (inner text rest) := by
  refine ⟨?_, rfl⟩
  simp [inner, StreamReader.empty, hne]

theorem not_continues_inner (rest : List UInt8) : ¬ Continues (inner [] rest) := by
  rintro ⟨hempty, -⟩
  simp [inner, StreamReader.empty] at hempty

theorem robustFrom_of_fieldsFit (h : FieldsFit text) (hsmall : text.length < 2 ^ 32)
    (hrest : rest.length % 2 ^ 32 = 0) : RobustFrom (inner text rest) := by
  induction h with
  | nil => exact robustFrom_of_not_continues (not_continues_inner rest)
  | last hne hfits htruncated =>
      obtain ⟨field, r, hfield, hfailed, hr⟩ := getField_truncated hfits htruncated hsmall hrest
      obtain ⟨r', htake, hfailed'⟩ := takeField_of_failed hfield hfailed hr
      refine robustFrom_of_turn (continues_inner hne) ((callSound_iff hsmall hrest).mpr hfits) htake
        (robustFrom_of_not_continues ?_)
      rintro ⟨-, hok⟩
      rw [hfailed'] at hok
      cases hok
  | more hne hfits hcomplete _ ih =>
      have hlt := length_afterField_lt hne
      exact robustFrom_of_turn (continues_inner hne) ((callSound_iff hsmall hrest).mpr hfits)
        (takeField_complete hfits hcomplete hsmall hrest).1 (ih (by omega))

theorem fieldsFit_of_calls (n : Nat) (hn : text.length ≤ n) (hsmall : text.length < 2 ^ 32)
    (hrest : rest.length % 2 ^ 32 = 0)
    (h : ∀ r', Relation.ReflTransGen Turn (inner text rest) r' → Continues r' → CallSound r') : FieldsFit text := by
  induction n generalizing text with
  | zero =>
      rw [List.length_eq_zero_iff.mp (Nat.le_zero.mp hn)]
      exact .nil
  | succ n ih =>
      by_cases hne : text = []
      · rw [hne]
        exact .nil
      have hfits := (callSound_iff hsmall hrest).mp (h _ .refl (continues_inner hne))
      by_cases htruncated : Truncated text
      · exact .last hne hfits htruncated
      · have hlt := length_afterField_lt hne
        have hturn : Turn (inner text rest) (inner (afterField text) rest) :=
          ⟨continues_inner hne, (takeField_complete hfits htruncated hsmall hrest).1⟩
        exact .more hne hfits htruncated
          (ih (by omega) (by omega) (fun r' hreach => h r' (Relation.ReflTransGen.head hturn hreach)))

/-- **The parser is robust on exactly the bytes whose fields it can take.** -/
theorem robust_iff (bytes : List UInt8) : Robust bytes ↔ FieldsFit (received bytes) := by
  have hlt : bytes.length % 2 ^ 32 < 2 ^ 32 := Nat.mod_lt _ (by decide)
  have hle : bytes.length % 2 ^ 32 ≤ bytes.length := Nat.mod_le _ _
  have hlength : (received bytes).length = bytes.length % 2 ^ 32 := by
    rw [received, List.length_take]
    omega
  have hstart : parser { lengths := [], remaining := bytes } =
      inner (received bytes) (bytes.drop (bytes.length % 2 ^ 32)) := by
    rw [inner, hlength, received, List.take_append_drop]
    rfl
  have hsmall : (received bytes).length < 2 ^ 32 := by omega
  have hrest : (bytes.drop (bytes.length % 2 ^ 32)).length % 2 ^ 32 = 0 := by
    rw [List.length_drop]
    omega
  rw [Robust, hstart]
  constructor
  · intro h
    exact fieldsFit_of_calls _ (le_refl _) hsmall hrest h.calls
  · intro h
    exact robustFrom_of_fieldsFit h hsmall hrest

/-- **Three bad inputs**: a field of an unknown wire type aborts, ten bytes that all announce another one
shift by seventy, and a length of 2^32 + 1 is taken for a length of one, with no failure reported. -/
theorem not_robust_bytes :
    getField (parser { lengths := [], remaining := [0x03] }) = none ∧ ¬ Robust [0x03] ∧
      70 ∈ fieldShifts (parser { lengths := [], remaining := List.replicate 10 0x80 }) ∧
      ¬ Robust (List.replicate 10 0x80) ∧
      takeFields 2 (parser { lengths := [], remaining := [0x0a, 0x81, 0x80, 0x80, 0x80, 0x10, 0x00] }) =
        some { lengths := [0], remaining := [], failed := false } ∧
      ¬ Robust [0x0a, 0x81, 0x80, 0x80, 0x80, 0x10, 0x00] := by
  refine ⟨by decide, ?_, by decide, ?_, by decide, ?_⟩
  · intro h
    have hcall := (h.calls _ .refl (by decide)).noAbort
    revert hcall
    decide
  · intro h
    have hcall := (h.calls _ .refl (by decide)).shifts 70 (by decide)
    revert hcall
    decide
  · intro h
    have hcall := (h.calls _ .refl (by decide)).reports ?_ _ _ rfl
    · revert hcall
      decide
    · refine .inr (.inr (.inr (.inr ⟨by decide, .inr ?_⟩)))
      decide

end ProtoParser

end EmbeddedInfra.Proto
