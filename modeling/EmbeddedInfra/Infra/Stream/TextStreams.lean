import Mathlib.Tactic

set_option autoImplicit false

/-! # Integers in text streams

`infra::TextOutputStream` writes integers of 64 bits digit by digit, the first one first: a mask grows to the
power of the radix that belongs to it. `infra::TextInputStream` reads them back.
-/

namespace EmbeddedInfra.TextStreams

/-! ## Writing -/

inductive Radix
  | dec
  | bin
  | hex
deriving DecidableEq, Repr

/-- A `TextOutputStream`, with the text that has been written. -/
structure TextOutputStream where
  text : List UInt8 := []
  radix : Radix := Radix.dec
  width : Nat := 0
  padding : UInt8 := ' '.toUInt8
deriving DecidableEq, Repr

/-- `while (v / mask >= radix)`: the mask, and the number of digits. A number of 64 bits has no more than 64. -/
def growMask (radix v : UInt64) : Nat → UInt64 → Nat → UInt64 × Nat
  | 0, mask, nofDigits => (mask, nofDigits)
  | turns + 1, mask, nofDigits =>
      if v / mask ≥ radix then growMask radix v turns (mask * radix) (nofDigits + 1) else (mask, nofDigits)

/-- `while (mask != 0)` -/
def outputDigits (digit : UInt64 → UInt8) (radix v : UInt64) : Nat → UInt64 → List UInt8
  | 0, _ => []
  | turns + 1, mask =>
      if mask = 0 then [] else digit (v / mask % radix) :: outputDigits digit radix v turns (mask / radix)

namespace TextOutputStream

def insert (s : TextOutputStream) (data : List UInt8) : TextOutputStream := { s with text := s.text ++ data }

def outputOptionalPadding (s : TextOutputStream) (size : Nat) : TextOutputStream :=
  s.insert (List.replicate (s.width - size) s.padding)

/-- What `OutputAsDecimal`, `OutputAsBinary` and `OutputAsHexadecimal` have in common. -/
def output (digit : UInt64 → UInt8) (radix : UInt64) (s : TextOutputStream) (v : UInt64) (negative : Bool) :
    TextOutputStream :=
  let grown := growMask radix v 64 1 (if negative then 2 else 1)
  let s := s.outputOptionalPadding grown.2
  let s := if negative then s.insert ['-'.toUInt8] else s
  s.insert (outputDigits digit radix v 65 grown.1)

/-- `'0' + digit` -/
def decimalDigit (digit : UInt64) : UInt8 := (digit + 0x30).toUInt8

/-- `hexChars[digit]` -/
def hexDigit (digit : UInt64) : UInt8 :=
  ("0123456789abcdef".toList.map Char.toUInt8).getD digit.toNat 0

def outputAsDecimal : TextOutputStream → UInt64 → Bool → TextOutputStream := output decimalDigit 10

def outputAsBinary : TextOutputStream → UInt64 → Bool → TextOutputStream := output decimalDigit 2

def outputAsHexadecimal : TextOutputStream → UInt64 → Bool → TextOutputStream := output hexDigit 16

/-- `operator<<(uint64_t)` -/
def writeUInt64 (s : TextOutputStream) (v : UInt64) : TextOutputStream :=
  match s.radix with
  | Radix.dec => s.outputAsDecimal v false
  | Radix.bin => s.outputAsBinary v false
  | Radix.hex => s.outputAsHexadecimal v false

/-- `operator<<(int64_t)`. The negation of the lowest number wraps around, to that number. -/
def writeInt64 (s : TextOutputStream) (v : Int64) : TextOutputStream :=
  let negative := decide (v < 0)
  let v := if negative then -v else v
  match s.radix with
  | Radix.dec => s.outputAsDecimal v.toUInt64 negative
  | Radix.bin => s.outputAsBinary v.toUInt64 negative
  | Radix.hex => s.outputAsHexadecimal v.toUInt64 negative

end TextOutputStream

open TextOutputStream

/-! ## Reading -/

/-- A `TextInputStream`, with what its reader has not read yet. `failed` is the state of the error policy. -/
structure TextInputStream where
  remaining : List UInt8
  failed : Bool := false
  isDecimal : Bool := true
  width : Option Nat := none
deriving DecidableEq, Repr

/-- `'0'` to `'9'` -/
def decimalValue (c : UInt8) : Option UInt64 :=
  if '0'.toUInt8 ≤ c ∧ c ≤ '9'.toUInt8 then some (c - '0'.toUInt8).toUInt64 else none

/-- The digits of hexadecimal numbers -/
def hexValue (c : UInt8) : Option UInt64 :=
  if '0'.toUInt8 ≤ c ∧ c ≤ '9'.toUInt8 then some (c - '0'.toUInt8).toUInt64
  else if 'a'.toUInt8 ≤ c ∧ c ≤ 'f'.toUInt8 then some ((c - 'a'.toUInt8).toUInt64 + 10)
  else if 'A'.toUInt8 ≤ c ∧ c ≤ 'F'.toUInt8 then some ((c - 'A'.toUInt8).toUInt64 + 10)
  else none

/-- The loop over the digits, `i` of which have been read: the value, what is not read, and whether a failure was
reported. At the end of the text there is nothing to peek at. -/
def readDigits (value : UInt8 → Option UInt64) (shift : UInt64 → UInt64) (width : Option Nat) :
    Nat → UInt64 → List UInt8 → UInt64 × List UInt8 × Bool
  | i, v, [] => (v, [], decide (i = 0))
  | i, v, c :: rest =>
      if some i ≠ width ∨ i = 0 then
        (value c).elim (v, c :: rest, decide (i = 0)) fun digit =>
          readDigits value shift width (i + 1) (shift v + digit) rest
      else (v, c :: rest, false)

namespace TextInputStream

def skipSpaces (s : TextInputStream) : TextInputStream :=
  let remaining := s.remaining.dropWhile (· = ' '.toUInt8)
  { s with remaining := remaining, failed := s.failed || remaining.isEmpty }

/-- What `ReadAsDecimal(uint64_t&)` and `ReadAsHex(uint64_t&)` have in common. -/
def readUnsigned (value : UInt8 → Option UInt64) (shift : UInt64 → UInt64) (s : TextInputStream) :
    UInt64 × TextInputStream :=
  let s := s.skipSpaces
  let read := readDigits value shift s.width 0 0 s.remaining
  (read.1, { s with remaining := read.2.1, failed := s.failed || read.2.2 })

def readAsDecimal : TextInputStream → UInt64 × TextInputStream := readUnsigned decimalValue (· * 10)

def readAsHex : TextInputStream → UInt64 × TextInputStream := readUnsigned hexValue (· <<< 4)

/-- What `ReadAsDecimal(int64_t&)` and `ReadAsHex(int64_t&)` have in common: the sign, and `v *= vp`, which is a
product of unsigned numbers. -/
def readSigned (readUnsigned : TextInputStream → UInt64 × TextInputStream) (s : TextInputStream) :
    Int64 × TextInputStream :=
  let s := s.skipSpaces
  let negative := s.remaining.head? = some '-'.toUInt8
  let v : Int64 := if negative then -1 else 1
  let s := if negative then { s with remaining := s.remaining.tail } else s
  let read := readUnsigned s
  ((v.toUInt64 * read.1).toInt64, read.2)

/-- `Read(uint64_t&)` -/
def readUInt64 (s : TextInputStream) : UInt64 × TextInputStream := if s.isDecimal then s.readAsDecimal else s.readAsHex

/-- `Read(int64_t&)` -/
def readInt64 (s : TextInputStream) : Int64 × TextInputStream :=
  if s.isDecimal then s.readSigned readAsDecimal else s.readSigned readAsHex

end TextInputStream

open TextInputStream

/-! ## Canonical texts -/

/-- The text of an integer: a minus sign if it is negative, and its digits without leading zeros, in lower case. -/
def canonical (radix : Nat) (v : Int) : List UInt8 :=
  (if v < 0 then ['-'.toUInt8] else []) ++ (Nat.toDigits radix v.natAbs).map Char.toUInt8

/-- The digits of `n` from the one that belongs to the `k`th power of the radix on. -/
def digitsFrom (radix n : Nat) : Nat → List Nat
  | 0 => [n % radix]
  | k + 1 => n / radix ^ (k + 1) % radix :: digitsFrom radix n k

section Digits

variable {radix n k : Nat}

theorem digitsFrom_lt (hradix : 0 < radix) : ∀ d ∈ digitsFrom radix n k, d < radix := by
  induction k with
  | zero =>
      intro d hd
      rw [List.mem_singleton.mp hd]
      exact Nat.mod_lt _ hradix
  | succ k ih =>
      intro d hd
      rcases List.mem_cons.mp hd with rfl | hd
      · exact Nat.mod_lt _ hradix
      · exact ih d hd

/-- The last digit stands apart. -/
theorem digitsFrom_succ : digitsFrom radix n (k + 1) = digitsFrom radix (n / radix) k ++ [n % radix] := by
  induction k with
  | zero => simp [digitsFrom]
  | succ k ih =>
      calc digitsFrom radix n (k + 2) = n / radix ^ (k + 2) % radix :: digitsFrom radix n (k + 1) := rfl
        _ = n / radix / radix ^ (k + 1) % radix :: (digitsFrom radix (n / radix) k ++ [n % radix]) := by
          rw [ih, Nat.div_div_eq_div_mul, ← Nat.pow_succ']
        _ = digitsFrom radix (n / radix) (k + 1) ++ [n % radix] := rfl

/-- The digits from the first one that counts on. -/
theorem toDigits_eq (hradix : 1 < radix) (hn : n < radix ^ (k + 1)) (hk : k = 0 ∨ radix ^ k ≤ n) :
    Nat.toDigits radix n = (digitsFrom radix n k).map Nat.digitChar := by
  induction k generalizing n with
  | zero =>
      rw [Nat.zero_add, Nat.pow_one] at hn
      rw [Nat.toDigits_of_lt_base hn, digitsFrom, Nat.mod_eq_of_lt hn, List.map_singleton]
  | succ k ih =>
      have hpow : radix ^ (k + 1) ≤ n := hk.resolve_left (Nat.succ_ne_zero k)
      have hbase : radix ≤ n := by
        calc radix = radix ^ 1 := (Nat.pow_one radix).symm
          _ ≤ radix ^ (k + 1) := Nat.pow_le_pow_right (by omega) (by omega)
          _ ≤ n := hpow
      have hdiv : n / radix < radix ^ (k + 1) := by
        rw [Nat.div_lt_iff_lt_mul (by omega), ← Nat.pow_succ]
        exact hn
      have hdivpow : radix ^ k ≤ n / radix := by
        rw [Nat.le_div_iff_mul_le (by omega), ← Nat.pow_succ]
        exact hpow
      rw [Nat.toDigits_of_base_le hradix hbase, ih hdiv (Or.inr hdivpow), digitsFrom_succ, List.map_append,
        List.map_singleton]

/-- The digits add up to the number. -/
theorem foldl_digitsFrom (a : Nat) :
    (digitsFrom radix n k).foldl (fun v d => v * radix + d) a = a * radix ^ (k + 1) + n % radix ^ (k + 1) := by
  induction k generalizing a with
  | zero => simp [digitsFrom]
  | succ k ih =>
      have hmod : n % radix ^ (k + 2) = radix ^ (k + 1) * (n / radix ^ (k + 1) % radix) + n % radix ^ (k + 1) := by
        rw [Nat.pow_succ radix (k + 1), Nat.mod_mul, Nat.add_comm]
      calc (digitsFrom radix n (k + 1)).foldl (fun v d => v * radix + d) a
        _ = (a * radix + n / radix ^ (k + 1) % radix) * radix ^ (k + 1) + n % radix ^ (k + 1) := ih _
        _ = a * radix ^ (k + 2) + n % radix ^ (k + 2) := by
          rw [hmod]
          ring

end Digits

/-! ## What is written -/

variable {k radix : Nat} {s : TextInputStream} {v : Int64}

section Writing

variable {digit : UInt64 → UInt8} {radix v : UInt64} {mask : UInt64}

/-- The mask is the power of the radix that belongs to the first digit. -/
theorem growMask_spec (hradix : 1 < radix.toNat) (turns k count : Nat)
    (hmask : mask.toNat = radix.toNat ^ k) (hv : v.toNat < radix.toNat ^ (k + turns))
    (hk : k = 0 ∨ radix.toNat ^ k ≤ v.toNat) :
    ∃ m, k ≤ m ∧ (growMask radix v turns mask count).1.toNat = radix.toNat ^ m ∧
      (growMask radix v turns mask count).2 = count + (m - k) ∧ v.toNat < radix.toNat ^ (m + 1) ∧
      (m = 0 ∨ radix.toNat ^ m ≤ v.toNat) ∧ m ≤ k + turns := by
  induction turns generalizing k mask count with
  | zero =>
      refine ⟨k, Nat.le_refl k, hmask, by simp [growMask], ?_, hk, Nat.le_refl _⟩
      exact hv.trans (Nat.pow_lt_pow_right hradix (Nat.lt_succ_self k))
  | succ turns ih =>
      have hpos : 0 < radix.toNat ^ k := Nat.pow_pos (by omega)
      have hiff : v / mask ≥ radix ↔ radix.toNat ^ (k + 1) ≤ v.toNat := by
        rw [ge_iff_le, UInt64.le_iff_toNat_le, UInt64.toNat_div, hmask, Nat.le_div_iff_mul_le hpos, Nat.pow_succ,
          Nat.mul_comm]
      unfold growMask
      by_cases hmore : v / mask ≥ radix
      · rw [if_pos hmore]
        have hle := hiff.mp hmore
        have hproduct : (mask * radix).toNat = radix.toNat ^ (k + 1) := by
          rw [UInt64.toNat_mul, hmask, ← Nat.pow_succ]
          exact Nat.mod_eq_of_lt (hle.trans_lt v.toNat_lt)
        obtain ⟨m, hm, hresult, hcount, hlt, hlow, hbound⟩ := ih (k + 1) (count + 1) hproduct
          (by rw [Nat.add_assoc, Nat.add_comm 1]; exact hv) (Or.inr hle)
        exact ⟨m, by omega, hresult, by omega, hlt, hlow, by omega⟩
      · rw [if_neg hmore]
        have hlt := Nat.lt_of_not_le (hiff.not.mp hmore)
        exact ⟨k, Nat.le_refl k, hmask, by omega, hlt, hk, by omega⟩

theorem outputDigits_zero (turns : Nat) : outputDigits digit radix v turns 0 = [] := by
  cases turns with
  | zero => rfl
  | succ turns => exact if_pos rfl

/-- One turn of the loop. -/
theorem outputDigits_turn (hradix : 1 < radix.toNat)
    (hdigit : ∀ d : UInt64, d.toNat < radix.toNat → digit d = (Nat.digitChar d.toNat).toUInt8)
    {turns : Nat} (hmask : mask.toNat = radix.toNat ^ k) :
    outputDigits digit radix v (turns + 1) mask =
      (Nat.digitChar (v.toNat / radix.toNat ^ k % radix.toNat)).toUInt8 ::
        outputDigits digit radix v turns (mask / radix) := by
  have hne : mask ≠ 0 := by
    rintro rfl
    exact absurd hmask.symm (Nat.pow_pos (by omega)).ne'
  have htoNat : (v / mask % radix).toNat = v.toNat / radix.toNat ^ k % radix.toNat := by
    rw [UInt64.toNat_mod, UInt64.toNat_div, hmask]
  have hlt : (v / mask % radix).toNat < radix.toNat := by
    rw [htoNat]
    exact Nat.mod_lt _ (by omega)
  rw [outputDigits, if_neg hne, hdigit _ hlt, htoNat]

/-- The digits from the one of the mask on. -/
theorem outputDigits_eq (hradix : 1 < radix.toNat)
    (hdigit : ∀ d : UInt64, d.toNat < radix.toNat → digit d = (Nat.digitChar d.toNat).toUInt8)
    (k turns : Nat) (hturns : k + 1 ≤ turns) (hmask : mask.toNat = radix.toNat ^ k) :
    outputDigits digit radix v turns mask =
      ((digitsFrom radix.toNat v.toNat k).map Nat.digitChar).map Char.toUInt8 := by
  induction k generalizing turns mask with
  | zero =>
      obtain ⟨turns, rfl⟩ := Nat.exists_eq_add_of_le' hturns
      have hzero : mask / radix = 0 := by
        rw [← UInt64.toNat_inj, UInt64.toNat_div, hmask, Nat.pow_zero, Nat.div_eq_of_lt hradix]
        rfl
      rw [outputDigits_turn hradix hdigit hmask, hzero, outputDigits_zero, Nat.pow_zero, Nat.div_one]
      rfl
  | succ k ih =>
      obtain ⟨turns, rfl⟩ := Nat.exists_eq_add_of_le' (show 1 ≤ turns by omega)
      have hnext : (mask / radix).toNat = radix.toNat ^ k := by
        rw [UInt64.toNat_div, hmask, Nat.pow_succ, Nat.mul_div_cancel _ (by omega)]
      rw [outputDigits_turn hradix hdigit hmask, ih turns (by omega) hnext]
      rfl

/-- **What is written** without padding. -/
theorem output_text (hradix : 1 < radix.toNat)
    (hdigit : ∀ d : UInt64, d.toNat < radix.toNat → digit d = (Nat.digitChar d.toNat).toUInt8)
    {s : TextOutputStream} (hwidth : s.width = 0) (negative : Bool) :
    ∃ k, (output digit radix s v negative).text = s.text ++
        ((if negative then ['-'.toUInt8] else []) ++
          ((digitsFrom radix.toNat v.toNat k).map Nat.digitChar).map Char.toUInt8) ∧
      v.toNat < radix.toNat ^ (k + 1) ∧ (k = 0 ∨ radix.toNat ^ k ≤ v.toNat) := by
  have hv : v.toNat < radix.toNat ^ (0 + 64) := by
    calc v.toNat < 2 ^ 64 := v.toNat_lt
      _ ≤ radix.toNat ^ (0 + 64) := Nat.pow_le_pow_left hradix _
  obtain ⟨k, -, hmask, -, hlt, hlow, hbound⟩ := growMask_spec hradix 64 0 (if negative then 2 else 1)
    (show (1 : UInt64).toNat = radix.toNat ^ 0 from rfl) hv (Or.inl rfl)
  have hdigits := outputDigits_eq (v := v) hradix hdigit k 65 (by omega) hmask
  refine ⟨k, ?_, hlt, hlow⟩
  unfold output
  dsimp only
  rw [hdigits]
  have hpadding : ∀ size, (s.outputOptionalPadding size).text = s.text := by
    intro size
    show s.text ++ List.replicate (s.width - size) s.padding = s.text
    rw [hwidth, Nat.zero_sub, List.replicate_zero, List.append_nil]
  cases negative with
  | false =>
      show (s.outputOptionalPadding _).text ++ _ = _
      rw [hpadding]
      rfl
  | true =>
      show (s.outputOptionalPadding _).text ++ ['-'.toUInt8] ++ _ = _
      rw [hpadding, List.append_assoc]
      rfl

end Writing

/-! ## What is read -/

section Reading

variable {value : UInt8 → Option UInt64} {shift : UInt64 → UInt64} {radix : Nat} {rest : List UInt8}

/-- The byte of a digit. -/
def digitByte (d : Nat) : UInt8 := (Nat.digitChar d).toUInt8

/-- A loop that reads the digits of a radix. -/
structure Reads (value : UInt8 → Option UInt64) (shift : UInt64 → UInt64) (radix : Nat) : Prop where
  value : ∀ d < radix, value (digitByte d) = some (UInt64.ofNat d)
  shift : ∀ v, shift v = v * UInt64.ofNat radix

theorem readDigits_eq (h : Reads value shift radix) (hrest : ∀ c, rest.head? = some c → value c = none)
    {digits : List Nat} (hdigits : ∀ d ∈ digits, d < radix) (i n : Nat) (hi : i ≠ 0 ∨ digits ≠ []) :
    readDigits value shift none i (UInt64.ofNat n) (digits.map digitByte ++ rest) =
      (UInt64.ofNat (digits.foldl (fun v d => v * radix + d) n), rest, false) := by
  induction digits generalizing i n with
  | nil =>
      have hne : i ≠ 0 := hi.resolve_right (fun h => h rfl)
      cases rest with
      | nil => simp [readDigits, hne]
      | cons c rest => simp [readDigits, hrest c rfl, hne]
  | cons d digits ih =>
      obtain ⟨hd, hdigits⟩ := List.forall_mem_cons.mp hdigits
      have hnext : shift (UInt64.ofNat n) + UInt64.ofNat d = UInt64.ofNat (n * radix + d) := by
        rw [h.shift, UInt64.ofNat_add, UInt64.ofNat_mul]
      have hturn : readDigits value shift none i (UInt64.ofNat n) ((d :: digits).map digitByte ++ rest) =
          readDigits value shift none (i + 1) (shift (UInt64.ofNat n) + UInt64.ofNat d)
            (digits.map digitByte ++ rest) := by
        rw [List.map_cons, List.cons_append, readDigits, if_pos (Or.inl (by simp)), h.value d hd]
        rfl
      rw [hturn, hnext, ih hdigits (i + 1) (n * radix + d) (Or.inl (Nat.succ_ne_zero i))]
      rfl

/-- Digits are not spaces or signs. -/
theorem digitByte_ne {d : Nat} (hd : d < 16) : digitByte d ≠ ' '.toUInt8 ∧ digitByte d ≠ '-'.toUInt8 := by
  revert d
  decide

theorem digitsFrom_cons {radix n : Nat} (k : Nat) :
    ∃ d digits, digitsFrom radix n k = d :: digits := by
  cases k with
  | zero => exact ⟨_, _, rfl⟩
  | succ k => exact ⟨_, _, rfl⟩

/-- There is no space to skip. -/
theorem skipSpaces_eq {c : UInt8} {text : List UInt8} (hs : s.remaining = c :: text)
    (hc : c ≠ ' '.toUInt8) : s.skipSpaces = s := by
  unfold skipSpaces
  rw [hs, List.dropWhile_cons_of_neg (by simpa using hc)]
  dsimp only [List.isEmpty_cons]
  rw [Bool.or_false, ← hs]

/-- **A number is read back** that ends before something that is not a digit. -/
theorem readUnsigned_eq (h : Reads value shift radix) (hradix : 1 < radix ∧ radix ≤ 16)
    (hrest : ∀ c, rest.head? = some c → value c = none) {n : Nat} (hn : n < radix ^ (k + 1))
    (hwidth : s.width = none)
    (hs : s.remaining = (digitsFrom radix n k).map digitByte ++ rest) :
    s.readUnsigned value shift = (UInt64.ofNat n, { s with remaining := rest }) := by
  obtain ⟨d, digits, hdigits⟩ := @digitsFrom_cons radix n k
  have hlt := @digitsFrom_lt radix n k (by omega)
  have hskip : s.skipSpaces = s := by
    have htext : s.remaining = digitByte d :: (digits.map digitByte ++ rest) := by
      rw [hs, hdigits]
      rfl
    refine skipSpaces_eq htext (digitByte_ne ?_).1
    have := hlt d (hdigits ▸ List.mem_cons_self)
    omega
  have hvalue : (digitsFrom radix n k).foldl (fun v d => v * radix + d) 0 = n := by
    rw [foldl_digitsFrom, Nat.zero_mul, Nat.zero_add, Nat.mod_eq_of_lt hn]
  have hread := readDigits_eq h hrest hlt 0 0 (Or.inr (by rw [hdigits]; exact List.cons_ne_nil d digits))
  unfold readUnsigned
  dsimp only
  rw [hskip, hwidth, hs]
  rw [hvalue] at hread
  rw [show (0 : UInt64) = UInt64.ofNat 0 from rfl, hread, Bool.or_false]

end Reading

/-! ## Signs -/

theorem toInt_eq (v : Int64) :
    v.toInt = if v.toUInt64.toNat < 2 ^ 63 then (v.toUInt64.toNat : Int) else v.toUInt64.toNat - 2 ^ 64 := by
  have h := BitVec.toInt_eq_toNat_cond v.toBitVec
  have htoNat : v.toBitVec.toNat = v.toUInt64.toNat := rfl
  have htoInt : v.toBitVec.toInt = v.toInt := rfl
  rw [htoNat, htoInt] at h
  rw [h]
  split
  · rw [if_pos (by omega)]
  · rw [if_neg (by omega)]
    norm_num

theorem lt_zero_iff (v : Int64) : v < 0 ↔ v.toInt < 0 := Int64.lt_iff_toInt_lt

/-- The negation of a negative number, the lowest one included, is its absolute value as an unsigned number. -/
theorem toNat_of_neg (hv : v < 0) : (-v).toUInt64.toNat = v.toInt.natAbs := by
  have hlt := v.toUInt64.toNat_lt
  have hneg := (lt_zero_iff v).mp hv
  have hv := toInt_eq v
  rw [Int64.toUInt64_neg, UInt64.toNat_neg, show UInt64.size = 2 ^ 64 from rfl]
  split at hv
  all_goals omega

theorem toNat_of_nonneg (hv : ¬ v < 0) : v.toUInt64.toNat = v.toInt.natAbs := by
  have hlt := v.toUInt64.toNat_lt
  have hnonneg := (lt_zero_iff v).not.mp hv
  have hv := toInt_eq v
  split at hv
  all_goals omega

/-- `v *= vp` with the sign -1 wraps around to the number itself. -/
theorem neg_one_mul (hv : v < 0) :
    ((-1 : Int64).toUInt64 * UInt64.ofNat v.toInt.natAbs).toInt64 = v := by
  have hlt := v.toUInt64.toNat_lt
  have hneg := (lt_zero_iff v).mp hv
  have hv := toInt_eq v
  have hproduct : (-1 : Int64).toUInt64 * UInt64.ofNat v.toInt.natAbs = v.toUInt64 := by
    rw [← UInt64.toNat_inj, UInt64.toNat_mul, UInt64.toNat_ofNat']
    have hone : (-1 : Int64).toUInt64.toNat = 2 ^ 64 - 1 := by decide
    rw [hone]
    split at hv
    all_goals omega
  rw [hproduct, Int64.toInt64_toUInt64]

theorem one_mul (hv : ¬ v < 0) : ((1 : Int64).toUInt64 * UInt64.ofNat v.toInt.natAbs).toInt64 = v := by
  have hone : (1 : Int64).toUInt64 = 1 := by decide
  rw [hone, UInt64.one_mul, ← toNat_of_nonneg hv, UInt64.ofNat_toNat, Int64.toInt64_toUInt64]

/-! ## Round trips -/

/-- The radixes in which integers can be read. -/
def Radix.base : Radix → Nat
  | Radix.dec => 10
  | Radix.bin => 2
  | Radix.hex => 16

/-- A stream for a radix that is decimal or hexadecimal. -/
def TextInputStream.ofRadix (radix : Radix) (remaining : List UInt8) (failed : Bool) : TextInputStream :=
  { remaining := remaining, failed := failed, isDecimal := decide (radix = Radix.dec) }

/-- No digit of the radix follows. -/
def NoDigit (radix : Radix) (rest : List UInt8) : Prop :=
  ∀ c, rest.head? = some c → (if radix = Radix.dec then decimalValue c else hexValue c) = none

theorem reads_decimal : Reads decimalValue (· * 10) 10 where
  value := by decide
  shift v := rfl

theorem reads_hex : Reads hexValue (· <<< 4) 16 where
  value := by decide
  shift v := by
    show v <<< 4 = v * UInt64.ofNat 16
    rw [← UInt64.toNat_inj, UInt64.toNat_shiftLeft, UInt64.toNat_mul, Nat.shiftLeft_eq]
    rfl

theorem decimalDigit_eq (d : UInt64) (hd : d.toNat < (10 : UInt64).toNat) :
    decimalDigit d = (Nat.digitChar d.toNat).toUInt8 := by
  have h : ∀ n < 10, decimalDigit (UInt64.ofNat n) = (Nat.digitChar n).toUInt8 := by decide
  have := h d.toNat hd
  rwa [UInt64.ofNat_toNat] at this

theorem hexDigit_eq (d : UInt64) (hd : d.toNat < (16 : UInt64).toNat) :
    hexDigit d = (Nat.digitChar d.toNat).toUInt8 := by
  have h : ∀ n < 16, hexDigit (UInt64.ofNat n) = (Nat.digitChar n).toUInt8 := by decide
  have := h d.toNat hd
  rwa [UInt64.ofNat_toNat] at this

theorem canonical_eq {v : Int} (hradix : 1 < radix) (hlt : v.natAbs < radix ^ (k + 1))
    (hlow : k = 0 ∨ radix ^ k ≤ v.natAbs) :
    canonical radix v = (if v < 0 then ['-'.toUInt8] else []) ++ (digitsFrom radix v.natAbs k).map digitByte := by
  rw [canonical, toDigits_eq hradix hlt hlow, List.map_map]
  rfl

/-- What `OutputAsDecimal` and `OutputAsHexadecimal` write, and what is read from it. -/
structure RoundTrips (radix : Nat) (output : TextOutputStream → UInt64 → Bool → TextOutputStream)
    (read : TextInputStream → UInt64 × TextInputStream) (rest : List UInt8) : Prop where
  output : ∀ (s : TextOutputStream) (v : UInt64) (negative : Bool), s.width = 0 → ∀ n : Int, n.natAbs = v.toNat →
    (negative = decide (n < 0)) → (output s v negative).text = s.text ++ canonical radix n
  read : ∀ (s : TextInputStream) (n : Nat), s.width = none → s.remaining = canonical radix n ++ rest →
    read s = (UInt64.ofNat n, { s with remaining := rest })
  digit : ∀ n : Nat, ∃ c text, canonical radix n = c :: text ∧ c ≠ ' '.toUInt8 ∧ c ≠ '-'.toUInt8

theorem exists_first_digit (hradix : 1 < radix) (n : Nat) :
    ∃ k, n < radix ^ (k + 1) ∧ (k = 0 ∨ radix ^ k ≤ n) := by
  refine ⟨Nat.log radix n, Nat.lt_pow_succ_log_self hradix n, ?_⟩
  by_cases hn : n = 0
  · left
    rw [hn, Nat.log_zero_right]
  · exact Or.inr (Nat.pow_log_le_self radix hn)

theorem canonical_natCast {n : Nat} (hradix : 1 < radix) (hlt : n < radix ^ (k + 1))
    (hlow : k = 0 ∨ radix ^ k ≤ n) : canonical radix n = (digitsFrom radix n k).map digitByte := by
  rw [canonical_eq hradix hlt hlow, if_neg (by omega), List.nil_append]
  rfl

theorem roundTrips {digit : UInt64 → UInt8} {radix : UInt64} {value : UInt8 → Option UInt64}
    {shift : UInt64 → UInt64} {rest : List UInt8} (hradix : 1 < radix.toNat ∧ radix.toNat ≤ 16)
    (hdigit : ∀ d : UInt64, d.toNat < radix.toNat → digit d = (Nat.digitChar d.toNat).toUInt8)
    (h : Reads value shift radix.toNat) (hrest : ∀ c, rest.head? = some c → value c = none) :
    RoundTrips radix.toNat (output digit radix) (readUnsigned value shift) rest where
  output s v negative hwidth n hn hnegative := by
    obtain ⟨k, htext, hlt, hlow⟩ := output_text (v := v) hradix.1 hdigit hwidth negative
    have hcanonical := canonical_eq hradix.1 (hn ▸ hlt) (hn ▸ hlow)
    rw [htext, hcanonical, hnegative, List.map_map, hn]
    congr 2
    by_cases hneg : n < 0
    · rw [if_pos hneg, if_pos (decide_eq_true hneg)]
    · rw [if_neg hneg, if_neg (by simpa using hneg)]
  read s n hwidth hs := by
    obtain ⟨k, hlt, hlow⟩ := exists_first_digit hradix.1 n
    rw [canonical_natCast hradix.1 hlt hlow] at hs
    exact readUnsigned_eq h hradix hrest hlt hwidth hs
  digit n := by
    obtain ⟨k, hlt, hlow⟩ := exists_first_digit hradix.1 n
    obtain ⟨d, digits, hdigits⟩ := @digitsFrom_cons radix.toNat n k
    have hd := @digitsFrom_lt radix.toNat n k (by omega) d (hdigits ▸ List.mem_cons_self)
    refine ⟨digitByte d, digits.map digitByte, ?_, digitByte_ne (by omega)⟩
    rw [canonical_natCast hradix.1 hlt hlow, hdigits]
    rfl

section RoundTrips

variable {radix : Nat} {output : TextOutputStream → UInt64 → Bool → TextOutputStream}
  {read : TextInputStream → UInt64 × TextInputStream} {rest : List UInt8}

theorem RoundTrips.signed_text (h : RoundTrips radix output read rest) {s : TextOutputStream} (hwidth : s.width = 0)
    (v : Int64) :
    (output s (if decide (v < 0) then -v else v).toUInt64 (decide (v < 0))).text = s.text ++ canonical radix v.toInt := by
  refine h.output s _ _ hwidth v.toInt ?_ ?_
  · by_cases hneg : v < 0
    · rw [if_pos (decide_eq_true hneg), toNat_of_neg hneg]
    · rw [if_neg (by simpa using hneg), toNat_of_nonneg hneg]
  · rw [decide_eq_decide]
    exact lt_zero_iff v

theorem canonical_neg {v : Int} (hv : v < 0) : canonical radix v = '-'.toUInt8 :: canonical radix v.natAbs := by
  rw [canonical, if_pos hv, canonical, if_neg (by omega), List.nil_append, Int.natAbs_natCast]
  rfl

theorem canonical_nonneg {v : Int} (hv : ¬ v < 0) : canonical radix v = canonical radix v.natAbs := by
  rw [canonical, if_neg hv, canonical, if_neg (by omega), Int.natAbs_natCast]

/-- The sign is read back. -/
theorem RoundTrips.readSigned (h : RoundTrips radix output read rest) (hwidth : s.width = none)
    (hs : s.remaining = canonical radix v.toInt ++ rest) :
    s.readSigned read = (v, { s with remaining := rest }) := by
  obtain ⟨c, text, hcanonical, hspace, hminus⟩ := h.digit v.toInt.natAbs
  unfold TextInputStream.readSigned
  dsimp only
  by_cases hneg : v < 0
  · have htext : s.remaining = '-'.toUInt8 :: (canonical radix v.toInt.natAbs ++ rest) := by
      rw [hs, canonical_neg ((lt_zero_iff v).mp hneg)]
      rfl
    have hread := h.read { s with remaining := canonical radix v.toInt.natAbs ++ rest } v.toInt.natAbs hwidth rfl
    rw [skipSpaces_eq htext (by decide), htext, List.head?_cons, if_pos rfl, if_pos rfl, List.tail_cons, hread,
      neg_one_mul hneg]
  · have htext : s.remaining = c :: (text ++ rest) := by
      rw [hs, canonical_nonneg ((lt_zero_iff v).not.mp hneg), hcanonical]
      rfl
    have hsign : ¬ s.remaining.head? = some '-'.toUInt8 := by
      rw [htext, List.head?_cons, Option.some_inj]
      exact hminus
    have hread := h.read s v.toInt.natAbs hwidth (by rw [hs, canonical_nonneg ((lt_zero_iff v).not.mp hneg)])
    rw [skipSpaces_eq htext hspace, if_neg hsign, if_neg hsign, hread, one_mul hneg]

end RoundTrips

/-- **Integers of 64 bits are read back**: what is written without padding, in decimal or in hexadecimal, is the
canonical text of the number, and when no other digit follows it, the same number is read from it and no failure is
reported. -/
theorem integers_roundTrip {radix : Radix} (hradix : radix ≠ Radix.bin) {rest : List UInt8}
    (hrest : NoDigit radix rest) {s : TextOutputStream} (hs : s.radix = radix ∧ s.width = 0) (failed : Bool) :
    (∀ v : Int64, (s.writeInt64 v).text = s.text ++ canonical radix.base v.toInt ∧
      (ofRadix radix (canonical radix.base v.toInt ++ rest) failed).readInt64 =
        (v, ofRadix radix rest failed)) ∧
    ∀ v : UInt64, (s.writeUInt64 v).text = s.text ++ canonical radix.base v.toNat ∧
      (ofRadix radix (canonical radix.base v.toNat ++ rest) failed).readUInt64 =
        (v, ofRadix radix rest failed) := by
  obtain ⟨rfl, hwidth⟩ := hs
  cases hr : s.radix with
  | dec =>
      rw [hr] at hrest
      have h : RoundTrips 10 outputAsDecimal readAsDecimal rest :=
        @roundTrips _ 10 _ _ _ ⟨by decide, by decide⟩ decimalDigit_eq reads_decimal hrest
      constructor
      · intro v
        refine ⟨?_, h.readSigned rfl rfl⟩
        unfold writeInt64
        rw [hr]
        exact h.signed_text hwidth v
      · intro v
        constructor
        · unfold writeUInt64
          rw [hr]
          exact h.output s v false hwidth v.toNat (Int.natAbs_natCast _) (by simp)
        · have hread := h.read (ofRadix Radix.dec (canonical 10 v.toNat ++ rest) failed) v.toNat rfl rfl
          rw [UInt64.ofNat_toNat] at hread
          exact hread
  | bin => exact absurd hr hradix
  | hex =>
      rw [hr] at hrest
      have h : RoundTrips 16 outputAsHexadecimal readAsHex rest :=
        @roundTrips _ 16 _ _ _ ⟨by decide, by decide⟩ hexDigit_eq reads_hex hrest
      constructor
      · intro v
        refine ⟨?_, h.readSigned rfl rfl⟩
        unfold writeInt64
        rw [hr]
        exact h.signed_text hwidth v
      · intro v
        constructor
        · unfold writeUInt64
          rw [hr]
          exact h.output s v false hwidth v.toNat (Int.natAbs_natCast _) (by simp)
        · have hread := h.read (ofRadix Radix.hex (canonical 16 v.toNat ++ rest) failed) v.toNat rfl rfl
          rw [UInt64.ofNat_toNat] at hread
          exact hread

/-- The lowest number in hexadecimal, followed by a minus sign. -/
theorem integers_roundTrip_lowest :
    (∀ v : Int64, (writeInt64 { radix := Radix.hex } v).text =
        canonical Radix.hex.base v.toInt ∧
      (ofRadix Radix.hex (canonical Radix.hex.base v.toInt ++ ['-'.toUInt8]) false).readInt64 =
        (v, ofRadix Radix.hex ['-'.toUInt8] false)) ∧
    canonical Radix.hex.base Int64.minValue.toInt = "-8000000000000000".toList.map Char.toUInt8 :=
  ⟨(@integers_roundTrip Radix.hex (by decide) ['-'.toUInt8] (by rintro c ⟨⟩; decide) { radix := Radix.hex }
    ⟨rfl, rfl⟩ false).1, by decide⟩

end EmbeddedInfra.TextStreams
