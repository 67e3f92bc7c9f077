import Mathlib.Tactic

set_option autoImplicit false

/-! # Numbers in groups of seven bits

A number is written in bytes of seven bits each, the lowest first, and every byte but the last one has its high
bit set. What has been written is read again (`read_write`), and a number takes at most `n` bytes when it is
less than `128 ^ n`, and only then (`length_write_le_iff`).
-/

namespace ContinuedNumbers

/-- The bytes of a number. -/
def write (value : Nat) : List UInt8 :=
  if 127 < value then UInt8.ofNat (value % 128 + 128) :: write (value / 128) else [UInt8.ofNat value]
termination_by value

/-- The number in front, and what follows it. `none` when there is no end to it. -/
def read : List UInt8 → Option (Nat × List UInt8)
  | [] => none
  | byte :: bytes =>
      if 127 < byte then (read bytes).map fun later => (byte.toNat - 128 + 128 * later.1, later.2)
      else some (byte.toNat, bytes)

variable {value n : Nat}

theorem write_last (h : value ≤ 127) : write value = [UInt8.ofNat value] := by
  rw [write, if_neg (by omega)]

theorem write_more (h : 127 < value) : write value = UInt8.ofNat (value % 128 + 128) :: write (value / 128) := by
  rw [write, if_pos h]

theorem toNat_last (h : value ≤ 127) : (UInt8.ofNat value).toNat = value := by
  rw [UInt8.toNat_ofNat']
  omega

theorem toNat_more (value : Nat) : (UInt8.ofNat (value % 128 + 128)).toNat = value % 128 + 128 := by
  rw [UInt8.toNat_ofNat']
  omega

/-- Only the last byte has its high bit clear. -/
theorem not_lt_last (h : value ≤ 127) : ¬ 127 < UInt8.ofNat value := by
  rw [UInt8.lt_iff_toNat_lt, toNat_last h]
  exact Nat.not_lt.mpr h

theorem lt_more (value : Nat) : 127 < UInt8.ofNat (value % 128 + 128) := by
  rw [UInt8.lt_iff_toNat_lt, toNat_more]
  show 127 < value % 128 + 128
  omega

theorem read_write (value : Nat) (rest : List UInt8) : read (write value ++ rest) = some (value, rest) := by
  induction value using Nat.strong_induction_on with
  | _ value ih =>
      by_cases hlast : value ≤ 127
      · rw [write_last hlast, List.singleton_append, read, if_neg (not_lt_last hlast), toNat_last hlast]
      · have hvalue : value % 128 + 128 - 128 + 128 * (value / 128) = value := by omega
        rw [write_more (by omega), List.cons_append, read, if_pos (lt_more value), ih (value / 128) (by omega),
          Option.map_some, toNat_more, hvalue]

theorem length_write_pos (value : Nat) : 0 < (write value).length := by
  rw [write]
  split
  · exact Nat.succ_pos _
  · exact Nat.one_pos

/-- So many bytes are enough, and needed. -/
theorem length_write_le_iff : (write value).length ≤ n + 1 ↔ value < 128 ^ (n + 1) := by
  induction n generalizing value with
  | zero =>
      by_cases hlast : value ≤ 127
      · rw [write_last hlast]
        exact iff_of_true (Nat.le_refl 1) (by omega)
      · have hlater := length_write_pos (value / 128)
        rw [write_more (by omega), List.length_cons]
        exact iff_of_false (by omega) (by omega)
  | succ n ih =>
      have hpow : 128 ^ (n + 1 + 1) = 128 * 128 ^ (n + 1) := by rw [Nat.pow_succ, Nat.mul_comm]
      by_cases hlast : value ≤ 127
      · have hpos : 0 < 128 ^ (n + 1) := Nat.pow_pos (by omega)
        rw [write_last hlast]
        exact iff_of_true (Nat.succ_le_succ (Nat.zero_le _)) (by omega)
      · have hlater := @ih (value / 128)
        rw [write_more (by omega), List.length_cons, Nat.succ_le_succ_iff, hlater, hpow,
          Nat.div_lt_iff_lt_mul (by omega), Nat.mul_comm]

end ContinuedNumbers
