import Mathlib.Tactic.Positivity

set_option autoImplicit false

/-! # Decimal numbers

`infra::TextOutputStream::OutputAsDecimal` raises a mask to the power of ten of the first digit, and writes a
digit for each power of ten below it.

* `digits_induction`: what holds behind the last digit and is kept by a digit more holds of all digits.
-/

namespace EmbeddedInfra.Decimal

/-- `while (v / mask >= 10) mask *= 10`. A number of 64 bits has at most 20 digits. -/
def raiseDecimalMask (v : Nat) : Nat → Nat → Nat
  | 0, mask => mask
  | turns + 1, mask => if v / mask ≥ 10 then raiseDecimalMask v turns (mask * 10) else mask

/-- `while (mask != 0)` -/
def outputDecimalDigits (v : Nat) : Nat → Nat → List UInt8
  | 0, _ => []
  | turns + 1, mask =>
      if mask = 0 then []
      else UInt8.ofNat (v / mask % 10 + 0x30) :: outputDecimalDigits v turns (mask / 10)

/-- The mask is the power of ten of the first digit. -/
theorem raiseDecimalMask_eq (v : Nat) : ∀ turns k,
    ∃ digits, raiseDecimalMask v turns (10 ^ k) = 10 ^ digits ∧ k ≤ digits ∧ digits ≤ k + turns ∧
      (digits < k + turns → v < 10 ^ (digits + 1)) ∧ (k < digits → 10 ^ digits ≤ v) := by
  intro turns
  induction turns with
  | zero =>
      intro k
      exact ⟨k, rfl, le_rfl, le_rfl, by omega, by omega⟩
  | succ turns ih =>
      intro k
      have hpos : 0 < 10 ^ k := by positivity
      by_cases hv : v / 10 ^ k ≥ 10
      · have hle : 10 ^ (k + 1) ≤ v := by
          rw [Nat.pow_succ, Nat.mul_comm]
          exact (Nat.le_div_iff_mul_le hpos).mp hv
        obtain ⟨digits, heq, hk, hturns, hlt, hge⟩ := ih (k + 1)
        refine ⟨digits, ?_, by omega, by omega, fun h => hlt (by omega), fun _ => ?_⟩
        · rw [raiseDecimalMask, if_pos hv, ← Nat.pow_succ]
          exact heq
        · rcases Nat.lt_or_ge (k + 1) digits with h | h
          · exact hge h
          · rw [show digits = k + 1 by omega]
            exact hle
      · refine ⟨k, by rw [raiseDecimalMask, if_neg hv], le_rfl, by omega, fun _ => ?_, by omega⟩
        rw [Nat.pow_succ, Nat.mul_comm]
        exact (Nat.div_lt_iff_lt_mul hpos).mp (by omega)

theorem outputDecimalDigits_pow_zero (v turns : Nat) :
    outputDecimalDigits v (turns + 1) (10 ^ 0) = [UInt8.ofNat (v % 10 + 0x30)] := by
  rw [outputDecimalDigits, if_neg (by decide), Nat.pow_zero, Nat.div_one]
  cases turns <;> rfl

theorem outputDecimalDigits_pow_succ (v turns m : Nat) :
    outputDecimalDigits v (turns + 1) (10 ^ (m + 1)) =
      UInt8.ofNat (v / 10 ^ (m + 1) % 10 + 0x30) :: outputDecimalDigits v turns (10 ^ m) := by
  rw [outputDecimalDigits, if_neg (by positivity), Nat.pow_succ, Nat.mul_div_cancel _ (by decide)]

theorem length_outputDecimalDigits (v : Nat) : ∀ turns digits, digits < turns →
    (outputDecimalDigits v turns (10 ^ digits)).length = digits + 1
  | 0, digits => by omega
  | turns + 1, 0 => fun _ => by rw [outputDecimalDigits_pow_zero, List.length_singleton]
  | turns + 1, digits + 1 => fun h => by
      rw [outputDecimalDigits_pow_succ, List.length_cons,
        length_outputDecimalDigits v turns digits (Nat.lt_of_succ_lt_succ h)]

/-- What holds of the ten digits holds of all characters. -/
theorem forall_outputDecimalDigits {P : UInt8 → Prop} (h : ∀ d < 10, P (UInt8.ofNat (d + 0x30)))
    (v turns mask : Nat) : ∀ c ∈ outputDecimalDigits v turns mask, P c := by
  induction turns generalizing mask with
  | zero => nofun
  | succ turns ih =>
      rw [outputDecimalDigits]
      split
      · nofun
      · exact List.forall_mem_cons.mpr ⟨h _ (Nat.mod_lt _ (by decide)), ih _⟩

section

variable {v : Nat} {motive : Nat → List UInt8 → Prop}
  (last : ∀ q d, d < 10 → 10 * q + d = v → motive q [UInt8.ofNat (d + 0x30)])
  (cons : ∀ q d digits, d < 10 → 10 * q + d ≤ v → motive (10 * q + d) digits →
    motive q (UInt8.ofNat (d + 0x30) :: digits))
include last cons

/-- From the digit of a power of ten on; `v / 10 ^ (m + 1)` is the number that the digits in front make. -/
theorem outputDecimalDigits_induction (m turns : Nat) (hturns : m < turns) :
    motive (v / 10 ^ (m + 1)) (outputDecimalDigits v turns (10 ^ m)) := by
  obtain ⟨turns, rfl⟩ := Nat.exists_eq_succ_of_ne_zero (Nat.ne_of_gt (Nat.lt_of_le_of_lt (Nat.zero_le _) hturns))
  induction m generalizing turns with
  | zero =>
      rw [Nat.zero_add, Nat.pow_one, Nat.succ_eq_add_one, outputDecimalDigits_pow_zero]
      exact last _ _ (Nat.mod_lt _ (by decide)) (Nat.div_add_mod v 10)
  | succ m ih =>
      obtain ⟨turns, rfl⟩ : ∃ t, turns = t + 1 := ⟨turns - 1, by omega⟩
      have hdigit : 10 * (v / 10 ^ (m + 1 + 1)) + v / 10 ^ (m + 1) % 10 = v / 10 ^ (m + 1) := by
        rw [Nat.pow_succ, ← Nat.div_div_eq_div_mul]
        exact Nat.div_add_mod _ 10
      rw [Nat.succ_eq_add_one, outputDecimalDigits_pow_succ]
      apply cons _ _ _ (Nat.mod_lt _ (by decide)) <;> rw [hdigit]
      · exact Nat.div_le_self _ _
      · exact ih turns (by omega)

/-- Induction along the digits of a number; `q` is the number that the digits in front make. -/
theorem digits_induction (hv : v < 10 ^ 21) :
    motive 0 (outputDecimalDigits v 21 (raiseDecimalMask v 20 1)) := by
  obtain ⟨m, hmask, -, hle, hlt, -⟩ := raiseDecimalMask_eq v 20 0
  have hm : v < 10 ^ (m + 1) := by
    rcases Nat.lt_or_ge m 20 with h | h
    · exact hlt (by omega)
    · exact hv.trans_le (Nat.pow_le_pow_right (by decide) (by omega))
  have h := outputDecimalDigits_induction last cons m 21 (by omega)
  rwa [Nat.div_eq_of_lt hm, ← hmask] at h

end

end EmbeddedInfra.Decimal
