import Mathlib.Tactic

set_option autoImplicit false

/-! # The first occurrence of a pattern

`find` gives the position at which a pattern occurs first in a list. What it gives is determined by the
text up to the end of that occurrence, so it is the same for every longer text, and there is none for a
shorter one.
-/

namespace PatternSearch

variable {α : Type} [DecidableEq α] {pat pre rest text sent : List α} {n : Nat}

/-- The position of the first occurrence. -/
def find (pat : List α) : List α → Option Nat
  | [] => if pat = [] then some 0 else none
  | a :: text => if pat <+: a :: text then some 0 else (find pat text).map (· + 1)

/-- A text that starts with the pattern. -/
theorem find_of_starts (h : pat <+: text) : find pat text = some 0 := by
  cases text with
  | nil => simp [find, List.prefix_nil.mp h]
  | cons a text => simp [find, h]

/-- One element where the pattern does not start. -/
theorem find_cons {a : α} (h : ¬ pat <+: a :: text) : find pat (a :: text) = (find pat text).map (· + 1) := by
  simp [find, h]

/-- There is none only when the pattern is no part of the text. -/
theorem find_eq_none : find pat text = none ↔ ¬ pat <:+: text := by
  induction text with
  | nil => simp [find]
  | cons a text ih =>
      by_cases h : pat <+: a :: text
      · simp [find_of_starts h, h.isInfix]
      · rw [find_cons h, Option.map_eq_none_iff, ih, List.infix_cons_iff]
        simp [h]

/-- What stands at the position that is found. -/
theorem find_eq_some (h : find pat text = some n) : ∃ rest, text = text.take n ++ (pat ++ rest) ∧ n ≤ text.length := by
  induction text generalizing n with
  | nil =>
      by_cases hp : pat = []
      · simp_all [find]
      · simp [find, hp] at h
  | cons a text ih =>
      by_cases hp : pat <+: a :: text
      · obtain ⟨rest, hrest⟩ := hp
        rw [find_of_starts ⟨rest, hrest⟩] at h
        cases h
        exact ⟨rest, by simp [hrest], Nat.zero_le _⟩
      · rw [find_cons hp, Option.map_eq_some_iff] at h
        obtain ⟨m, hm, rfl⟩ := h
        obtain ⟨rest, hrest, hle⟩ := ih hm
        refine ⟨rest, ?_, by simp [hle]⟩
        rw [List.take_succ_cons, List.cons_append, ← hrest]

/-- A longer text has the pattern at the same position. -/
theorem find_append (h : find pat text = some n) : find pat (text ++ rest) = some n := by
  induction text generalizing n with
  | nil =>
      by_cases hp : pat = []
      · subst hp
        cases h
        exact find_of_starts List.nil_prefix
      · simp [find, hp] at h
  | cons a text ih =>
      by_cases hp : pat <+: a :: text
      · rw [find_of_starts hp] at h
        rw [find_of_starts (hp.trans (List.prefix_append _ _)), h]
      · rw [find_cons hp, Option.map_eq_some_iff] at h
        obtain ⟨m, hm, rfl⟩ := h
        have hlong : ¬ pat <+: a :: (text ++ rest) := by
          intro hlong
          obtain ⟨tail, htail, -⟩ := find_eq_some hm
          refine hp (List.prefix_of_prefix_length_le hlong (List.prefix_append (a :: text) rest) ?_)
          rw [htail]
          simp
          omega
        rw [List.cons_append, find_cons hlong, ih hm, Option.map_some]

/-- A text that ends before the end of the first occurrence has none. -/
theorem find_of_short (h : find pat text = some n) (hsent : sent <+: text)
    (hlen : sent.length < n + pat.length) : find pat sent = none := by
  cases hfind : find pat sent with
  | none => rfl
  | some m =>
      obtain ⟨tail, rfl⟩ := hsent
      obtain ⟨rest, hrest, hle⟩ := find_eq_some hfind
      have hm : n = m := by simpa [find_append hfind] using h.symm
      have : sent.length = (sent.take m ++ (pat ++ rest)).length := congrArg _ hrest
      simp only [List.length_append, List.length_take] at this
      omega

/-- Elements in front, at which the pattern does not start. -/
theorem find_skip (h : ∀ front back, pre = front ++ back → back ≠ [] → ¬ pat <+: back ++ text) :
    find pat (pre ++ text) = (find pat text).map (· + pre.length) := by
  induction pre with
  | nil => simp
  | cons a pre ih =>
      have hhere : ¬ pat <+: a :: (pre ++ text) := h [] (a :: pre) rfl (by simp)
      have hrest := ih fun front back hsplit => h (a :: front) back (by simp [hsplit])
      rw [List.cons_append, find_cons hhere, hrest, Option.map_map]
      congr 1

end PatternSearch
