import Mathlib.Tactic

set_option autoImplicit false

/-! # Pieces of a list

A list is cut into pieces of one size, the last of which has what is left. The pieces together are the list
(`flatten_pieces`), and `dvd_pieces_iff` says when all of them consist of whole units.
-/

namespace Pieces

variable {α : Type}

/-- The pieces of this size. -/
def pieces (size : Nat) (list : List α) : List (List α) :=
  if 0 < size ∧ list ≠ [] then list.take size :: pieces size (list.drop size) else []
termination_by list.length
decreasing_by
  have := List.length_pos_iff.mpr ‹0 < size ∧ list ≠ []›.2
  rw [List.length_drop]
  omega

variable {size unit : Nat} {list : List α}

theorem pieces_nil (size : Nat) : pieces size ([] : List α) = [] := by
  rw [pieces, if_neg (fun h => h.2 rfl)]

theorem pieces_of_ne_nil (hsize : 0 < size) (hlist : list ≠ []) :
    pieces size list = list.take size :: pieces size (list.drop size) := by
  rw [pieces, if_pos ⟨hsize, hlist⟩]

theorem flatten_pieces (hsize : 0 < size) (list : List α) : (pieces size list).flatten = list := by
  induction hn : list.length using Nat.strong_induction_on generalizing list with
  | _ n ih =>
      by_cases hlist : list = []
      · rw [hlist, pieces_nil, List.flatten_nil]
      · have hpos := List.length_pos_iff.mpr hlist
        have hrest := ih (list.drop size).length (by rw [List.length_drop]; omega) (list.drop size) rfl
        rw [pieces_of_ne_nil hsize hlist, List.flatten_cons, hrest, List.take_append_drop]

/-- Whole units have to fill the list, and the pieces of a list that is longer than one piece. -/
theorem dvd_pieces_iff (hsize : 0 < size) (list : List α) :
    (∀ piece ∈ pieces size list, unit ∣ piece.length) ↔ unit ∣ list.length ∧ (list.length ≤ size ∨ unit ∣ size) := by
  induction hn : list.length using Nat.strong_induction_on generalizing list with
  | _ n ih =>
      subst hn
      by_cases hlist : list = []
      · simp [hlist, pieces_nil]
      · have hpos := List.length_pos_iff.mpr hlist
        have hrest := ih (list.drop size).length (by rw [List.length_drop]; omega) (list.drop size) rfl
        rw [List.length_drop] at hrest
        rw [pieces_of_ne_nil hsize hlist, List.forall_mem_cons, hrest, List.length_take]
        rcases Nat.lt_or_ge size list.length with hlong | hshort
        · have hsum : list.length = size + (list.length - size) := by omega
          rw [Nat.min_eq_left hlong.le]
          constructor
          · rintro ⟨hfront, hbehind, -⟩
            exact ⟨hsum ▸ Nat.dvd_add hfront hbehind, Or.inr hfront⟩
          · rintro ⟨hwhole, hle | hfront⟩
            · omega
            · exact ⟨hfront, Nat.dvd_sub hwhole hfront, Or.inr hfront⟩
        · have hzero : list.length - size = 0 := by omega
          rw [Nat.min_eq_right hshort, hzero]
          simp [hshort]

/-- Otherwise, pieces of whole units are followed by one that does not consist of them. Where that is depends on
the length of the list only. -/
theorem exists_not_dvd {n : Nat} (hsize : 0 < size) (h : ¬ (unit ∣ n ∧ (n ≤ size ∨ unit ∣ size))) :
    ∃ start < n, unit ∣ start ∧ ∀ list : List α, list.length = n →
      ∃ front piece rest, pieces size list = front ++ piece :: rest ∧ (∀ whole ∈ front, unit ∣ whole.length) ∧
        ¬ unit ∣ piece.length ∧ front.flatten.length = start := by
  induction n using Nat.strong_induction_on with
  | _ n ih =>
      have hpos : 0 < n := by
        apply Nat.pos_of_ne_zero
        rintro rfl
        exact h ⟨Nat.dvd_zero unit, Or.inl (Nat.zero_le size)⟩
      have hne {list : List α} (hlength : list.length = n) : list ≠ [] := by
        rw [← List.length_pos_iff, hlength]
        exact hpos
      by_cases hfirst : unit ∣ min size n
      · have hlong : size < n := by
          by_contra hle
          rw [Nat.min_eq_right (by omega)] at hfirst
          exact h ⟨hfirst, Or.inl (by omega)⟩
        rw [Nat.min_eq_left hlong.le] at hfirst
        have hlater : ¬ (unit ∣ n - size ∧ (n - size ≤ size ∨ unit ∣ size)) := by
          rintro ⟨hwhole, -⟩
          have hsum : n = size + (n - size) := by omega
          exact h ⟨hsum ▸ Nat.dvd_add hfirst hwhole, Or.inr hfirst⟩
        obtain ⟨start, hstart, hdvd, hpieces⟩ := ih (n - size) (by omega) hlater
        refine ⟨size + start, by omega, Nat.dvd_add hfirst hdvd, ?_⟩
        intro list hlength
        obtain ⟨front, piece, rest, hsplit, hfront, hpiece, hflatten⟩ :=
          hpieces (list.drop size) (by rw [List.length_drop, hlength])
        have htake : (list.take size).length = size := by
          rw [List.length_take]
          omega
        refine ⟨list.take size :: front, piece, rest, ?_, ?_, hpiece, ?_⟩
        · rw [pieces_of_ne_nil hsize (hne hlength), hsplit, List.cons_append]
        · exact List.forall_mem_cons.mpr ⟨htake.symm ▸ hfirst, hfront⟩
        · rw [List.flatten_cons, List.length_append, htake, hflatten]
      · refine ⟨0, hpos, Nat.dvd_zero unit, ?_⟩
        intro list hlength
        refine ⟨[], list.take size, pieces size (list.drop size), ?_, (fun _ hmem => nomatch hmem), ?_, rfl⟩
        · rw [pieces_of_ne_nil hsize (hne hlength), List.nil_append]
        · rw [List.length_take, hlength]
          exact hfirst

end Pieces
