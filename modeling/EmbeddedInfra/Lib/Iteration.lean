import Mathlib.Tactic

set_option autoImplicit false

/-! # Iterating over a text

An iterator reads the next element of a text in a bounded number of turns, each of which may fail to
return, and stops when it is behind an element or at the end. When every turn takes something of the text,
the iteration comes to its end.
-/

namespace Iteration

variable {σ : Type} {position : σ → Nat} {valid ended between : σ → Prop} [DecidablePred ended]

/-- The turns for one element return: at the end, or behind an element that comes later. -/
theorem advance_some [DecidablePred between] {turn : σ → Option σ} {turns : σ → Nat} {advance : Nat → σ → Option σ}
    (hadvance : ∀ n it, advance (n + 1) it
      = (turn it).bind fun it => if ¬ between it ∧ ¬ ended it then advance n it else some it)
    (hturns : ∀ it, ¬ ended it → 0 < turns it)
    (hturn : ∀ it, valid it → ¬ ended it → ∃ it', turn it = some it' ∧ (ended it' ∨
      valid it' ∧ position it < position it' ∧ (between it' ∨ turns it' + 1 = turns it)))
    {n : Nat} {it : σ} (hvalid : valid it) (hgoes : ¬ ended it) (hn : turns it ≤ n) :
    ∃ it', advance n it = some it' ∧ (ended it' ∨ valid it' ∧ between it' ∧ position it < position it') := by
  induction n generalizing it with
  | zero =>
      have := hturns it hgoes
      omega
  | succ n ih =>
      obtain ⟨it₁, hfirst, hnext⟩ := hturn it hvalid hgoes
      rw [hadvance, hfirst, Option.bind_some]
      split
      next hgo =>
          obtain ⟨hvalid₁, hlt, hleft⟩ := hnext.resolve_left hgo.2
          have hleft := hleft.resolve_left hgo.1
          obtain ⟨it', hrest, hlast⟩ := ih hvalid₁ hgo.2 (by omega)
          refine ⟨it', hrest, hlast.imp_right ?_⟩
          rintro ⟨hvalid', hbetween, hlt'⟩
          exact ⟨hvalid', hbetween, hlt.trans hlt'⟩
      next hstop =>
          refine ⟨it₁, rfl, ?_⟩
          by_cases hended : ended it₁
          · exact .inl hended
          · obtain ⟨hvalid₁, hlt, -⟩ := hnext.resolve_left hended
            exact .inr ⟨hvalid₁, by_contra fun hb => hstop ⟨hb, hended⟩, hlt⟩

/-- Every element but the last takes something of the text, so the iteration comes to its end. -/
theorem ends {next : σ → Option σ} {iterate : Nat → Option σ} {bound : Nat}
    (hiterate : ∀ n, iterate (n + 1) = (iterate n).bind fun it => if ended it then some it else next it)
    (hnext : ∀ it, valid it → ¬ ended it →
      ∃ it', next it = some it' ∧ (ended it' ∨ valid it' ∧ between it' ∧ position it < position it'))
    (hbound : ∀ it, valid it → position it ≤ bound)
    (hfirst : ∃ it, iterate 0 = some it ∧ (ended it ∨ valid it)) :
    ∃ n it, iterate n = some it ∧ ended it := by
  have hiterated (n : Nat) : ∃ it, iterate n = some it ∧ (ended it ∨ valid it ∧ n ≤ position it) := by
    induction n with
    | zero =>
        obtain ⟨it, hit, hvalid⟩ := hfirst
        exact ⟨it, hit, hvalid.imp_right fun h => ⟨h, Nat.zero_le _⟩⟩
    | succ n ih =>
        obtain ⟨it, hit, hvalid⟩ := ih
        rw [hiterate, hit, Option.bind_some]
        by_cases hended : ended it
        · rw [if_pos hended]
          exact ⟨it, rfl, .inl hended⟩
        · rw [if_neg hended]
          obtain ⟨hvalid, hle⟩ := hvalid.resolve_left hended
          obtain ⟨it', hit', hlast⟩ := hnext it hvalid hended
          refine ⟨it', hit', hlast.imp_right ?_⟩
          rintro ⟨hvalid', -, hlt⟩
          exact ⟨hvalid', Nat.succ_le_of_lt (lt_of_le_of_lt hle hlt)⟩
  obtain ⟨it, hit, hlast⟩ := hiterated (bound + 1)
  refine ⟨bound + 1, it, hit, hlast.resolve_right ?_⟩
  rintro ⟨hvalid, hle⟩
  have := hbound it hvalid
  omega

end Iteration
