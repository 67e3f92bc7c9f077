import EmbeddedInfra.Infra.SequencerSimulation

set_option autoImplicit false

/-! # The sequencer refines structured control flow

`Load` followed by any number of calls of `Continue` passes through the states at the pauses of
the direct interpretation, is finished exactly when the direct interpretation has ended, and
returns exactly when the direct interpretation reaches its next pause or its end
(`sequencer_refines_interpretation`). The state may be a log in which each action and condition
enters its name, so that they are performed in the same order. A call that never returns is in
states of the direct interpretation as well, after any number of rounds of its loop.
-/

namespace EmbeddedInfra.Sequencer

open Machine

variable {σ : Type} {n rounds k r : Nat} {q : List (Stmt σ)} {s t : σ} {o : Outcome σ}
  {m m' : Machine σ} {p : List (Stmt σ)}

/-! ## The direct interpretation up to its next pause -/

/-- The direct interpretation of `p` from `s` next pauses or ends in the given outcome. -/
inductive Reaches (p : List (Stmt σ)) (s : σ) : Outcome σ → Prop where
  | ended {n : Nat} {t : σ} (hs : Silent n p s [] t) : Reaches p s (.ended t)
  | paused {n : Nat} {action : σ → σ} {rest : List (Stmt σ)} {t : σ}
      (hs : Silent n p s (.step action :: rest) t) : Reaches p s (.paused rest (action t))

theorem Reaches.prepend (h : Reaches q t o) (hs : Silent n p s q t) : Reaches p s o := by
  cases h with
  | ended h' => exact .ended (hs.trans h')
  | paused h' => exact .paused (hs.trans h')

theorem proceed_nil (n : Nat) (s : σ) : proceed n [] s = some (.ended s) := by
  cases n <;> rfl

theorem proceed_of_silent (h : Silent n p s q t)
    (f : Nat) : proceed (n + f) p s = proceed f q t := by
  induction h with
  | refl p s => rw [Nat.zero_add]
  | @cons n st p q s t hp _ ih =>
      rw [show n + 1 + f = n + f + 1 by omega, proceed, hp]
      exact ih

/-- A statement that pauses is a `Step`. -/
theorem next_pauses {st : Stmt σ} (h : (st.next s).2.2 = true) : ∃ action, st = .step action := by
  cases st <;> simp_all [Stmt.next]

theorem reaches_of_proceed (h : proceed n p s = some o) : Reaches p s o := by
  induction n generalizing p s with
  | zero =>
      cases p with
      | nil => cases h; exact .ended (.refl _ _)
      | cons st p => cases h
  | succ n ih =>
      cases p with
      | nil => cases h; exact .ended (.refl _ _)
      | cons st p =>
          rw [proceed] at h
          cases hp : (st.next s).2.2 with
          | true =>
              obtain ⟨action, rfl⟩ := next_pauses hp
              cases h
              exact .paused (.refl _ _)
          | false =>
              rw [hp] at h
              exact (ih h).prepend (.cons hp (.refl _ _))

theorem proceed_of_reaches (h : Reaches p s o) : ∃ n, ∀ f, proceed (n + f) p s = some o := by
  cases h with
  | @ended n _ hs => exact ⟨n, fun f => by rw [proceed_of_silent hs, proceed_nil]⟩
  | @paused n action rest t hs =>
      refine ⟨n + 1, fun f => ?_⟩
      rw [show n + 1 + f = n + (f + 1) by omega, proceed_of_silent hs]
      rfl

theorem Reaches.unique {o' : Outcome σ} (h : Reaches p s o) (h' : Reaches p s o') : o = o' := by
  obtain ⟨n, hn⟩ := proceed_of_reaches h
  obtain ⟨n', hn'⟩ := proceed_of_reaches h'
  have h1 := hn n'
  have h2 := hn' n
  rw [Nat.add_comm] at h2
  exact Option.some.inj (h1.symm.trans h2)

/-- Nothing silent happens at a pause or at the end. -/
def Halted (p : List (Stmt σ)) : Prop := p = [] ∨ ∃ action rest, p = .step action :: rest

theorem Silent.of_halted (hp : Halted p) (h : Silent n p s q t) : n = 0 := by
  rcases hp with rfl | ⟨action, rest, rfl⟩
  · cases h; rfl
  · cases h with
    | refl => rfl
    | cons hn _ => simp [Stmt.next] at hn

/-- A silent run that halts passes through every silent run from the same start. -/
theorem Silent.split {q' : List (Stmt σ)} {t' : σ} (h : Silent n p s q' t') :
    ∀ {k : Nat} {q : List (Stmt σ)} {t : σ}, Silent k p s q t → Halted q →
      n ≤ k ∧ Silent (k - n) q' t' q t := by
  induction h with
  | refl p s => intro k q t hk _; exact ⟨Nat.zero_le _, hk⟩
  | @cons n st p q' s t' hp hr ih =>
      intro k q t hk hq
      cases hk with
      | refl => exact absurd (Silent.of_halted hq (.cons hp hr)) (by omega)
      | @cons k' _ _ _ _ _ _ hr' =>
          obtain ⟨hle, hs⟩ := ih hr' hq
          exact ⟨by omega, by simpa using hs⟩

theorem Reaches.halts (h : Reaches p s o) : ∃ k q t, Silent k p s q t ∧ Halted q := by
  cases h with
  | ended hs => exact ⟨_, _, _, hs, .inl rfl⟩
  | paused hs => exact ⟨_, _, _, hs, .inr ⟨_, _, rfl⟩⟩

/-! ## The loop in `Continue` -/

/-- The machine that a call of `Continue` returns stands where the direct interpretation does. -/
inductive Shows (p : List (Stmt σ)) : Machine σ → Outcome σ → Prop where
  | ended {x : List Nat} {r : Bool} {t : σ} : Shows p ⟨[], x, r, false, t⟩ (.ended t)
  | paused {x : List Nat} {r : Bool} {t : σ} {j : Nat} {path : List Nat} {f : Bool}
      {rest : List (Stmt σ)} (hp : At p j path f rest) :
      Shows p ⟨j :: path, x, r, false, t⟩ (.paused rest t)

theorem Shows.state_eq (h : Shows p m o) : m.state = o.state := by
  cases h <;> rfl

theorem Shows.finished_eq (h : Shows p m o) : m.finished = o.isEnded := by
  cases h <;> rfl

theorem Shows.overflow_eq (h : Shows p m o) : m.overflow = false := by
  cases h <;> rfl

/-- The end of `Continue`. -/
def leave (m : Machine σ) : Machine σ := if m.finished then m else m.executeNextStep

theorem passes_succ (p : List (Stmt σ)) (m : Machine σ) (n : Nat) : passes p (n + 1) m
    = if (m.pass p).repeating then passes p n (m.pass p) else some (m.pass p) := rfl

section

variable {p : List (Stmt σ)} (hd : contextDepth p ≤ 8) (hw : positions p < 256) {fresh : Bool}

include hd hw

theorem passes_sound {rest : List (Stmt σ)} (hround : Round p fresh rest s false (m.pass p))
    (h : passes p rounds m = some m') :
    ∃ o, Reaches rest s o ∧ Shows p (leave m') o := by
  induction rounds generalizing m fresh rest s with
  | zero => cases h
  | succ rounds ih =>
      rw [passes] at h
      generalize m.pass p = m₁ at hround h
      cases hround with
      | done hs =>
          cases h
          exact ⟨_, .ended hs, .ended⟩
      | again hs hn hp =>
          obtain ⟨o, ho, hshow⟩ := ih (pass_at hd hw hp) h
          exact ⟨o, ho.prepend hs, hshow⟩
      | @paused n j x path rest' action t f hs ha hx hp =>
          cases h
          refine ⟨_, .paused hs, ?_⟩
          have : leave (⟨x, [], false, false, action t⟩ : Machine σ)
              = ⟨j :: path, [], false, false, action t⟩ := by
            simp only [leave, finished, List.isEmpty_iff, hx, if_false,
              executeNextStep]
            rw [← ha]
            rfl
          rw [this]
          exact .paused hp

theorem passes_complete {rest : List (Stmt σ)}
    (hround : Round p fresh rest s false (m.pass p)) (hk : Silent k rest s q t) (hq : Halted q) :
    ∃ rounds m', passes p rounds m = some m' := by
  induction k using Nat.strong_induction_on generalizing m fresh rest s with
  | _ k ih =>
      -- a round that starts at the head of a loop takes at least one step
      have main : ∀ {m : Machine σ} {fresh : Bool} {rest : List (Stmt σ)} {s : σ},
          Round p fresh rest s false (m.pass p) → Silent k rest s q t → fresh = true →
          ∃ rounds m', passes p rounds m = some m' := by
        intro m fresh rest s hround hk hf
        have hpasses := passes_succ p m
        generalize m.pass p = m₁ at hround hpasses
        cases hround with
        | done hs => exact ⟨1, _, hpasses 0⟩
        | paused hs ha hx hp => exact ⟨1, _, hpasses 0⟩
        | @again n j path rest' t' hs hn hp =>
            obtain ⟨hle, hrest⟩ := hs.split hk hq
            have hn' := hn hf
            obtain ⟨rounds, m', hm'⟩ := ih (k - n) (by omega) (pass_at hd hw hp) hrest
            exact ⟨rounds + 1, m', (hpasses rounds).trans hm'⟩
      have hpasses := passes_succ p m
      generalize m.pass p = m₁ at hround hpasses
      cases hround with
      | done hs => exact ⟨1, _, hpasses 0⟩
      | paused hs ha hx hp => exact ⟨1, _, hpasses 0⟩
      | @again n j path rest' t' hs hn hp =>
          obtain ⟨hle, hrest⟩ := hs.split hk hq
          obtain ⟨rounds, m', hm'⟩ : ∃ rounds m', passes p rounds
              (⟨j :: path, [], true, false, t'⟩ : Machine σ) = some m' := by
            rcases Nat.eq_zero_or_pos n with rfl | hpos
            · exact main (pass_at hd hw hp) hrest rfl
            · exact ih (k - n) (by omega) (pass_at hd hw hp) hrest
          exact ⟨rounds + 1, m', (hpasses rounds).trans hm'⟩

/-- While the loop is busy, the direct interpretation takes steps as well, at least one per
round but the first. -/
theorem passes_busy {rest : List (Stmt σ)}
    (hround : Round p fresh rest s false (m.pass p)) (hstate : m.state = s)
    (h : passes p k m = none) :
    ∃ n rest', Silent n rest s rest' ((pass p)^[k] m).state ∧ k ≤ n + 1 ∧
      (fresh = true → k ≤ n) := by
  induction k generalizing m fresh rest s with
  | zero => exact ⟨0, rest, by simpa [hstate] using Silent.refl rest s, by omega, by omega⟩
  | succ k ih =>
      rw [Function.iterate_succ_apply]
      rw [passes] at h
      generalize m.pass p = m₁ at hround h
      cases hround with
      | done hs => simp at h
      | paused hs ha hx hp => simp at h
      | again hs hn hp =>
          obtain ⟨n', rest', hs', hle, hf⟩ := ih (pass_at hd hw hp) rfl (by simpa using h)
          have hfresh := hf rfl
          exact ⟨_, rest', hs.trans hs', by omega, fun hfr => by have := hn hfr; omega⟩

/-- The machine that `Load` or `Continue` is called on, and where its loop starts. -/
theorem round_of_shows {rest : List (Stmt σ)} (h : Shows p m (.paused rest s)) :
    ∃ fresh, Round p fresh rest s false (m.enter.pass p) ∧ m.enter.state = s := by
  cases h with
  | paused hp => exact ⟨_, pass_at hd hw hp, rfl⟩

theorem callContinue_sound
    {rest : List (Stmt σ)} (hround : Round p fresh rest s false (m.enter.pass p))
    (h : callContinue p rounds m = some m') : ∃ o, Reaches rest s o ∧ Shows p m' o := by
  obtain ⟨m₁, h₁, rfl⟩ := Option.map_eq_some_iff.mp h
  exact passes_sound hd hw hround h₁

theorem callContinue_complete {rest : List (Stmt σ)}
    (hround : Round p fresh rest s false (m.enter.pass p)) (h : Reaches rest s o) :
    ∃ rounds m', callContinue p rounds m = some m' ∧ Shows p m' o := by
  obtain ⟨k, q, t, hk, hq⟩ := h.halts
  obtain ⟨rounds, m₁, h₁⟩ := passes_complete hd hw hround hk hq
  have hc : callContinue p rounds m = some (leave m₁) := by
    rw [callContinue, h₁]; rfl
  obtain ⟨o', ho', hshow⟩ := callContinue_sound hd hw hround hc
  rw [ho'.unique h] at hshow
  exact ⟨rounds, _, hc, hshow⟩

end

/-! ## Runs -/

theorem passes_mono (h : passes p n m = some m') : passes p (n + k) m = some m' := by
  induction n generalizing m with
  | zero => cases h
  | succ n ih =>
      rw [show n + 1 + k = n + k + 1 by omega, passes]
      rw [passes] at h
      split at h
      · rename_i hr; rw [if_pos hr]; exact ih h
      · rename_i hr; rw [if_neg hr]; exact h

theorem callContinue_mono (h : callContinue p n m = some m') :
    callContinue p (n + k) m = some m' := by
  obtain ⟨m₁, h₁, rfl⟩ := Option.map_eq_some_iff.mp h
  rw [callContinue, passes_mono h₁]
  rfl

theorem run_mono (h : run p r s n = some m) : run p (r + k) s n = some m := by
  induction n generalizing m with
  | zero => exact callContinue_mono h
  | succ n ih =>
      obtain ⟨m₁, h₁, h₂⟩ := Option.bind_eq_some_iff.mp h
      rw [run, ih h₁]
      simp only [Option.bind_some]
      split at h₂
      · rename_i hf; rw [if_pos hf]; exact h₂
      · rename_i hf; rw [if_neg hf]; exact callContinue_mono h₂

theorem proceed_mono (h : proceed n p s = some o) : proceed (n + k) p s = some o := by
  induction n generalizing p s with
  | zero =>
      cases p with
      | nil => rw [proceed_nil] at h ⊢; exact h
      | cons st p => cases h
  | succ n ih =>
      cases p with
      | nil => rw [proceed_nil] at h ⊢; exact h
      | cons st p =>
          rw [show n + 1 + k = n + k + 1 by omega, proceed]
          rw [proceed] at h
          split at h
          · rename_i hr; rw [if_pos hr]; exact h
          · rename_i hr; rw [if_neg hr]; exact ih h

/-- One resumption of the direct interpretation. -/
def Outcome.resumed (steps : Nat) : Outcome σ → Option (Outcome σ)
  | .paused rest s => proceed steps rest s
  | .ended s => some (.ended s)

theorem interpretation_succ (p : List (Stmt σ)) (steps : Nat) (s : σ) (n : Nat) :
    interpretation p steps s (n + 1)
      = (interpretation p steps s n).bind (Outcome.resumed steps) := by
  rw [interpretation]
  congr 1

theorem interpretation_mono
    (h : interpretation p r s n = some o) : interpretation p (r + k) s n = some o := by
  induction n generalizing o with
  | zero => exact proceed_mono h
  | succ n ih =>
      rw [interpretation_succ] at h ⊢
      obtain ⟨o₁, h₁, h₂⟩ := Option.bind_eq_some_iff.mp h
      rw [ih h₁]
      cases o₁ with
      | paused rest t => exact proceed_mono h₂
      | ended t => exact h₂

theorem interpretation_of_reaches {rest : List (Stmt σ)}
    (h : interpretation p r s n = some (.paused rest t)) (ho : Reaches rest t o) :
    ∃ r', interpretation p r' s (n + 1) = some o := by
  obtain ⟨k, hk⟩ := proceed_of_reaches ho
  refine ⟨r + k, ?_⟩
  rw [interpretation_succ, interpretation_mono h]
  show proceed (r + k) rest t = some o
  rw [Nat.add_comm]
  exact hk r

section

variable {p : List (Stmt σ)} (hd : contextDepth p ≤ 8) (hw : positions p < 256)

include hd hw

theorem run_sound (h : run p rounds s n = some m) :
    ∃ steps o, interpretation p steps s n = some o ∧ Shows p m o := by
  induction n generalizing m with
  | zero =>
      obtain ⟨o, ho, hshow⟩ := callContinue_sound (m := ⟨[], [], false, false, s⟩) hd hw
        (pass_start hd hw) h
      obtain ⟨k, hk⟩ := proceed_of_reaches ho
      exact ⟨k, o, hk 0, hshow⟩
  | succ n ih =>
      obtain ⟨m₁, h₁, h₂⟩ := Option.bind_eq_some_iff.mp h
      obtain ⟨steps, o₁, ho₁, hshow₁⟩ := ih h₁
      rw [hshow₁.finished_eq] at h₂
      cases o₁ with
      | ended t =>
          cases h₂
          refine ⟨steps, .ended t, ?_, hshow₁⟩
          rw [interpretation_succ, ho₁]
          rfl
      | paused rest t =>
          obtain ⟨fresh, hround, -⟩ := round_of_shows hd hw hshow₁
          obtain ⟨o, ho, hshow⟩ := callContinue_sound hd hw hround h₂
          obtain ⟨steps', hs'⟩ := interpretation_of_reaches ho₁ ho
          exact ⟨steps', o, hs', hshow⟩

theorem run_complete {steps : Nat} (h : interpretation p steps s n = some o) :
    ∃ rounds m, run p rounds s n = some m ∧ Shows p m o := by
  induction n generalizing o with
  | zero =>
      exact callContinue_complete (m := ⟨[], [], false, false, s⟩) hd hw (pass_start hd hw)
        (reaches_of_proceed h)
  | succ n ih =>
      rw [interpretation_succ] at h
      obtain ⟨o₁, h₁, h₂⟩ := Option.bind_eq_some_iff.mp h
      obtain ⟨rounds, m₁, hm₁, hshow₁⟩ := ih h₁
      cases o₁ with
      | ended t =>
          cases h₂
          refine ⟨rounds, m₁, ?_, hshow₁⟩
          rw [run, hm₁, Option.bind_some, hshow₁.finished_eq]
          rfl
      | paused rest t =>
          obtain ⟨fresh, hround, -⟩ := round_of_shows hd hw hshow₁
          obtain ⟨rounds', m, hm, hshow⟩ := callContinue_complete hd hw hround
            (reaches_of_proceed h₂)
          refine ⟨rounds + rounds', m, ?_, hshow⟩
          rw [run, run_mono hm₁, Option.bind_some, hshow₁.finished_eq]
          show callContinue p (rounds + rounds') m₁ = some m
          rw [Nat.add_comm]
          exact callContinue_mono hm

end

/-- The direct interpretation from the point at which call number `n` starts (call `0` is `Load`,
the others are `Continue`). -/
def interpretationFrom (p : List (Stmt σ)) (steps : Nat) (s : σ) :
    Nat → Option (List (Stmt σ) × σ)
  | 0 => some (p, s)
  | n + 1 => (interpretation p steps s n).bind (fun
      | .paused rest t => some (rest, t)
      | .ended _ => none)

/-- The machine with which the loop of call number `n` starts. -/
def Machine.runFrom (p : List (Stmt σ)) (rounds : Nat) (s : σ) : Nat → Option (Machine σ)
  | 0 => some (enter { state := s })
  | n + 1 => (run p rounds s n).bind (fun m => if m.finished then none else some m.enter)

theorem interpret_of_silent (h : Silent n p s q t) : interpret n p s = ([], q, t) := by
  induction h with
  | refl p s => rfl
  | cons hp _ ih => rw [interpret, ih, hp]; rfl

/-- **The sequencer refines structured control flow.** For every sequence function with at most
eight contexts and fewer than 256 positions in each of them, and every number `n` of calls of
`Continue` after `Load`:

* the sequencer returns from the last of these calls in state `t`, finished or not, if and only
  if the direct interpretation pauses there in state `t`, ended or not;
* no context stack overflows;
* while the loop of a call is busy for `k` rounds it is in the state of the direct interpretation
  after at least `k - 1` steps without a pause. -/
theorem sequencer_refines_interpretation (p : List (Stmt σ)) (hd : contextDepth p ≤ 8)
    (hw : positions p < 256) (s : σ) (n : Nat) :
    (∀ t done, (∃ rounds m, run p rounds s n = some m ∧ m.state = t ∧ m.finished = done) ↔
      ∃ steps o, interpretation p steps s n = some o ∧ o.state = t ∧ o.isEnded = done) ∧
    (∀ rounds m, run p rounds s n = some m → m.overflow = false) ∧
    (∀ rounds m k, runFrom p rounds s n = some m → passes p k m = none →
      ∃ steps rest t j rest', interpretationFrom p steps s n = some (rest, t) ∧ k ≤ j + 1 ∧
        interpret j rest t = ([], rest', ((pass p)^[k] m).state)) := by
  refine ⟨fun t done => ⟨?_, ?_⟩, ?_, ?_⟩
  · rintro ⟨rounds, m, hm, rfl, rfl⟩
    obtain ⟨steps, o, ho, hshow⟩ := run_sound hd hw hm
    exact ⟨steps, o, ho, hshow.state_eq.symm, hshow.finished_eq.symm⟩
  · rintro ⟨steps, o, ho, rfl, rfl⟩
    obtain ⟨rounds, m, hm, hshow⟩ := run_complete hd hw ho
    exact ⟨rounds, m, hm, hshow.state_eq, hshow.finished_eq⟩
  · intro rounds m hm
    obtain ⟨steps, o, ho, hshow⟩ := run_sound hd hw hm
    exact hshow.overflow_eq
  · intro rounds m k hm hk
    cases n with
    | zero =>
        cases hm
        obtain ⟨j, rest', hs, hj, -⟩ := passes_busy hd hw (pass_start hd hw) rfl hk
        exact ⟨0, p, s, j, rest', rfl, hj, interpret_of_silent hs⟩
    | succ n =>
        obtain ⟨m₁, h₁, h₂⟩ := Option.bind_eq_some_iff.mp hm
        obtain ⟨steps, o, ho, hshow⟩ := run_sound hd hw h₁
        rw [hshow.finished_eq] at h₂
        cases o with
        | ended t => cases h₂
        | paused rest t =>
            cases h₂
            obtain ⟨fresh, hround, hstate⟩ := round_of_shows hd hw hshow
            obtain ⟨j, rest', hs, hj, -⟩ := passes_busy hd hw hround hstate hk
            refine ⟨steps, rest, t, j, rest', ?_, hj, interpret_of_silent hs⟩
            rw [interpretationFrom, ho]
            rfl

/-- Two steps in a loop, and an action after the loop. -/
def countToTwo : List (Stmt Nat) :=
  [.whileLoop (test (· < 2)) [.step (· + 1)], .execute (· * 10)]

/-- `Load` performs the first step of `countToTwo`, the first `Continue` the second one; the second
`Continue` leaves the loop, performs the action and finishes. -/
theorem countToTwo_finishes : contextDepth countToTwo ≤ 8 ∧ positions countToTwo < 256 ∧
    ∃ rounds m, run countToTwo rounds 0 2 = some m ∧ m.state = 20 ∧ m.finished = true := by
  have hd : contextDepth countToTwo ≤ 8 := by decide
  have hw : positions countToTwo < 256 := by decide
  refine ⟨hd, hw, ((sequencer_refines_interpretation countToTwo hd hw 0 2).1 20 true).mpr ?_⟩
  exact ⟨4, .ended 20, rfl, rfl, rfl⟩

end EmbeddedInfra.Sequencer
