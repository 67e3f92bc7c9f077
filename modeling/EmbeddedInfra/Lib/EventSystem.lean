import Mathlib.Tactic

set_option autoImplicit false

/-! # Systems that take events

A system is a step function on states, `none` for an event that cannot happen. What holds of one state
and is kept by every step holds along a run; `Along` says of the steps of a run that they all meet a
condition.
-/

namespace EventSystem

variable {σ ε : Type} (step : σ → ε → Option σ)

/-- The state after a list of events. -/
def run : σ → List ε → Option σ
  | s, [] => some s
  | s, e :: rest => (step s e).bind fun s' => run s' rest

/-- Every step of the run meets the condition. -/
def Along (cond : σ → ε → Prop) : σ → List ε → Prop
  | _, [] => True
  | s, e :: rest => cond s e ∧ ∀ s', step s e = some s' → Along cond s' rest

/-- The property holds in every state of the run. -/
def Always (good : σ → Prop) (s : σ) (events : List ε) : Prop :=
  ∀ earlier, earlier <+: events → ∀ s', run step s earlier = some s' → good s'

/-- Some run leads from one state to the other, with steps that meet the condition. -/
def Leads (cond : σ → ε → Prop) (s s' : σ) : Prop :=
  ∃ events, Along step cond s events ∧ run step s events = some s'

variable {step} {s s' : σ} {e : ε} {rest events : List ε} {good : σ → Prop}
  {cond : σ → ε → Prop}

@[simp] theorem run_nil : run step s [] = some s := rfl

theorem run_cons :
    run step s (e :: rest) = some s' ↔ ∃ m, step s e = some m ∧ run step m rest = some s' :=
  Option.bind_eq_some_iff

theorem run_append {first second : List ε} :
    run step s (first ++ second) = some s' ↔ ∃ m, run step s first = some m ∧ run step m second = some s' := by
  induction first generalizing s with
  | nil => simp [run]
  | cons e rest ih =>
      simp only [List.cons_append, run_cons, ih]
      grind

/-- The invariant rule: what every step keeps holds at the end of a run. -/
theorem run_invariant (inv : σ → Prop) (hstep : ∀ s e s', inv s → step s e = some s' → inv s')
    (h : run step s events = some s') (hs : inv s) : inv s' := by
  induction events generalizing s with
  | nil =>
      cases h
      exact hs
  | cons e rest ih =>
      obtain ⟨m, hm, hrest⟩ := run_cons.mp h
      exact ih hrest (hstep s e m hs hm)

/-- The invariant rule for steps that meet a condition. -/
theorem run_invariant_along (inv : σ → Prop)
    (hstep : ∀ s e s', inv s → cond s e → step s e = some s' → inv s')
    (hcond : Along step cond s events) (h : run step s events = some s') (hs : inv s) :
    inv s' := by
  induction events generalizing s with
  | nil =>
      cases h
      exact hs
  | cons e rest ih =>
      obtain ⟨m, hm, hrest⟩ := run_cons.mp h
      exact ih (hcond.2 m hm) hrest (hstep s e m hs hcond.1 hm)

/-- The invariant rule for steps that are possible whenever they meet a condition. -/
theorem run_along (inv : σ → Prop)
    (hstep : ∀ s e, inv s → cond s e → ∃ s', step s e = some s' ∧ inv s')
    (hcond : Along step cond s events) (hs : inv s) :
    ∃ s', run step s events = some s' ∧ inv s' := by
  induction events generalizing s with
  | nil => exact ⟨s, rfl, hs⟩
  | cons e rest ih =>
      obtain ⟨m, hm, hinv⟩ := hstep s e hs hcond.1
      obtain ⟨s', hrun, hs'⟩ := ih (hcond.2 m hm) hinv
      exact ⟨s', run_cons.mpr ⟨m, hm, hrun⟩, hs'⟩

/-- The simulation rule: when every step of one system is matched by a step of the other, so is every run. -/
theorem run_simulates {τ : Type} {specStep : τ → ε → Option τ} (related : τ → σ → Prop)
    (hstep : ∀ t s e t', related t s → specStep t e = some t' → ∃ s', step s e = some s' ∧ related t' s')
    {t t' : τ} (h : run specStep t events = some t') (hs : related t s) :
    ∃ s', run step s events = some s' ∧ related t' s' := by
  induction events generalizing t s with
  | nil =>
      cases h
      exact ⟨s, rfl, hs⟩
  | cons e rest ih =>
      obtain ⟨m, hm, hrest⟩ := run_cons.mp h
      obtain ⟨n, hn, hrelated⟩ := hstep t s e m hs hm
      obtain ⟨s', hrun, hs'⟩ := ih hrest hrelated
      exact ⟨s', run_cons.mpr ⟨n, hn, hrun⟩, hs'⟩

theorem along_cons {m : σ} (hm : step s e = some m) (hc : cond s e)
    (hrest : Along step cond m rest) : Along step cond s (e :: rest) := by
  refine ⟨hc, ?_⟩
  intro m' hm'
  cases hm.symm.trans hm'
  exact hrest

theorem along_of_forall (h : ∀ e ∈ events, ∀ s, cond s e) : Along step cond s events := by
  induction events generalizing s with
  | nil => trivial
  | cons e rest ih => exact ⟨h e List.mem_cons_self s, fun m _ => ih fun e' he' => h e' (List.mem_cons_of_mem e he')⟩

theorem along_of_earlier {earlier : List ε} (h : Along step cond s events)
    (hp : earlier <+: events) : Along step cond s earlier := by
  induction events generalizing s earlier with
  | nil =>
      rw [List.prefix_nil.mp hp]
      trivial
  | cons e rest ih =>
      cases earlier with
      | nil => trivial
      | cons e' earlier =>
          obtain ⟨rfl, hrest⟩ := List.cons_prefix_cons.mp hp
          exact ⟨h.1, fun m hm => ih (h.2 m hm) hrest⟩

/-- A condition on the events alone. -/
theorem along_iff_forall {p : ε → Prop} (h : run step s events = some s') :
    Along step (fun _ e => p e) s events ↔ ∀ e ∈ events, p e := by
  induction events generalizing s with
  | nil => simp [Along]
  | cons e rest ih =>
      obtain ⟨m, hm, hrest⟩ := run_cons.mp h
      rw [List.forall_mem_cons, ← ih hrest]
      constructor
      · rintro ⟨he, hall⟩
        exact ⟨he, hall m hm⟩
      · rintro ⟨he, hall⟩
        exact along_cons hm he hall

theorem always_cons :
    Always step good s (e :: rest) ↔ good s ∧ ∀ m, step s e = some m → Always step good m rest := by
  constructor
  · intro h
    refine ⟨h [] List.nil_prefix s rfl, ?_⟩
    intro m hm earlier hp s' hs'
    exact h (e :: earlier) (List.cons_prefix_cons.mpr ⟨rfl, hp⟩) s' (run_cons.mpr ⟨m, hm, hs'⟩)
  · rintro ⟨hs, hall⟩ earlier hp s' hs'
    cases earlier with
    | nil =>
        cases hs'
        exact hs
    | cons e' earlier =>
        obtain ⟨rfl, hrest⟩ := List.cons_prefix_cons.mp hp
        obtain ⟨m, hm, hs'⟩ := run_cons.mp hs'
        exact hall m hm earlier hrest s' hs'

/-- **A property that a step keeps if and only if it meets a condition** holds along a whole run if and
only if all steps of the run meet it. `inv` is what else holds in the states in which the property does. -/
theorem always_iff_along (inv : σ → Prop) (hgood : ∀ s, inv s → good s)
    (hkeep : ∀ s e s', inv s → cond s e → step s e = some s' → inv s')
    (hbreak : ∀ s e s', inv s → ¬ cond s e → step s e = some s' → ¬ good s')
    (hs : inv s) (h : run step s events = some s') :
    Always step good s events ↔ Along step cond s events := by
  induction events generalizing s with
  | nil =>
      refine ⟨fun _ => trivial, ?_⟩
      intro _ earlier hp m hm
      rw [List.prefix_nil.mp hp] at hm
      cases hm
      exact hgood s hs
  | cons e rest ih =>
      obtain ⟨m, hm, hrest⟩ := run_cons.mp h
      rw [always_cons]
      constructor
      · rintro ⟨-, hall⟩
        have hm' := hall m hm
        have hc : cond s e := by
          by_contra hn
          exact hbreak s e m hs hn hm (hm' [] List.nil_prefix m rfl)
        refine ⟨hc, ?_⟩
        intro m' hm''
        cases hm.symm.trans hm''
        exact (ih (hkeep s e m hs hc hm) hrest).mp hm'
      · rintro ⟨hc, hall⟩
        refine ⟨hgood s hs, ?_⟩
        intro m' hm''
        cases hm.symm.trans hm''
        exact (ih (hkeep s e m hs hc hm) hrest).mpr (hall m hm)

/-- The same rule for steps that have no result when they go wrong: a run of possible events has a result and
the property in every state if and only if all its steps meet the condition. -/
theorem run_always_iff_along (inv : σ → Prop) {possible : σ → ε → Prop}
    (hgood : ∀ s, inv s → good s)
    (hkeep : ∀ s e, inv s → possible s e → cond s e → ∃ s', step s e = some s' ∧ inv s')
    (hbreak : ∀ s e s', inv s → possible s e → ¬ cond s e → step s e = some s' → ¬ good s')
    (hs : inv s) (hpossible : Along step possible s events) :
    ((∃ s', run step s events = some s') ∧ Always step good s events) ↔ Along step cond s events := by
  induction events generalizing s with
  | nil =>
      refine ⟨fun _ => trivial, fun _ => ⟨⟨s, rfl⟩, ?_⟩⟩
      intro earlier hp m hm
      rw [List.prefix_nil.mp hp] at hm
      cases hm
      exact hgood s hs
  | cons e rest ih =>
      constructor
      · rintro ⟨⟨s', hrun⟩, halways⟩
        obtain ⟨m, hm, hrest⟩ := run_cons.mp hrun
        have hm' := (always_cons.mp halways).2 m hm
        have hc : cond s e := by
          by_contra hn
          exact hbreak s e m hs hpossible.1 hn hm (hm' [] List.nil_prefix m rfl)
        obtain ⟨m', hm'', hinv⟩ := hkeep s e hs hpossible.1 hc
        cases hm.symm.trans hm''
        exact along_cons hm hc ((ih hinv (hpossible.2 m hm)).mp ⟨⟨s', hrest⟩, hm'⟩)
      · rintro ⟨hc, hall⟩
        obtain ⟨m, hm, hinv⟩ := hkeep s e hs hpossible.1 hc
        obtain ⟨⟨s', hrest⟩, halways⟩ := (ih hinv (hpossible.2 m hm)).mpr (hall m hm)
        refine ⟨⟨s', run_cons.mpr ⟨m, hm, hrest⟩⟩, always_cons.mpr ⟨hgood s hs, ?_⟩⟩
        intro m' hm'
        cases hm.symm.trans hm'
        exact halways

/-! ## Where a run can lead -/

variable {cond : σ → ε → Prop} {m : σ}

theorem Leads.refl : Leads step cond s s := ⟨[], trivial, rfl⟩

theorem Leads.cons (h : Leads step cond m s') (hc : cond s e) (hm : step s e = some m) : Leads step cond s s' := by
  obtain ⟨events, halong, hrun⟩ := h
  exact ⟨e :: events, along_cons hm hc halong, run_cons.mpr ⟨m, hm, hrun⟩⟩

theorem Leads.trans (h : Leads step cond s m) (h' : Leads step cond m s') : Leads step cond s s' := by
  obtain ⟨events, halong, hrun⟩ := h
  induction events generalizing s with
  | nil =>
      cases hrun
      exact h'
  | cons e events ih =>
      obtain ⟨n, hn, hrest⟩ := run_cons.mp hrun
      exact (ih (halong.2 n hn) hrest).cons halong.1 hn

/-- The rule of descent: what can always come nearer to its goal can reach it. -/
theorem leads_of_descent (measure : σ → Nat) (inv goal : σ → Prop)
    (hdescent : ∀ s, inv s → ¬ goal s → ∃ m, Leads step cond s m ∧ inv m ∧ measure m < measure s) (hs : inv s) :
    ∃ s', Leads step cond s s' ∧ inv s' ∧ goal s' := by
  induction hn : measure s using Nat.strong_induction_on generalizing s with
  | _ n ih =>
      by_cases hgoal : goal s
      · exact ⟨s, .refl, hs, hgoal⟩
      · obtain ⟨m, hleads, hm, hless⟩ := hdescent s hs hgoal
        obtain ⟨s', hleads', hs'⟩ := ih _ (hn ▸ hless) hm rfl
        exact ⟨s', hleads.trans hleads', hs'⟩

end EventSystem
