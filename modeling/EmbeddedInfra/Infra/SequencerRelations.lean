import EmbeddedInfra.Infra.SequencerRuns

set_option autoImplicit false

/-! # What runs are made of

A run of a sequence function consists of runs of its parts: the lemmas of `Runs` read in the other direction. With
them one run can be followed from two states (`Relates`), and a loop is an iteration of its body.
-/

namespace EmbeddedInfra.Sequencer

variable {σ : Type} {p q body : List (Stmt σ)} {branches : Branches σ} {s s' t u : σ} {pauses : List σ}
  {action : σ → σ} {c : σ → Bool}

/-! ## Parts of a run -/

theorem runs_nil : Runs [] s pauses t ↔ pauses = [] ∧ t = s := by
  constructor
  · intro h
    exact ⟨(Runs.unique h (Runs.nil s)).1, (Runs.unique h (Runs.nil s)).2⟩
  · rintro ⟨rfl, rfl⟩
    exact Runs.nil t

/-- The first statement is carried out, and the rest is a run. -/
theorem runs_cons {st : Stmt σ} {first : List (Stmt σ)} {paused : Bool} (hn : st.next s = (first, s', paused)) :
    Runs (st :: p) s pauses t ↔ ∃ rest, Runs (first ++ p) s' rest t ∧ pauses = if paused then s' :: rest else rest := by
  constructor
  · rintro ⟨n, hr⟩
    have h := hr []
    rw [List.append_nil] at h
    cases n with
    | zero => cases (Prod.mk.inj (Prod.mk.inj h).2).1
    | succ n =>
        rw [interpret, hn] at h
        obtain ⟨hpauses, hrest⟩ := Prod.mk.inj h
        exact ⟨_, Runs.of_interpret (n := n) (Prod.ext rfl hrest), hpauses.symm⟩
  · rintro ⟨rest, hrest, rfl⟩
    cases paused with
    | true => exact Runs.pausing hn hrest
    | false => exact Runs.silent hn hrest

theorem runs_step : Runs (.step action :: p) s pauses t ↔
    ∃ rest, Runs p (action s) rest t ∧ pauses = action s :: rest :=
  runs_cons rfl

theorem runs_execute : Runs (.execute action :: p) s pauses t ↔ Runs p (action s) pauses t := by
  have hn : (Stmt.execute action).next s = ([], action s, false) := rfl
  rw [runs_cons hn]
  exact exists_eq_right'

theorem runs_ifBlock : Runs (.ifBlock (test c) body branches :: p) s pauses t ↔
    Runs ((if c s then body else branches.otherwise) ++ p) s pauses t := by
  have hn : (Stmt.ifBlock (test c) body branches).next s =
      (if c s then body else branches.otherwise, s, false) := rfl
  rw [runs_cons hn]
  exact exists_eq_right'

theorem runs_whileLoop : Runs (.whileLoop (test c) body :: p) s pauses t ↔
    Runs ((if c s then body ++ [.whileLoop (test c) body] else []) ++ p) s pauses t := by
  have hn : (Stmt.whileLoop (test c) body).next s =
      (if c s then body ++ [.whileLoop (test c) body] else [], s, false) := rfl
  rw [runs_cons hn]
  exact exists_eq_right'

/-- The direct interpretation of two sequences comes to the end of the first one on the way. -/
theorem interpret_append {n : Nat} (h : interpret n (p ++ q) s = (pauses, [], u)) :
    ∃ first t m rest, Runs p s first t ∧ m ≤ n ∧ interpret m q t = (rest, [], u) ∧ pauses = first ++ rest := by
  induction n generalizing p s pauses with
  | zero =>
      obtain ⟨rfl, hrest⟩ := Prod.mk.inj h
      obtain ⟨hnil, rfl⟩ := Prod.mk.inj hrest
      obtain ⟨rfl, rfl⟩ := List.append_eq_nil_iff.mp hnil
      exact ⟨[], s, 0, [], Runs.nil s, le_refl 0, rfl, rfl⟩
  | succ n ih =>
      cases p with
      | nil => exact ⟨[], s, n + 1, pauses, Runs.nil s, le_refl _, h, rfl⟩
      | cons st p =>
          rw [List.cons_append, interpret] at h
          rcases hst : st.next s with ⟨first, s', paused⟩
          rw [hst] at h
          obtain ⟨hpauses, hrest⟩ := Prod.mk.inj h
          dsimp only at hpauses hrest
          rw [← List.append_assoc] at hrest hpauses
          have hinner : interpret n (first ++ p ++ q) s' = ((interpret n (first ++ p ++ q) s').1, [], u) :=
            Prod.ext rfl hrest
          obtain ⟨front, t, m, rest, hruns, hm, hq, heq⟩ := ih hinner
          rw [heq] at hpauses
          refine ⟨_, t, m, rest, (runs_cons hst).mpr ⟨front, hruns, rfl⟩, hm.trans (Nat.le_succ n), hq, ?_⟩
          rw [← hpauses]
          cases paused
          all_goals rfl

/-- A run of two sequences is a run of each of them. -/
theorem runs_append : Runs (p ++ q) s pauses u ↔
    ∃ first t rest, Runs p s first t ∧ Runs q t rest u ∧ pauses = first ++ rest := by
  constructor
  · rintro ⟨n, hr⟩
    have h := hr []
    rw [List.append_nil] at h
    obtain ⟨first, t, m, rest, hp, -, hq, heq⟩ := interpret_append h
    exact ⟨first, t, rest, hp, Runs.of_interpret hq, heq⟩
  · rintro ⟨first, t, rest, hp, hq, rfl⟩
    exact hp.append hq

/-- **A loop is an iteration of its body**, when the body has a function as its effect. -/
theorem runs_while_iff {f : σ → σ} (hbody : ∀ s, ∃ pauses, Runs body s pauses (f s)) :
    (∃ pauses, Runs [.whileLoop (test c) body] s pauses t) ↔
      ∃ n, (∀ k < n, c (f^[k] s) = true) ∧ c (f^[n] s) = false ∧ f^[n] s = t := by
  constructor
  · rintro ⟨pauses, turns, hr⟩
    have h := hr []
    rw [List.append_nil] at h
    clear hr
    -- the induction is on what is left of the interpretation, which the body takes a part of
    induction turns using Nat.strong_induction_on generalizing s pauses with
    | _ turns ih =>
        cases turns with
        | zero => cases (Prod.mk.inj (Prod.mk.inj h).2).1
        | succ turns =>
            rw [interpret] at h
            obtain ⟨-, hrest⟩ := Prod.mk.inj h
            cases hc : c s with
            | false =>
                have hdone : Runs [] s _ t := Runs.of_interpret (n := turns) (Prod.ext rfl (by
                  simpa only [Stmt.next, test, hc, Bool.false_eq_true, if_false, List.append_nil] using hrest))
                exact ⟨0, fun k hk => absurd hk (Nat.not_lt_zero k), hc, ((runs_nil.mp hdone).2).symm⟩
            | true =>
                have hturn : interpret turns (body ++ [.whileLoop (test c) body]) s =
                    ((interpret turns (body ++ [.whileLoop (test c) body]) s).1, [], t) := Prod.ext rfl (by
                  simpa only [Stmt.next, test, hc, if_true, List.append_nil] using hrest)
                obtain ⟨first, t₁, m, rest, hfirst, hm, hloop, -⟩ := interpret_append hturn
                obtain ⟨pauses', hf⟩ := hbody s
                obtain rfl : t₁ = f s := (Runs.unique hfirst hf).2
                obtain ⟨n, hbefore, hend, heq⟩ := ih m (Nat.lt_succ_of_le hm) rest hloop
                refine ⟨n + 1, fun k hk => ?_, hend, heq⟩
                cases k with
                | zero => exact hc
                | succ k => exact hbefore k (Nat.lt_of_succ_lt_succ hk)
  · rintro ⟨n, hbefore, hend, rfl⟩
    induction n generalizing s with
    | zero => exact ⟨[], Runs.whileFalse hend (Runs.nil s)⟩
    | succ n ih =>
        obtain ⟨first, hfirst⟩ := hbody s
        obtain ⟨rest, hrest⟩ := @ih (f s) (fun k hk => hbefore (k + 1) (Nat.succ_lt_succ hk)) hend
        exact ⟨_, Runs.whileTrue (hbefore 0 (Nat.succ_pos n)) (hfirst.append hrest)⟩

/-- The first turn of a loop, and the rest of it. -/
theorem EndsIn.turn {I : σ → Prop} (h : EndsIn I [.whileLoop (test c) body] s t) (hc : c s = true) :
    ∃ u, EndsIn I body s u ∧ EndsIn I [.whileLoop (test c) body] u t := by
  obtain ⟨pauses, hruns, hI⟩ := h
  have hruns := runs_whileLoop.mp hruns
  rw [hc, if_pos rfl, List.append_nil] at hruns
  obtain ⟨first, u, rest, hfirst, hrest, rfl⟩ := runs_append.mp hruns
  exact ⟨u, ⟨first, hfirst, fun x hx => hI x (List.mem_append_left _ hx)⟩,
    ⟨rest, hrest, fun x hx => hI x (List.mem_append_right _ hx)⟩⟩

/-- A loop whose condition does not hold has come to its end. -/
theorem EndsIn.stopped {I : σ → Prop} (h : EndsIn I [.whileLoop (test c) body] s t) (hc : c s = false) : t = s := by
  obtain ⟨pauses, hruns, -⟩ := h
  exact (Runs.unique hruns (Runs.whileFalse hc (Runs.nil s))).2

/-! ## Sequences that come to their end -/

/-- The sequence comes to its end from every state. -/
def Ended (p : List (Stmt σ)) : Prop := ∀ s, ∃ pauses t, Runs p s pauses t

theorem ended_nil : Ended ([] : List (Stmt σ)) := fun s => ⟨[], s, Runs.nil s⟩

theorem Ended.append (hp : Ended p) (hq : Ended q) : Ended (p ++ q) := by
  intro s
  obtain ⟨first, t, hfirst⟩ := hp s
  obtain ⟨rest, u, hrest⟩ := hq t
  exact ⟨_, u, hfirst.append hrest⟩

theorem Ended.step (hp : Ended p) : Ended (.step action :: p) := by
  intro s
  obtain ⟨pauses, t, h⟩ := hp (action s)
  exact ⟨_, t, h.step⟩

theorem Ended.ifBlock (hbody : Ended body) (hother : Ended branches.otherwise) (hp : Ended p) :
    Ended (.ifBlock (test c) body branches :: p) := by
  intro s
  cases hc : c s with
  | true =>
      obtain ⟨pauses, t, h⟩ := hbody.append hp s
      exact ⟨_, t, Runs.ifTrue hc h⟩
  | false =>
      obtain ⟨pauses, t, h⟩ := hother.append hp s
      exact ⟨_, t, Runs.ifFalse hc h⟩

/-! ## What holds afterwards -/

/-- A run from a state with `P` ends in a state with `Q`. -/
def Ensures (P Q : σ → Prop) (p : List (Stmt σ)) : Prop := ∀ s pauses t, P s → Runs p s pauses t → Q t

section Conditions

variable {P Q R : σ → Prop}

theorem ensures_nil : Ensures P P ([] : List (Stmt σ)) := by
  intro s pauses t hs hruns
  obtain ⟨-, rfl⟩ := runs_nil.mp hruns
  exact hs

theorem Ensures.append (hp : Ensures P Q p) (hq : Ensures Q R q) : Ensures P R (p ++ q) := by
  intro s pauses u hs hruns
  obtain ⟨first, t, rest, hfirst, hrest, -⟩ := runs_append.mp hruns
  exact hq t rest u (hp s first t hs hfirst) hrest

theorem Ensures.step (haction : ∀ s, P s → Q (action s)) (hp : Ensures Q R p) : Ensures P R (.step action :: p) := by
  intro s pauses t hs hruns
  obtain ⟨rest, hrest, -⟩ := runs_step.mp hruns
  exact hp _ rest t (haction s hs) hrest

theorem Ensures.ifBlock (hbody : Ensures (fun s => P s ∧ c s = true) Q body)
    (hother : Ensures (fun s => P s ∧ c s = false) Q branches.otherwise) (hp : Ensures Q R p) :
    Ensures P R (.ifBlock (test c) body branches :: p) := by
  intro s pauses t hs hruns
  have hruns := runs_ifBlock.mp hruns
  cases hc : c s with
  | true =>
      rw [hc, if_pos rfl] at hruns
      exact hbody.append hp s pauses t ⟨hs, hc⟩ hruns
  | false =>
      rw [hc, if_neg Bool.false_ne_true] at hruns
      exact hother.append hp s pauses t ⟨hs, hc⟩ hruns

theorem Ensures.weaken {P' Q' : σ → Prop} (h : Ensures P Q p) (hpre : ∀ s, P' s → P s) (hpost : ∀ s, Q s → Q' s) :
    Ensures P' Q' p := fun s pauses t hs hruns => hpost t (h s pauses t (hpre s hs) hruns)

end Conditions

/-! ## Invariants of the actions -/

/-- Every action keeps the invariant. -/
def Keeps (I : σ → Prop) (p : List (Stmt σ)) : Prop := Respects (fun s s' => s = s' ∧ I s) p

section Invariants

variable {I : σ → Prop}

/-- What every action keeps holds at the end of a run. -/
theorem Keeps.run (hp : Keeps I p) (hs : I s) (h : Runs p s pauses t) : I t := by
  obtain ⟨_, t', -, -, ht⟩ := h.related hp ⟨rfl, hs⟩
  exact ht

theorem keeps_nil : Keeps I ([] : List (Stmt σ)) := trivial

theorem Keeps.append (hp : Keeps I p) (hq : Keeps I q) : Keeps I (p ++ q) := Respects.append hp hq

theorem Keeps.step (hp : Keeps I p) (h : ∀ s, I s → I (action s)) : Keeps I (.step action :: p) := by
  refine ⟨?_, hp⟩
  rintro s s' ⟨rfl, hs⟩
  exact ⟨rfl, h s hs⟩

theorem Keeps.execute (hp : Keeps I p) (h : ∀ s, I s → I (action s)) : Keeps I (.execute action :: p) := by
  refine ⟨?_, hp⟩
  rintro s s' ⟨rfl, hs⟩
  exact ⟨rfl, h s hs⟩

/-- A condition that is only looked at -/
theorem agrees_same (I : σ → Prop) (c : σ → Bool) : Agrees (fun s s' => s = s' ∧ I s) (test c) := by
  rintro s s' ⟨rfl, hs⟩
  exact ⟨rfl, rfl, hs⟩

theorem Keeps.ifBlock (hp : Keeps I p) (hbody : Keeps I body) (hother : Keeps I branches.otherwise) :
    Keeps I (.ifBlock (test c) body branches :: p) := by
  refine ⟨⟨agrees_same I c, hbody, ?_⟩, hp⟩
  cases branches with
  | endIf => trivial
  | elseBlock other => exact hother
  | elseIf condition other rest => exact hother.1

theorem Keeps.whileLoop (hp : Keeps I p) (hbody : Keeps I body) : Keeps I (.whileLoop (test c) body :: p) :=
  ⟨⟨agrees_same I c, hbody⟩, hp⟩

theorem Keeps.forEach {v : Variable σ} {first last : UInt32} (hp : Keeps I p) (hbody : Keeps I body)
    (hset : ∀ i s, I s → I (v.set i s)) : Keeps I (.forEach v first last body :: p) := by
  refine ⟨⟨?_, ?_, hbody⟩, hp⟩
  · rintro i s s' ⟨rfl, hs⟩
    exact ⟨rfl, hset i s hs⟩
  · rintro s s' ⟨rfl, -⟩
    rfl

end Invariants

/-! ## Two runs -/

/-- A run from one of two related states is matched by one from the other state, and they end in related states. -/
def Relates (R R' : σ → σ → Prop) (p : List (Stmt σ)) : Prop :=
  ∀ s s' pauses t, R s s' → Runs p s pauses t → ∃ pauses' t', Runs p s' pauses' t' ∧ R' t t'

section Relations

variable {R R' R'' : σ → σ → Prop}

theorem Respects.relates (h : Respects R p) : Relates R R p := fun _ _ _ _ hs hruns => hruns.related h hs

theorem Relates.weaken (h : Relates R R' p) (hpost : ∀ s s', R' s s' → R'' s s') : Relates R R'' p := by
  intro s s' pauses t hs hruns
  obtain ⟨pauses', t', hruns', ht⟩ := h s s' pauses t hs hruns
  exact ⟨pauses', t', hruns', hpost t t' ht⟩

theorem relates_nil : Relates R R ([] : List (Stmt σ)) := by
  intro s s' pauses t hs hruns
  obtain ⟨-, rfl⟩ := runs_nil.mp hruns
  exact ⟨[], s', Runs.nil s', hs⟩

theorem Relates.append (hp : Relates R R' p) (hq : Relates R' R'' q) : Relates R R'' (p ++ q) := by
  intro s s' pauses u hs hruns
  obtain ⟨first, t, rest, hfirst, hrest, -⟩ := runs_append.mp hruns
  obtain ⟨first', t', hfirst', ht⟩ := hp s s' first t hs hfirst
  obtain ⟨rest', u', hrest', hu⟩ := hq t t' rest u ht hrest
  exact ⟨_, u', hfirst'.append hrest', hu⟩

theorem Relates.step (haction : ∀ s s', R s s' → R' (action s) (action s')) (hp : Relates R' R'' p) :
    Relates R R'' (.step action :: p) := by
  intro s s' pauses t hs hruns
  obtain ⟨rest, hrest, -⟩ := runs_step.mp hruns
  obtain ⟨rest', t', hrest', ht⟩ := hp _ _ rest t (haction s s' hs) hrest
  exact ⟨_, t', hrest'.step, ht⟩

theorem Relates.ifBlock (hc : ∀ s s', R s s' → c s = c s') (hbody : Relates R R' body)
    (hother : Relates R R' branches.otherwise) (hp : Relates R' R'' p) :
    Relates R R'' (.ifBlock (test c) body branches :: p) := by
  intro s s' pauses t hs hruns
  have hruns := runs_ifBlock.mp hruns
  have hsame := hc s s' hs
  cases hs' : c s with
  | true =>
      rw [hs', if_pos rfl] at hruns
      obtain ⟨pauses', t', h, ht⟩ := hbody.append hp s s' pauses t hs hruns
      exact ⟨_, t', Runs.ifTrue (hsame.symm.trans hs') h, ht⟩
  | false =>
      rw [hs', if_neg Bool.false_ne_true] at hruns
      obtain ⟨pauses', t', h, ht⟩ := hother.append hp s s' pauses t hs hruns
      exact ⟨_, t', Runs.ifFalse (hsame.symm.trans hs') h, ht⟩

/-- A sequence that has a function as its effect -/
theorem Relates.of_effect {f : σ → σ} (hf : ∀ s, ∃ pauses, Runs p s pauses (f s))
    (h : ∀ s s', R s s' → R' (f s) (f s')) : Relates R R' p := by
  intro s s' pauses t hs hruns
  obtain ⟨first, hfirst⟩ := hf s
  obtain ⟨pauses', hruns'⟩ := hf s'
  obtain ⟨-, rfl⟩ := Runs.unique hruns hfirst
  exact ⟨pauses', f s', hruns', h s s' hs⟩

/-- **Two loops**, whose conditions have the same outcome in related states, and whose bodies keep them related -/
theorem Relates.whileLoop {f : σ → σ} (hbody : ∀ s, ∃ pauses, Runs body s pauses (f s))
    (hc : ∀ s s', R s s' → c s = c s') (hstep : ∀ s s', R s s' → c s = true → R (f s) (f s')) :
    Relates R R [.whileLoop (test c) body] := by
  intro s s' pauses t hs hruns
  obtain ⟨n, hbefore, hend, rfl⟩ := (runs_while_iff hbody).mp ⟨pauses, hruns⟩
  have hrelated : ∀ k ≤ n, R (f^[k] s) (f^[k] s') := by
    intro k
    induction k with
    | zero => exact fun _ => hs
    | succ k ih =>
        intro hk
        rw [Function.iterate_succ_apply', Function.iterate_succ_apply']
        exact hstep _ _ (ih (Nat.le_of_succ_le hk)) (hbefore k hk)
  have hend' : ∃ pauses', Runs [.whileLoop (test c) body] s' pauses' (f^[n] s') := by
    refine (runs_while_iff hbody).mpr ⟨n, fun k hk => ?_, ?_, rfl⟩
    · rw [← hc _ _ (hrelated k (Nat.le_of_lt hk))]
      exact hbefore k hk
    · rw [← hc _ _ (hrelated n (le_refl n))]
      exact hend
  obtain ⟨pauses', hruns'⟩ := hend'
  exact ⟨pauses', _, hruns', hrelated n (le_refl n)⟩

end Relations

end EmbeddedInfra.Sequencer
