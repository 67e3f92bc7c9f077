import EmbeddedInfra.Infra.Sequencer

set_option autoImplicit false

/-! # Complete runs of a sequence function

`Runs p s pauses t`: the direct interpretation of the sequence `p`, started in state `s`, comes to
its end in state `t`, and `pauses` are the states at the `Step`s it performs on the way, the
effect of the step included. The rules derive runs construct by construct; the services are
verified with them.
-/

namespace EmbeddedInfra.Sequencer

variable {σ : Type} {p q body : List (Stmt σ)} {s t u : σ} {pauses pauses' : List σ}
  {action : σ → σ} {c : σ → Bool} {branches : Branches σ}

def Runs (p : List (Stmt σ)) (s : σ) (pauses : List σ) (t : σ) : Prop :=
  ∃ n, ∀ k, interpret n (p ++ k) s = (pauses, k, t)

theorem interpret_cons (n : Nat) (st : Stmt σ) (p : List (Stmt σ)) (s : σ) :
    interpret (n + 1) (st :: p) s =
      (if (st.next s).2.2 then (st.next s).2.1 :: (interpret n ((st.next s).1 ++ p) (st.next s).2.1).1
        else (interpret n ((st.next s).1 ++ p) (st.next s).2.1).1, (interpret n ((st.next s).1 ++ p) (st.next s).2.1).2) :=
  rfl

theorem interpret_add (n m : Nat) (p : List (Stmt σ)) (s : σ) :
    interpret (n + m) p s
      = ((interpret n p s).1 ++ (interpret m (interpret n p s).2.1 (interpret n p s).2.2).1,
          (interpret m (interpret n p s).2.1 (interpret n p s).2.2).2) := by
  induction n generalizing p s with
  | zero => simp [interpret]
  | succ n ih =>
      rw [show n + 1 + m = n + m + 1 by omega]
      cases p with
      | nil => cases m <;> simp [interpret]
      | cons st p =>
          simp only [interpret, ih]
          split <;> simp

namespace Runs

theorem nil (s : σ) : Runs [] s [] s := ⟨0, fun _ => rfl⟩

theorem append (h : Runs p s pauses t) (h' : Runs q t pauses' u) :
    Runs (p ++ q) s (pauses ++ pauses') u := by
  obtain ⟨n, hn⟩ := h
  obtain ⟨m, hm⟩ := h'
  refine ⟨n + m, fun k => ?_⟩
  rw [interpret_add, List.append_assoc, hn, hm]

/-- One step of the first statement, then the rest. -/
theorem silent {st : Stmt σ} {first : List (Stmt σ)} {s' : σ}
    (hn : st.next s = (first, s', false)) (h : Runs (first ++ p) s' pauses t) :
    Runs (st :: p) s pauses t := by
  obtain ⟨n, hr⟩ := h
  refine ⟨n + 1, fun k => ?_⟩
  have hk := hr k
  rw [List.append_assoc] at hk
  rw [List.cons_append, interpret_cons, hn]
  simp [hk]

/-- A pausing step of the first statement, then the rest. -/
theorem pausing {st : Stmt σ} {first : List (Stmt σ)} {s' : σ}
    (hn : st.next s = (first, s', true)) (h : Runs (first ++ p) s' pauses t) :
    Runs (st :: p) s (s' :: pauses) t := by
  obtain ⟨n, hr⟩ := h
  refine ⟨n + 1, fun k => ?_⟩
  have hk := hr k
  rw [List.append_assoc] at hk
  rw [List.cons_append, interpret_cons, hn]
  simp [hk]

theorem step (h : Runs p (action s) pauses t) : Runs (.step action :: p) s (action s :: pauses) t :=
  pausing rfl h

theorem execute (h : Runs p (action s) pauses t) : Runs (.execute action :: p) s pauses t :=
  silent rfl h

theorem ifTrue (hc : c s = true)
    (h : Runs (body ++ p) s pauses t) : Runs (.ifBlock (test c) body branches :: p) s pauses t := by
  have hn : (Stmt.ifBlock (test c) body branches).next s = (body, s, false) :=
    Prod.ext (if_pos hc) rfl
  exact silent hn h

theorem ifFalse (hc : c s = false) (h : Runs (branches.otherwise ++ p) s pauses t) :
    Runs (.ifBlock (test c) body branches :: p) s pauses t := by
  have hn : (Stmt.ifBlock (test c) body branches).next s = (branches.otherwise, s, false) :=
    Prod.ext (if_neg (Bool.eq_false_iff.mp hc)) rfl
  exact silent hn h

theorem whileTrue (hc : c s = true) (h : Runs (body ++ .whileLoop (test c) body :: p) s pauses t) :
    Runs (.whileLoop (test c) body :: p) s pauses t := by
  have hn : (Stmt.whileLoop (test c) body).next s
      = (body ++ [.whileLoop (test c) body], s, false) :=
    Prod.ext (if_pos hc) rfl
  exact silent hn (by simpa using h)

theorem whileFalse (hc : c s = false) (h : Runs p s pauses t) :
    Runs (.whileLoop (test c) body :: p) s pauses t := by
  have hn : (Stmt.whileLoop (test c) body).next s = ([], s, false) :=
    Prod.ext (if_neg (Bool.eq_false_iff.mp hc)) rfl
  exact silent hn h

theorem forEach {v : Variable σ} {first last : UInt32}
    (h : Runs (.whileLoop (v.differs last) (body ++ [.execute v.increment]) :: p)
      (v.set first s) pauses t) :
    Runs (.forEach v first last body :: p) s pauses t :=
  silent rfl h

/-- A run that is over stays over. -/
theorem interpret_nil (n : Nat) (s : σ) : interpret n [] s = ([], [], s) := by
  cases n <;> rfl

/-- A sequence has at most one run from a state. -/
theorem unique {t' : σ} (h : Runs p s pauses t) (h' : Runs p s pauses' t') :
    pauses = pauses' ∧ t = t' := by
  obtain ⟨n, hn⟩ := h
  obtain ⟨m, hm⟩ := h'
  have h1 := interpret_add n m p s
  have h2 := interpret_add m n p s
  have hn' := hn []
  have hm' := hm []
  rw [List.append_nil] at hn' hm'
  rw [hn', interpret_nil] at h1
  rw [hm', interpret_nil, Nat.add_comm] at h2
  have h3 := h1.symm.trans h2
  simp only [List.append_nil, Prod.mk.injEq] at h3
  exact ⟨h3.1, h3.2.2⟩

/-- The direct interpretation that has come to its end is a run. -/
theorem of_interpret {n : Nat} (h : interpret n p s = (pauses, [], t)) : Runs p s pauses t := by
  induction n generalizing p s pauses with
  | zero =>
      simp only [interpret, Prod.mk.injEq] at h
      obtain ⟨rfl, rfl, rfl⟩ := h
      exact nil _
  | succ n ih =>
      cases p with
      | nil =>
          simp only [interpret, Prod.mk.injEq] at h
          obtain ⟨rfl, -, rfl⟩ := h
          exact nil _
      | cons st p =>
          rw [interpret] at h
          rcases hst : st.next s with ⟨first, s', paused⟩
          rw [hst] at h
          obtain ⟨h1, h2⟩ := Prod.mk.inj h
          have hrest := ih (p := first ++ p) (s := s') (Prod.ext rfl h2)
          cases paused with
          | true => subst h1; exact pausing hst hrest
          | false => subst h1; exact silent hst hrest

end Runs

/-! ## Runs with a property of their pauses -/

/-- The sequence `p`, started in state `s`, ends in state `t`, and `I` holds at every pause. -/
def EndsIn (I : σ → Prop) (p : List (Stmt σ)) (s t : σ) : Prop :=
  ∃ pauses, Runs p s pauses t ∧ ∀ x ∈ pauses, I x

namespace EndsIn

variable {I : σ → Prop}

theorem nil (s : σ) : EndsIn I [] s s := ⟨[], .nil s, by simp⟩

theorem append (h : EndsIn I p s t) (h' : EndsIn I q t u) : EndsIn I (p ++ q) s u := by
  obtain ⟨pauses, h, hI⟩ := h
  obtain ⟨pauses', h', hI'⟩ := h'
  refine ⟨_, h.append h', fun x hx => ?_⟩
  rcases List.mem_append.mp hx with hx | hx
  · exact hI x hx
  · exact hI' x hx

theorem step (hs : I (action s)) (h : EndsIn I p (action s) t) :
    EndsIn I (.step action :: p) s t := by
  obtain ⟨pauses, h, hI⟩ := h
  refine ⟨_, h.step, fun x hx => ?_⟩
  rcases List.mem_cons.mp hx with rfl | hx
  · exact hs
  · exact hI x hx

/-- A step to a given state. -/
theorem stepTo {s' : σ} (ha : action s = s') (hs : I s') (h : EndsIn I p s' t) :
    EndsIn I (.step action :: p) s t := by
  subst ha
  exact .step hs h

theorem execute (h : EndsIn I p (action s) t) : EndsIn I (.execute action :: p) s t := by
  obtain ⟨pauses, h, hI⟩ := h
  exact ⟨_, h.execute, hI⟩

theorem ifTrue (hc : c s = true)
    (h : EndsIn I (body ++ p) s t) : EndsIn I (.ifBlock (test c) body branches :: p) s t := by
  obtain ⟨pauses, h, hI⟩ := h
  exact ⟨_, .ifTrue hc h, hI⟩

theorem ifFalse (hc : c s = false) (h : EndsIn I (branches.otherwise ++ p) s t) :
    EndsIn I (.ifBlock (test c) body branches :: p) s t := by
  obtain ⟨pauses, h, hI⟩ := h
  exact ⟨_, .ifFalse hc h, hI⟩

theorem whileTrue (hc : c s = true) (hbody : EndsIn I body s t)
    (h : EndsIn I (.whileLoop (test c) body :: p) t u) :
    EndsIn I (.whileLoop (test c) body :: p) s u := by
  obtain ⟨pauses, h, hI⟩ := hbody.append h
  exact ⟨_, .whileTrue hc h, hI⟩

theorem whileFalse (hc : c s = false) (h : EndsIn I p s t) :
    EndsIn I (.whileLoop (test c) body :: p) s t := by
  obtain ⟨pauses, h, hI⟩ := h
  exact ⟨_, .whileFalse hc h, hI⟩

theorem forEach {v : Variable σ} {first last : UInt32}
    (h : EndsIn I (.whileLoop (v.differs last) (body ++ [.execute v.increment]) :: p)
      (v.set first s) t) : EndsIn I (.forEach v first last body :: p) s t := by
  obtain ⟨pauses, h, hI⟩ := h
  exact ⟨_, .forEach h, hI⟩

theorem mono {J : σ → Prop} (hIJ : ∀ x, I x → J x) (h : EndsIn I p s t) : EndsIn J p s t := by
  obtain ⟨pauses, h, hI⟩ := h
  exact ⟨_, h, fun x hx => hIJ x (hI x hx)⟩

end EndsIn

/-- The sequence `p`, started in state `s`, ends in state `t`. -/
abbrev Ends (p : List (Stmt σ)) (s t : σ) : Prop := EndsIn (fun _ => True) p s t

/-! ## Related states

A sequence that does not look at a part of the state runs the same way whatever that part is. -/

section

variable (R : σ → σ → Prop)

/-- A condition has the same outcome in related states. -/
def Agrees (condition : σ → Bool × σ) : Prop :=
  ∀ s s', R s s' → (condition s).1 = (condition s').1 ∧ R (condition s).2 (condition s').2

mutual

/-- In related states the construct does the same. -/
def Stmt.Respects : Stmt σ → Prop
  | .step action => ∀ s s', R s s' → R (action s) (action s')
  | .execute action => ∀ s s', R s s' → R (action s) (action s')
  | .executeBlock body => Respects body
  | .ifBlock condition body rest => Agrees R condition ∧ Respects body ∧ rest.Respects
  | .whileLoop condition body => Agrees R condition ∧ Respects body
  | .doWhile body condition => Agrees R condition ∧ Respects body
  | .forEach v _ _ body => (∀ i s s', R s s' → R (v.set i s) (v.set i s')) ∧
      (∀ s s', R s s' → v.get s = v.get s') ∧ Respects body

def Branches.Respects : Branches σ → Prop
  | .endIf => True
  | .elseBlock body => Respects body
  | .elseIf condition body rest => Agrees R condition ∧ Respects body ∧ rest.Respects

def Respects : List (Stmt σ) → Prop
  | [] => True
  | st :: p => st.Respects ∧ Respects p

end

variable {R} {st : Stmt σ} {s' : σ}

theorem Respects.append (hp : Respects R p) (hq : Respects R q) : Respects R (p ++ q) := by
  induction p with
  | nil => exact hq
  | cons st p ih => exact ⟨hp.1, ih hp.2⟩

theorem Branches.Respects.otherwise (h : branches.Respects R) :
    Sequencer.Respects R branches.otherwise := by
  cases branches with
  | endIf => trivial
  | elseBlock body => exact h
  | elseIf condition body rest => exact ⟨h, trivial⟩

/-- One step from related states. -/
theorem Stmt.Respects.next (h : st.Respects R) (hs : R s s') :
    (st.next s).1 = (st.next s').1 ∧ R (st.next s).2.1 (st.next s').2.1 ∧
      (st.next s).2.2 = (st.next s').2.2 ∧ Sequencer.Respects R (st.next s).1 := by
  cases st with
  | step action => exact ⟨rfl, h s s' hs, rfl, trivial⟩
  | execute action => exact ⟨rfl, h s s' hs, rfl, trivial⟩
  | executeBlock body => exact ⟨rfl, hs, rfl, h⟩
  | ifBlock condition body rest =>
      obtain ⟨hc, hbody, hrest⟩ := h
      obtain ⟨heq, hR⟩ := hc s s' hs
      refine ⟨by simp only [Stmt.next, heq], hR, rfl, ?_⟩
      show Sequencer.Respects R (if (condition s).1 then body else rest.otherwise)
      split
      · exact hbody
      · exact hrest.otherwise
  | whileLoop condition body =>
      obtain ⟨hc, hbody⟩ := h
      obtain ⟨heq, hR⟩ := hc s s' hs
      refine ⟨by simp only [Stmt.next, heq], hR, rfl, ?_⟩
      show Sequencer.Respects R (if (condition s).1 then body ++ [.whileLoop condition body] else [])
      split
      · exact hbody.append ⟨⟨hc, hbody⟩, trivial⟩
      · trivial
  | doWhile body condition =>
      obtain ⟨hc, hbody⟩ := h
      exact ⟨rfl, hs, rfl, hbody.append ⟨⟨hc, hbody⟩, trivial⟩⟩
  | forEach v first last body =>
      obtain ⟨hset, hget, hbody⟩ := h
      refine ⟨rfl, hset first s s' hs, rfl, ⟨fun t t' ht => ?_, hbody.append ⟨fun t t' ht => ?_, trivial⟩⟩,
        trivial⟩
      · simp only [Variable.differs, test, hget t t' ht]
        exact ⟨trivial, ht⟩
      · simp only [Variable.increment, hget t t' ht]
        exact hset _ t t' ht

/-- A run from a related state. -/
theorem Runs.related (hp : Respects R p) (hs : R s s') (h : Runs p s pauses t) :
    ∃ pauses' t', Runs p s' pauses' t' ∧ R t t' := by
  have hinterpret : ∀ n (p : List (Stmt σ)) s s', Respects R p → R s s' →
      (interpret n p s).2.1 = (interpret n p s').2.1 ∧
        R (interpret n p s).2.2 (interpret n p s').2.2 := by
    intro n
    induction n with
    | zero => exact fun p s s' _ hs => ⟨rfl, hs⟩
    | succ n ih =>
        intro p s s' hp hs
        cases p with
        | nil => exact ⟨rfl, hs⟩
        | cons st p =>
            obtain ⟨h1, h2, h3, h4⟩ := hp.1.next hs
            simp only [interpret, ← h1]
            exact ih _ _ _ (h4.append hp.2) h2
  obtain ⟨n, hn⟩ := h
  have hn' := hn []
  rw [List.append_nil] at hn'
  obtain ⟨h1, h2⟩ := hinterpret n p s s' hp hs
  rw [hn'] at h1 h2
  refine ⟨(interpret n p s').1, (interpret n p s').2.2, of_interpret (n := n) ?_, h2⟩
  exact Prod.ext rfl (Prod.ext h1.symm rfl)

end

end EmbeddedInfra.Sequencer
