import EmbeddedInfra.Infra.Sequencer

set_option autoImplicit false

/-! # The sequencer executes its sequence function

A call of the sequence function starts at the position `execute`, carries out the constructs
it meets from there on, and stops carrying out anything once a `Step` was performed (`execute`
stays at that step) or a loop jumped back (`execute` is before everything the call still
meets).

* `At p j path fresh rest`: at the position `j :: path` of the sequence `p` the part `rest` of
  the structured program is left to do.
* `callSequence_away`: a call changes nothing while `execute` is not in the sequence.
* `callSequence_at`: a call from a position of the sequence does the direct steps from `rest` up to the
  end of the sequence, up to a `Step`, or up to a backward jump.
-/

namespace EmbeddedInfra.Sequencer

variable {σ : Type} {s₀ : σ} {i w q j k : Nat} {r o : Bool} {s t : σ}

/-! ## The primitives on explicit stacks -/

namespace Machine

variable {x pre : List Nat} {i k u : Nat} {r o : Bool} {s : σ}

theorem executeNextStep_append (e : List Nat) (hi : i + 1 < 256) :
    executeNextStep ⟨pre ++ [i], e, r, o, s⟩ = ⟨pre ++ [i + 1], e, r, o, s⟩ := by
  simp [executeNextStep, modifyBack_append, Nat.mod_eq_of_lt hi]

theorem increaseCurrentStep_append (hi : i + 1 < 256) :
    increaseCurrentStep ⟨x, pre ++ [i], r, o, s⟩ = ⟨x, pre ++ [i + 1], r, o, s⟩ := by
  simp [increaseCurrentStep, modifyBack_append, Nat.mod_eq_of_lt hi]

/-- Three steps back and, as `ExecuteWithoutContext` does, one step on: two positions back. -/
theorem goBack_append (e : List Nat) (hi : i + 2 < 256) :
    (goBack ⟨pre ++ [i + 2], e, r, o, s⟩).executeNextStep = ⟨pre ++ [i], e, true, o, s⟩ := by
  simp only [goBack, executePreviousStep, executeNextStep, modifyBack_append]
  have : ((((i + 2 + 255) % 256 + 255) % 256 + 255) % 256 + 1) % 256 = i := by omega
  rw [this]

theorem executeWithoutContext_eq (f : Machine σ → Machine σ) :
    executeWithoutContext f ⟨pre ++ [i], pre ++ [i], r, o, s⟩
      = (f ⟨pre ++ [i], pre ++ [i], r, o, s⟩).executeNextStep.increaseCurrentStep := by
  simp [executeWithoutContext, executeCurrentStep]

theorem executeWithoutContext_ne (f : Machine σ → Machine σ) (hx : x ≠ pre ++ [i])
    (hi : i + 1 < 256) :
    executeWithoutContext f ⟨x, pre ++ [i], r, o, s⟩ = ⟨x, pre ++ [i + 1], r, o, s⟩ := by
  simp only [executeWithoutContext, executeCurrentStep, beq_eq_false_iff_ne.mpr hx,
    Bool.false_eq_true, if_false]
  exact increaseCurrentStep_append hi

theorem pushContext_eq (hl : pre.length + 1 < 8) :
    pushContext ⟨pre ++ [k], pre ++ [k], r, o, s⟩
      = ⟨pre ++ [k] ++ [0], pre ++ [k] ++ [0], r, o, s⟩ := by
  have : ¬ maxContexts ≤ pre.length + 1 := by simp only [maxContexts]; omega
  simp [pushContext, executeCurrentStep, pushExecute, pushExamine, this]

theorem pushContext_ne (hx : x ≠ pre ++ [k]) (hl : pre.length + 1 < 8) :
    pushContext ⟨x, pre ++ [k], r, o, s⟩ = ⟨x, pre ++ [k] ++ [0], r, o, s⟩ := by
  have : ¬ maxContexts ≤ pre.length + 1 := by simp only [maxContexts]; omega
  simp [pushContext, executeCurrentStep, pushExamine, this, beq_eq_false_iff_ne.mpr hx]

theorem popContext_eq (hk : k + 1 < 256) :
    popContext ⟨pre ++ [k] ++ [u], pre ++ [k] ++ [u], r, o, s⟩
      = ⟨pre ++ [k + 1], pre ++ [k + 1], r, o, s⟩ := by
  simp only [popContext, executeCurrentStep, BEq.rfl, if_true, popExecute, popExamine,
    List.dropLast_concat, finished]
  simp [executeNextStep, increaseCurrentStep, modifyBack_append, Nat.mod_eq_of_lt hk]

theorem popContext_ne (hx : x ≠ pre ++ [k] ++ [u]) (hk : k + 1 < 256) :
    popContext ⟨x, pre ++ [k] ++ [u], r, o, s⟩ = ⟨x, pre ++ [k + 1], r, o, s⟩ := by
  simp only [popContext, executeCurrentStep, beq_eq_false_iff_ne.mpr hx, Bool.false_eq_true,
    if_false, popExamine, List.dropLast_concat]
  simp [increaseCurrentStep, modifyBack_append, Nat.mod_eq_of_lt hk]

end Machine

open Machine

/-! ## Away from the sequence -/

/-- The position `x` is not one of the `w` positions from `i` on of the context `pre`. -/
def Away (x pre : List Nat) (i w : Nat) : Prop :=
  ∀ j path, x = pre ++ j :: path → j < i ∨ i + w ≤ j

variable {x pre path : List Nat} {p : List (Stmt σ)}

theorem Away.ne (h : Away x pre i w) (h1 : i ≤ q) (h2 : q < i + w) : x ≠ pre ++ [q] := by
  intro hx
  rcases h q [] hx with h' | h' <;> omega

theorem Away.mono {v : Nat} (h : Away x pre i w) (h1 : i ≤ q)
    (h2 : q + v ≤ i + w) : Away x pre q v := by
  intro j path hx
  rcases h j path hx with h' | h' <;> omega

/-- Away from the position `q` is away from everything in the context it opens. -/
theorem Away.inner (h : Away x pre i w) (h1 : i ≤ q)
    (h2 : q < i + w) (a v : Nat) : Away x (pre ++ [q]) a v := by
  intro j path hx
  rw [List.append_assoc] at hx
  rcases h q (j :: path) hx with h' | h' <;> omega

theorem Away.inner_ne (h : Away x pre i w) (h1 : i ≤ q)
    (h2 : q < i + w) (u : Nat) : x ≠ pre ++ [q] ++ [u] :=
  (h.inner h1 h2 u 1).ne (Nat.le_refl _) (Nat.lt_succ_self _)

/-- The test of `Execute` fails away from it. -/
theorem Away.take_ne (h : Away x pre i w) (h1 : i ≤ q)
    (h2 : q < i + w) : x.take (pre ++ [q]).length ≠ pre ++ [q] := by
  intro hx
  have hsplit : x = pre ++ q :: x.drop (pre ++ [q]).length := by
    conv_lhs => rw [← List.take_append_drop (pre ++ [q]).length x, hx]
    simp
  rcases h q _ hsplit with h' | h' <;> omega

/-- A position before `i`. -/
theorem away_of_lt (h : j < i) : Away (pre ++ j :: path) pre i w := by
  intro j' path' hx
  have : j = j' := by simpa using congrArg List.head? (List.append_cancel_left hx)
  omega

/-- A position at or after the end. -/
theorem away_of_le (h : i + w ≤ j) : Away (pre ++ j :: path) pre i w := by
  intro j' path' hx
  have : j = j' := by simpa using congrArg List.head? (List.append_cancel_left hx)
  omega

/-- What follows the body of an `If`, once the context of that body is closed. -/
def Branches.after : Branches σ → Machine σ → Machine σ
  | .endIf, m => m.executeWithoutContext id
  | .elseBlock body, m =>
      (callSequence body (m.executeWithoutContext executeNextStep).pushContext).callEndIf
  | .elseIf condition body rest, m =>
      rest.call (callSequence body ((m.executeWithoutContext
        (fun m => m.executeNextStep.executeNextStep)).executeWithoutContext
          (unlessSkip condition)).pushContext)

theorem Branches.call_eq_after (rest : Branches σ) (m : Machine σ) :
    rest.call m = rest.after m.popContext := by
  cases rest <;> simp [Branches.call, Branches.after, callEndIf, callElse,
    callElseIf]

@[simp] theorem width_nil : width ([] : List (Stmt σ)) = 0 := rfl

@[simp] theorem width_cons (st : Stmt σ) (p : List (Stmt σ)) :
    width (st :: p) = st.width + width p := by simp [width]

theorem Branches.width_pos (rest : Branches σ) : 1 ≤ rest.width := by
  cases rest <;> simp only [Branches.width] <;> omega

/-! ### Nothing happens away from the position

The depth and width hypotheses are those of the sequence: every stack stays within its eight
entries and every counter within its byte. -/

/-- A call of `p` changes nothing while `execute` is not in it. -/
def PassedBy (p : List (Stmt σ)) : Prop :=
  ∀ (x pre : List Nat) (i : Nat) (r o : Bool) (s : σ), Away x pre i (width p) →
    i + width p < 256 → widest p < 256 → pre.length + 1 + depth p ≤ 8 →
    callSequence p ⟨x, pre ++ [i], r, o, s⟩ = ⟨x, pre ++ [i + width p], r, o, s⟩

/-- So it may be the body of a construct, whose context is opened for it and closed again. -/
theorem PassedBy.body (h : PassedBy p)
    (ha : Away x pre i w) (h1 : i ≤ k) (h2 : k < i + w) (hk : k + 1 < 256)
    (hw : max (width p) (widest p) < 256) (hd : pre.length + 1 + (1 + depth p) ≤ 8) :
    (callSequence p (pushContext ⟨x, pre ++ [k], r, o, s⟩)).popContext
      = ⟨x, pre ++ [k + 1], r, o, s⟩ := by
  rw [pushContext_ne (ha.ne h1 h2) (by omega),
    h _ _ _ _ _ _ (ha.inner h1 h2 _ _) (by omega) (by omega) (by simp; omega),
    popContext_ne (ha.inner_ne h1 h2 _) hk]

mutual

theorem Stmt.call_away : ∀ (st : Stmt σ) (x pre : List Nat) (i : Nat) (r o : Bool) (s : σ),
    Away x pre i st.width → i + st.width < 256 → st.widest < 256 →
    pre.length + 1 + st.depth ≤ 8 →
    st.call ⟨x, pre ++ [i], r, o, s⟩ = ⟨x, pre ++ [i + st.width], r, o, s⟩
  | .step action, x, pre, i, r, o, s, ha, hw, hs, hd => by
      have hx : x ≠ pre ++ [i] := ha.ne (Nat.le_refl _) (by simp [Stmt.width])
      simp only [Stmt.call, callStep, executeCurrentStep,
        beq_eq_false_iff_ne.mpr hx, Bool.false_eq_true, if_false]
      exact increaseCurrentStep_append hw
  | .execute _, x, pre, i, r, o, s, ha, hw, hs, hd | .executeBlock _, x, pre, i, r, o, s, ha, hw, hs, hd => by
      simp only [Stmt.width] at ha hw
      have hx := ha.take_ne (Nat.le_refl _) (by omega)
      simp only [Stmt.call, callExecute, beq_eq_false_iff_ne.mpr hx, Bool.false_eq_true,
        if_false]
      exact increaseCurrentStep_append hw
  | .ifBlock condition body rest, x, pre, i, r, o, s, ha, hw, hs, hd => by
      simp only [Stmt.width, Stmt.widest, Stmt.depth] at ha hw hs hd
      have hr := rest.width_pos
      simp only [Stmt.call, callIf]
      rw [executeWithoutContext_ne _ (ha.ne (Nat.le_refl _) (by omega)) (by omega),
        Branches.call_eq_after,
        (callSequence_away body).body ha (by omega) (by omega) (by omega) (by omega) (by omega),
        Branches.after_away rest _ _ _ _ _ _ (ha.mono (by omega) (by omega)) (by omega)
          (by omega) (by omega)]
      simp [Stmt.width]; omega
  | .whileLoop condition body, x, pre, i, r, o, s, ha, hw, hs, hd => by
      simp only [Stmt.width, Stmt.widest, Stmt.depth] at ha hw hs hd
      simp only [Stmt.call, callWhile, callIf, callEndWhile]
      rw [executeWithoutContext_ne _ (ha.ne (Nat.le_refl _) (by omega)) (by omega),
        (callSequence_away body).body ha (by omega) (by omega) (by omega) (by omega) (by omega),
        executeWithoutContext_ne _ (ha.ne (by omega) (by omega)) (by omega)]
      rfl
  | .doWhile body condition, x, pre, i, r, o, s, ha, hw, hs, hd => by
      simp only [Stmt.width, Stmt.widest, Stmt.depth] at ha hw hs hd
      simp only [Stmt.call, callDoWhile, callEndDoWhile]
      rw [executeWithoutContext_ne _ (ha.ne (Nat.le_refl _) (by omega)) (by omega),
        (callSequence_away body).body ha (by omega) (by omega) (by omega) (by omega) (by omega),
        executeWithoutContext_ne _ (ha.ne (by omega) (by omega)) (by omega)]
      rfl
  | .forEach v first last body, x, pre, i, r, o, s, ha, hw, hs, hd => by
      simp only [Stmt.width, Stmt.widest, Stmt.depth] at ha hw hs hd
      simp only [Stmt.call, callForEach, callEndForEach]
      rw [executeWithoutContext_ne _ (ha.ne (Nat.le_refl _) (by omega)) (by omega),
        executeWithoutContext_ne _ (ha.ne (by omega) (by omega)) (by omega),
        pushContext_ne (ha.ne (by omega) (by omega)) (by omega),
        callSequence_away body _ _ _ _ _ _ (ha.inner (by omega) (by omega) _ _) (by omega)
          (by omega) (by simp; omega),
        executeWithoutContext_ne _ (ha.inner_ne (by omega) (by omega) _) (by omega),
        popContext_ne (ha.inner_ne (by omega) (by omega) _) (by omega),
        executeWithoutContext_ne _ (ha.ne (by omega) (by omega)) (by omega)]
      rfl

theorem Branches.after_away : ∀ (rest : Branches σ) (x pre : List Nat) (i : Nat) (r o : Bool)
    (s : σ), Away x pre i rest.width → i + rest.width < 256 → rest.widest < 256 →
    pre.length + 1 + rest.depth ≤ 8 →
    rest.after ⟨x, pre ++ [i], r, o, s⟩ = ⟨x, pre ++ [i + rest.width], r, o, s⟩
  | .endIf, x, pre, i, r, o, s, ha, hw, hs, hd => by
      simp only [Branches.width] at ha hw
      simp only [Branches.after]
      rw [executeWithoutContext_ne _ (ha.ne (Nat.le_refl _) (by omega)) (by omega)]
      rfl
  | .elseBlock body, x, pre, i, r, o, s, ha, hw, hs, hd => by
      simp only [Branches.width, Branches.widest, Branches.depth] at ha hw hs hd
      simp only [Branches.after, callEndIf]
      rw [executeWithoutContext_ne _ (ha.ne (Nat.le_refl _) (by omega)) (by omega),
        (callSequence_away body).body ha (by omega) (by omega) (by omega) (by omega) (by omega),
        executeWithoutContext_ne _ (ha.ne (by omega) (by omega)) (by omega)]
      rfl
  | .elseIf condition body rest, x, pre, i, r, o, s, ha, hw, hs, hd => by
      simp only [Branches.width, Branches.widest, Branches.depth] at ha hw hs hd
      have hr := rest.width_pos
      simp only [Branches.after]
      rw [executeWithoutContext_ne _ (ha.ne (Nat.le_refl _) (by omega)) (by omega),
        executeWithoutContext_ne _ (ha.ne (by omega) (by omega)) (by omega),
        Branches.call_eq_after,
        (callSequence_away body).body ha (by omega) (by omega) (by omega) (by omega) (by omega),
        Branches.after_away rest _ _ _ _ _ _ (ha.mono (by omega) (by omega)) (by omega)
          (by omega) (by omega)]
      simp [Branches.width]; omega

theorem callSequence_away : ∀ p : List (Stmt σ), PassedBy p
  | [] => fun x pre i r o s ha hw hs hd => by simp [callSequence]
  | st :: p => by
      intro x pre i r o s ha hw hs hd
      simp only [width_cons, widest, depth] at ha hw hs hd
      simp only [callSequence]
      rw [Stmt.call_away st _ _ _ _ _ _ (ha.mono (by omega) (by omega)) (by omega) (by omega)
          (by omega),
        callSequence_away p _ _ _ _ _ _ (ha.mono (by omega) (by omega)) (by omega) (by omega)
          (by omega)]
      simp [Nat.add_assoc]

end

/-! ## Silent steps of the direct interpretation -/

/-- `n` steps of the direct interpretation without a pause. -/
inductive Silent : Nat → List (Stmt σ) → σ → List (Stmt σ) → σ → Prop where
  | refl (p : List (Stmt σ)) (s : σ) : Silent 0 p s p s
  | cons {n : Nat} {st : Stmt σ} {p q : List (Stmt σ)} {s t : σ} (h : (st.next s).2.2 = false)
      (hr : Silent n ((st.next s).1 ++ p) (st.next s).2.1 q t) : Silent (n + 1) (st :: p) s q t

namespace Silent

variable {n n' : Nat} {p q q' : List (Stmt σ)} {s t t' : σ}

theorem trans (h : Silent n p s q t) (h' : Silent n' q t q' t') : Silent (n + n') p s q' t' := by
  induction h with
  | refl p s => simpa using h'
  | @cons m st p q s t hp hr ih =>
      have := ih h'
      rw [show m + 1 + n' = (m + n') + 1 by omega]
      exact .cons hp this

theorem append (h : Silent n p s q t) (k : List (Stmt σ)) : Silent n (p ++ k) s (q ++ k) t := by
  induction h with
  | refl p s => exact .refl _ _
  | cons hp hr ih => exact .cons hp (by simpa using ih)

/-- One step of the first statement. -/
theorem one {st : Stmt σ} (h : st.next s = (q, t, false)) (p : List (Stmt σ)) :
    Silent 1 (st :: p) s (q ++ p) t :=
  .cons (by rw [h]) (by rw [h]; exact .refl _ _)

theorem single {st : Stmt σ} (h : st.next s = (q, t, false)) : Silent 1 [st] s q t := by
  simpa using Silent.one h []

end Silent

/-! ## Positions and what is left to do

The relations hold for the positions at which `execute` can be left between two calls of the
sequence function: behind a `Step`, or at the head of a loop. `fresh` says that the next call
starts with a step of the direct interpretation; it does not behind the last `Step` of the body
of a loop, where it starts with the jump back to the head. -/

mutual

inductive Stmt.At : Stmt σ → Nat → List Nat → Bool → List (Stmt σ) → Prop where
  | start (st : Stmt σ) : Stmt.At st 0 [] true [st]
  | block {body rest : List (Stmt σ)} {j : Nat} {path : List Nat} {fresh : Bool}
      (h : At body j path fresh rest) : Stmt.At (.executeBlock body) 0 (j :: path) fresh rest
  | ifBody {c : σ → Bool × σ} {body rest : List (Stmt σ)} {branches : Branches σ} {j : Nat}
      {path : List Nat} {fresh : Bool} (h : At body j path fresh rest) :
      Stmt.At (.ifBlock c body branches) 1 (j :: path) fresh rest
  | ifRest {c : σ → Bool × σ} {body rest : List (Stmt σ)} {branches : Branches σ} {j : Nat}
      {path : List Nat} {fresh : Bool} (h : Branches.At branches j path fresh rest) :
      Stmt.At (.ifBlock c body branches) (2 + j) path fresh rest
  | whileBody {c : σ → Bool × σ} {body rest : List (Stmt σ)} {j : Nat} {path : List Nat}
      {fresh : Bool} (h : At body j path fresh rest) :
      Stmt.At (.whileLoop c body) 1 (j :: path) fresh (rest ++ [.whileLoop c body])
  | doAgain {c : σ → Bool × σ} {body : List (Stmt σ)} :
      Stmt.At (.doWhile body c) 0 [] true (body ++ [.whileLoop c body])
  | doBody {c : σ → Bool × σ} {body rest : List (Stmt σ)} {j : Nat} {path : List Nat}
      {fresh : Bool} (h : At body j path fresh rest) :
      Stmt.At (.doWhile body c) 1 (j :: path) fresh (rest ++ [.whileLoop c body])
  | forCheck {v : Variable σ} {first last : UInt32} {body : List (Stmt σ)} :
      Stmt.At (.forEach v first last body) 1 [] true
        [.whileLoop (v.differs last) (body ++ [.execute v.increment])]
  | forBody {v : Variable σ} {first last : UInt32} {body rest : List (Stmt σ)} {j : Nat}
      {path : List Nat} {fresh : Bool} (h : At body j path fresh rest) :
      Stmt.At (.forEach v first last body) 2 (j :: path) fresh
        (rest ++ [.execute v.increment,
          .whileLoop (v.differs last) (body ++ [.execute v.increment])])

inductive Branches.At : Branches σ → Nat → List Nat → Bool → List (Stmt σ) → Prop where
  | elseBody {body rest : List (Stmt σ)} {j : Nat} {path : List Nat} {fresh : Bool}
      (h : At body j path fresh rest) : Branches.At (.elseBlock body) 1 (j :: path) fresh rest
  | elseIfBody {c : σ → Bool × σ} {body rest : List (Stmt σ)} {branches : Branches σ} {j : Nat}
      {path : List Nat} {fresh : Bool} (h : At body j path fresh rest) :
      Branches.At (.elseIf c body branches) 2 (j :: path) fresh rest
  | elseIfRest {c : σ → Bool × σ} {body rest : List (Stmt σ)} {branches : Branches σ} {j : Nat}
      {path : List Nat} {fresh : Bool} (h : Branches.At branches j path fresh rest) :
      Branches.At (.elseIf c body branches) (3 + j) path fresh rest

inductive At : List (Stmt σ) → Nat → List Nat → Bool → List (Stmt σ) → Prop where
  | here {st : Stmt σ} {p rest : List (Stmt σ)} {j : Nat} {path : List Nat} {fresh : Bool}
      (h : Stmt.At st j path fresh rest) : At (st :: p) j path fresh (rest ++ p)
  | there {st : Stmt σ} {p rest : List (Stmt σ)} {j : Nat} {path : List Nat} {fresh : Bool}
      (h : At p j path fresh rest) : At (st :: p) (st.width + j) path fresh rest
  | done : At [] 0 [] false []

end

/-- At the start of a sequence all of it is left to do. -/
theorem at_start (p : List (Stmt σ)) : At p 0 [] (!p.isEmpty) p := by
  cases p with
  | nil => exact .done
  | cons st p => exact .here (.start st)

/-- At the end of a sequence nothing is left to do. -/
theorem at_end (p : List (Stmt σ)) : At p (width p) [] false [] := by
  induction p with
  | nil => exact .done
  | cons st p ih => rw [width_cons]; exact .there ih

/-! ## How a call leaves the machine -/

/-- What `ExecuteNextStep` does to the last counter. -/
def advance (x : Nat) : Nat := (x + 1) % 256

/-- The call was stopped inside a construct with `w` positions from `i` on, at which `rest` was
left to do: a loop jumped back, or a `Step` was performed. `Pos` are the positions of the
construct; its end is a further position behind a `Step`. -/
inductive Suspended (Pos : Nat → List Nat → Bool → List (Stmt σ) → Prop) (pre : List Nat)
    (i w : Nat) (fresh : Bool) (rest : List (Stmt σ)) (r : Bool) (s : σ) :
    List Nat → Bool → σ → Prop where
  | again {n j : Nat} {path : List Nat} {rest' : List (Stmt σ)} {t : σ}
      (hs : Silent n rest s rest' t) (hn : fresh = true → 1 ≤ n) (hj : j < w)
      (hp : Pos j path true rest') :
      Suspended Pos pre i w fresh rest r s (pre ++ (i + j) :: path) true t
  | paused {n j j' : Nat} {path path' : List Nat} {rest' : List (Stmt σ)} {action : σ → σ} {t : σ}
      (hs : Silent n rest s (.step action :: rest') t) (hj : j < w)
      (ha : modifyBack advance ((i + j) :: path) = (i + j') :: path')
      (hp : (∃ f, Pos j' path' f rest') ∨ (j' = w ∧ path' = [] ∧ rest' = [])) :
      Suspended Pos pre i w fresh rest r s (pre ++ (i + j) :: path) r (action t)

/-- The call arrived at the end of the construct, or it was stopped in it. -/
inductive Arrived (Pos : Nat → List Nat → Bool → List (Stmt σ) → Prop) (pre : List Nat)
    (i w : Nat) (fresh : Bool) (rest : List (Stmt σ)) (r : Bool) (s : σ) :
    List Nat → Bool → σ → Prop where
  | done {n : Nat} {t : σ} (hs : Silent n rest s [] t) (hn : fresh = true → 1 ≤ n) :
      Arrived Pos pre i w fresh rest r s (pre ++ [i + w]) r t
  | stopped {x : List Nat} {r' : Bool} {t : σ}
      (h : Suspended Pos pre i w fresh rest r s x r' t) :
      Arrived Pos pre i w fresh rest r s x r' t

namespace Suspended

variable {Pos Pos' : Nat → List Nat → Bool → List (Stmt σ) → Prop} {pre x : List Nat}
  {i w : Nat} {fresh r r' : Bool} {rest : List (Stmt σ)} {s t : σ}

theorem away (h : Suspended Pos pre i w fresh rest r s x r' t) (hq : i + w ≤ q)
    (v : Nat) : Away x pre q v := by
  cases h with
  | again hs hn hj hp => exact away_of_lt (by omega)
  | paused hs hj ha hp => exact away_of_lt (by omega)

/-- Inside the context at position `k`, seen from outside of it. -/
theorem away_context (h : Suspended Pos (pre ++ [k]) i w fresh rest r s x r' t)
    (hq : k < q) (v : Nat) : Away x pre q v := by
  cases h with
  | again hs hn hj hp => rw [List.append_assoc]; exact away_of_lt hq
  | paused hs hj ha hp => rw [List.append_assoc]; exact away_of_lt hq

theorem ne (h : Suspended Pos pre i w fresh rest r s x r' t) (hq : i + w ≤ q) : x ≠ pre ++ [q] :=
  (h.away hq 1).ne (Nat.le_refl _) (Nat.lt_succ_self _)

theorem ne_context (h : Suspended Pos (pre ++ [k]) i w fresh rest r s x r' t)
    (hq : k < q) : x ≠ pre ++ [q] :=
  (h.away_context hq 1).ne (Nat.le_refl _) (Nat.lt_succ_self _)

/-- A construct that stands at position `d` of a larger one, after some silent steps of the
larger one, and with `tail` left to do behind it. -/
theorem lift {w' d n : Nat} {fresh' : Bool} {rest₀ : List (Stmt σ)}
    (tail : List (Stmt σ)) (h : Suspended Pos pre (i + d) w fresh rest r s x r' t)
    (hs : Silent n rest₀ s₀ (rest ++ tail) s) (hf : fresh' = true → 1 ≤ n ∨ fresh = true)
    (hw : d + w ≤ w')
    (hp : ∀ j path f q, Pos j path f q → Pos' (d + j) path f (q ++ tail))
    (he : (∃ f, Pos' (d + w) [] f tail) ∨ (d + w = w' ∧ tail = [])) :
    Suspended Pos' pre i w' fresh' rest₀ r s₀ x r' t := by
  cases h with
  | @again m j path rest' _ hs' hn hj hpos =>
      rw [Nat.add_assoc]
      refine .again (hs.trans (hs'.append tail)) ?_ (by omega) (hp _ _ _ _ hpos)
      intro hfresh
      rcases hf hfresh with h1 | h1
      · omega
      · have := hn h1; omega
  | @paused m j j' path path' rest' action u hs' hj ha hpos =>
      rw [Nat.add_assoc] at ha ⊢
      rw [Nat.add_assoc] at ha
      refine .paused (hs.trans (hs'.append tail)) (by omega) ha ?_
      rcases hpos with ⟨f, hpos⟩ | ⟨rfl, rfl, rfl⟩
      · exact .inl ⟨f, hp _ _ _ _ hpos⟩
      · rcases he with ⟨f, he⟩ | ⟨he, rfl⟩
        · exact .inl ⟨f, by simpa using he⟩
        · exact .inr ⟨he, rfl, rfl⟩

/-- A sequence in the context that the position `d` of a construct opens. -/
theorem lift_context {w' d n : Nat} {fresh' : Bool} {body rest₀ : List (Stmt σ)}
    (tail : List (Stmt σ)) (h : Suspended (At body) (pre ++ [i + d]) 0 (width body) fresh rest r s x r' t)
    (hs : Silent n rest₀ s₀ (rest ++ tail) s) (hf : fresh' = true → 1 ≤ n ∨ fresh = true)
    (hw : d < w') (hp : ∀ j path f q, At body j path f q → Pos' d (j :: path) f (q ++ tail)) :
    Suspended Pos' pre i w' fresh' rest₀ r s₀ x r' t := by
  cases h with
  | @again m j path rest' _ hs' hn hj hpos =>
      rw [List.append_assoc, Nat.zero_add]
      refine .again (hs.trans (hs'.append tail)) ?_ hw (hp _ _ _ _ hpos)
      intro hfresh
      rcases hf hfresh with h1 | h1
      · omega
      · have := hn h1; omega
  | @paused m j j' path path' rest' action u hs' hj ha hpos =>
      rw [List.append_assoc, Nat.zero_add]
      rw [Nat.zero_add, Nat.zero_add] at ha
      have ha' : modifyBack advance ((i + d) :: j :: path) = (i + d) :: j' :: path' := by
        rw [modifyBack, ha]
      refine .paused (hs.trans (hs'.append tail)) hw ha' (.inl ?_)
      rcases hpos with ⟨f, hpos⟩ | ⟨rfl, rfl, rfl⟩
      · exact ⟨f, hp _ _ _ _ hpos⟩
      · exact ⟨false, hp _ _ _ _ (at_end body)⟩

end Suspended

variable {Pos : Nat → List Nat → Bool → List (Stmt σ) → Prop} {fresh r' : Bool}
  {rest : List (Stmt σ)}

/-- Some steps of the direct interpretation first. -/
theorem Arrived.prepend {n : Nat} {fresh' : Bool} {rest₀ : List (Stmt σ)}
    (h : Arrived Pos pre i w fresh rest r s x r' t) (hs : Silent n rest₀ s₀ rest s)
    (hn : 1 ≤ n) : Arrived Pos pre i w fresh' rest₀ r s₀ x r' t := by
  cases h with
  | done hs' _ => exact .done (hs.trans hs') (fun _ => by omega)
  | stopped h' =>
      cases h' with
      | again hs' _ hj hp => exact .stopped (.again (hs.trans hs') (fun _ => by omega) hj hp)
      | paused hs' hj ha hp => exact .stopped (.paused (hs.trans hs') hj ha hp)

/-- Forgetting that the call starts with a step. -/
theorem Arrived.stale
    (h : Arrived Pos pre i w fresh rest r s x r' t) : Arrived Pos pre i w false rest r s x r' t := by
  cases h with
  | done hs _ => exact .done hs (by simp)
  | stopped h' =>
      cases h' with
      | again hs _ hj hp => exact .stopped (.again hs (by simp) hj hp)
      | paused hs hj ha hp => exact .stopped (.paused hs hj ha hp)

/-- A construct at position `d` that is the last part of a larger one. -/
theorem Arrived.lift {Pos' : Nat → List Nat → Bool → List (Stmt σ) → Prop}
    {d n : Nat} {fresh' : Bool} {rest₀ : List (Stmt σ)}
    (h : Arrived Pos pre (i + d) w fresh rest r s x r' t)
    (hs : Silent n rest₀ s₀ rest s) (hf : fresh' = true → 1 ≤ n ∨ fresh = true)
    (hp : ∀ j path f q, Pos j path f q → Pos' (d + j) path f q) :
    Arrived Pos' pre i (d + w) fresh' rest₀ r s₀ x r' t := by
  cases h with
  | done hs' hn =>
      rw [Nat.add_assoc]
      refine .done (hs.trans hs') ?_
      intro h
      rcases hf h with h1 | h1
      · omega
      · have := hn h1; omega
  | stopped h' =>
      exact .stopped (h'.lift [] (by simpa using hs) hf (Nat.le_refl _)
        (fun j path f q hq => by simpa using hp j path f q hq) (.inr ⟨rfl, rfl⟩))

/-! ## A call from a position -/

/-- A call of the sequence `p` from any of its positions. -/
def SequenceRuns (p : List (Stmt σ)) : Prop :=
  ∀ (pre : List Nat) (i : Nat) (r o : Bool) (s : σ) (j : Nat) (path : List Nat) (fresh : Bool)
    (rest : List (Stmt σ)), At p j path fresh rest → i + width p < 256 → widest p < 256 →
    pre.length + 1 + depth p ≤ 8 →
    ∃ x r' t, callSequence p ⟨pre ++ (i + j) :: path, pre ++ [i], r, o, s⟩
        = ⟨x, pre ++ [i + width p], r', o, t⟩ ∧
      Arrived (At p) pre i (width p) fresh rest r s x r' t

/-- A call of the construct `st` from any of its positions. -/
def StmtRuns (st : Stmt σ) : Prop :=
  ∀ (pre : List Nat) (i : Nat) (r o : Bool) (s : σ) (j : Nat) (path : List Nat) (fresh : Bool)
    (rest : List (Stmt σ)), st.At j path fresh rest → i + st.width < 256 → st.widest < 256 →
    pre.length + 1 + st.depth ≤ 8 →
    ∃ x r' t, st.call ⟨pre ++ (i + j) :: path, pre ++ [i], r, o, s⟩
        = ⟨x, pre ++ [i + st.width], r', o, t⟩ ∧
      Arrived st.At pre i st.width fresh rest r s x r' t

/-- Behind a body that was executed, all the branches that follow are skipped. -/
theorem Branches.after_skip : ∀ (rest : Branches σ) (pre : List Nat) (q : Nat) (r o : Bool) (s : σ),
    q + rest.width < 256 → rest.widest < 256 → pre.length + 1 + rest.depth ≤ 8 →
    rest.after ⟨pre ++ [q], pre ++ [q], r, o, s⟩
      = ⟨pre ++ [q + rest.width], pre ++ [q + rest.width], r, o, s⟩
  | .endIf, pre, q, r, o, s, hw, hs, hd => by
      simp only [Branches.width] at hw ⊢
      rw [Branches.after, executeWithoutContext_eq, id, executeNextStep_append _ hw,
        increaseCurrentStep_append hw]
  | .elseBlock body, pre, q, r, o, s, hw, hs, hd => by
      simp only [Branches.width, Branches.widest, Branches.depth] at hw hs hd ⊢
      have ha : Away (pre ++ [q + 2]) pre q 2 := away_of_le (Nat.le_refl _)
      rw [Branches.after, executeWithoutContext_eq,
        executeNextStep_append _ (by omega), executeNextStep_append _ (by omega),
        increaseCurrentStep_append (by omega),
        pushContext_ne (ha.ne (by omega) (by omega)) (by omega),
        callSequence_away body _ _ _ _ _ _ (ha.inner (by omega) (by omega) _ _) (by omega)
          (by omega) (by simp; omega),
        callEndIf, popContext_ne (ha.inner_ne (by omega) (by omega) _) (by omega),
        executeWithoutContext_eq, id, executeNextStep_append _ (by omega),
        increaseCurrentStep_append (by omega)]
  | .elseIf c body rest, pre, q, r, o, s, hw, hs, hd => by
      simp only [Branches.width, Branches.widest, Branches.depth] at hw hs hd ⊢
      have hr := rest.width_pos
      have ha : Away (pre ++ [q + 3]) pre q 3 := away_of_le (Nat.le_refl _)
      rw [Branches.after, executeWithoutContext_eq,
        executeNextStep_append _ (by omega), executeNextStep_append _ (by omega),
        executeNextStep_append _ (by omega), increaseCurrentStep_append (by omega),
        executeWithoutContext_ne _ (ha.ne (by omega) (by omega)) (by omega),
        Branches.call_eq_after,
        (callSequence_away body).body ha (by omega) (by omega) (by omega) (by omega) (by omega),
        Branches.after_skip rest _ _ _ _ _ (by omega) (by omega) (by omega)]
      simp [Nat.add_assoc]

variable {c : σ → Bool × σ}

section Bodies

variable {body : List (Stmt σ)} (hb : SequenceRuns body) (pre : List Nat) (i : Nat) (r o : Bool)
  (s : σ) {j : Nat} {path : List Nat} {fresh : Bool} {rest : List (Stmt σ)}
  (hat : At body j path fresh rest)

include hb hat

/-- The call of a body in the context of position `i`, up to and including its end. -/
theorem context_at (hw : max (width body) (widest body) < 256)
    (hd : pre.length + 1 + (1 + depth body) ≤ 8) :
    (∃ n t, Silent n rest s [] t ∧ (fresh = true → 1 ≤ n) ∧
      callSequence body ⟨pre ++ [i] ++ j :: path, pre ++ [i] ++ [0], r, o, s⟩
        = ⟨pre ++ [i] ++ [width body], pre ++ [i] ++ [width body], r, o, t⟩) ∨
    (∃ x r' t, Suspended (At body) (pre ++ [i]) 0 (width body) fresh rest r s x r' t ∧
      callSequence body ⟨pre ++ [i] ++ j :: path, pre ++ [i] ++ [0], r, o, s⟩
        = ⟨x, pre ++ [i] ++ [width body], r', o, t⟩) := by
  obtain ⟨x, r', t, he, ho⟩ := hb (pre ++ [i]) 0 r o s j path fresh rest hat (by omega) (by omega)
    (by simp; omega)
  rw [Nat.zero_add, Nat.zero_add] at he
  cases ho with
  | done hs hn =>
      rw [Nat.zero_add] at he
      exact .inl ⟨_, _, hs, hn, he⟩
  | stopped hsus => exact .inr ⟨_, _, _, hsus, he⟩

/-- The rest of a `ForEach` from inside its body: the increment is the last position of the
body's context. -/
theorem forEach_body (v : Variable σ) (first last : UInt32) (hi : i + 4 < 256)
    (hw : max (width body + 1) (widest body) < 256) (hd : pre.length + 1 + (1 + depth body) ≤ 8) :
    ∃ x r' t, (callSequence body
        ⟨pre ++ [i + 2] ++ j :: path, pre ++ [i + 2] ++ [0], r, o, s⟩).callEndForEach v
        = ⟨x, pre ++ [i + 4], r', o, t⟩ ∧
      Arrived (Stmt.forEach v first last body).At pre i 4 fresh
        (rest ++ [.execute v.increment,
          .whileLoop (v.differs last) (body ++ [.execute v.increment])]) r s x r' t := by
  rcases context_at hb pre (i + 2) r o s hat (by omega) hd with
    ⟨n, t, hs, hn, he⟩ | ⟨x, r', t, hsus, he⟩
  · have hstep : Silent 1 [.execute v.increment,
          .whileLoop (v.differs last) (body ++ [.execute v.increment])] t
        [.whileLoop (v.differs last) (body ++ [.execute v.increment])] (v.increment t) :=
      .cons rfl (.refl _ _)
    refine ⟨pre ++ (i + 1) :: [], true, v.increment t, ?_,
      .stopped (.again ((hs.append _).trans hstep) (fun _ => by omega) (by omega) .forCheck)⟩
    rw [he, callEndForEach, executeWithoutContext_eq, perform,
      executeNextStep_append _ (by omega), increaseCurrentStep_append (by omega),
      popContext_eq (by omega), executeWithoutContext_eq,
      goBack_append _ (by omega), increaseCurrentStep_append (by omega)]
  · refine ⟨x, r', t, ?_, .stopped ?_⟩
    · rw [he, callEndForEach,
        executeWithoutContext_ne _ (hsus.ne (Nat.le_of_eq (Nat.zero_add _))) (by omega),
        popContext_ne (hsus.ne (by omega)) (by omega),
        executeWithoutContext_ne _ (hsus.ne_context (Nat.lt_succ_self _)) (by omega)]
    · exact Suspended.lift_context _ hsus (.refl _ _) (fun h => .inr h) (by omega)
        (fun j path f q hq => .forBody hq)

/-- The body of a branch at position `d` of a construct, after some silent steps, and the branches
behind it. -/
theorem branch_at (branches : Branches σ)
    {d n : Nat} {fresh' : Bool} {rest₀ : List (Stmt σ)} (hs : Silent n rest₀ s₀ rest s)
    (hf : fresh' = true → 1 ≤ n ∨ fresh = true)
    (hp : ∀ j path f q, At body j path f q → Pos d (j :: path) f q)
    (hi : i + (d + 1 + branches.width) < 256)
    (hw : max (max (width body) (widest body)) branches.widest < 256)
    (hd : pre.length + 1 + max (1 + depth body) branches.depth ≤ 8) :
    ∃ x r' t, branches.call (callSequence body
        ⟨pre ++ [i + d] ++ j :: path, pre ++ [i + d] ++ [0], r, o, s⟩)
        = ⟨x, pre ++ [i + (d + 1 + branches.width)], r', o, t⟩ ∧
      Arrived Pos pre i (d + 1 + branches.width) fresh' rest₀ r s₀ x r' t := by
  have hsum : i + d + 1 + branches.width = i + (d + 1 + branches.width) := by omega
  rcases context_at hb pre (i + d) r o s hat (by omega) (by omega) with
    ⟨n, t, hs', hn, he⟩ | ⟨x, r', t, hsus, he⟩
  · refine ⟨_, r, t, ?_, .done (hs.trans hs') ?_⟩
    · rw [he, Branches.call_eq_after, popContext_eq (by omega),
        Branches.after_skip branches _ _ _ _ _ (by omega) (by omega) (by omega), hsum]
    · intro hfresh
      rcases hf hfresh with h1 | h1
      · omega
      · have := hn h1; omega
  · refine ⟨x, r', t, ?_, .stopped (hsus.lift_context [] (by simpa using hs) hf (by omega)
      (fun j path f q hq => by simpa using hp j path f q hq))⟩
    rw [he, Branches.call_eq_after,
      popContext_ne (hsus.ne (Nat.le_of_eq (Nat.zero_add _))) (by omega),
      Branches.after_away branches _ _ _ _ _ _ (hsus.away_context (by omega) _) (by omega)
        (by omega) (by omega), hsum]

variable (hw : max (width body) (widest body) < 256) (hd : pre.length + 1 + (1 + depth body) ≤ 8)

include hw hd

/-- The rest of an `Execute` from inside its context. -/
theorem executeBlock_body (hi : i + 1 < 256) :
    ∃ x r' t, (callSequence body ⟨pre ++ [i] ++ j :: path, pre ++ [i] ++ [0], r, o, s⟩).popContext
        = ⟨x, pre ++ [i + 1], r', o, t⟩ ∧
      Arrived (Stmt.executeBlock body).At pre i 1 fresh rest r s x r' t := by
  rcases context_at hb pre i r o s hat hw hd with ⟨n, t, hs, hn, he⟩ | ⟨x, r', t, hsus, he⟩
  · refine ⟨_, _, _, ?_, .done hs hn⟩
    rw [he, popContext_eq hi]
  · refine ⟨x, r', t, ?_, .stopped ?_⟩
    · rw [he, popContext_ne (hsus.ne (Nat.le_of_eq (Nat.zero_add _))) hi]
    · exact Suspended.lift_context (d := 0) [] hsus (by simpa using Silent.refl _ _) (fun h => .inr h)
        (by omega) (fun j path f q hq => by simpa using .block hq)

/-- The rest of a `While` from inside its body: the call stops in the body, or at the head of the
loop again. -/
theorem whileLoop_body (hi : i + 3 < 256) :
    ∃ x r' t, (callSequence body
        ⟨pre ++ [i + 1] ++ j :: path, pre ++ [i + 1] ++ [0], r, o, s⟩).callEndWhile
        = ⟨x, pre ++ [i + 3], r', o, t⟩ ∧
      Arrived (Stmt.whileLoop c body).At pre i 3 fresh (rest ++ [.whileLoop c body]) r s x r' t := by
  rcases context_at hb pre (i + 1) r o s hat hw hd with ⟨n, t, hs, hn, he⟩ | ⟨x, r', t, hsus, he⟩
  · refine ⟨pre ++ (i + 0) :: [], true, t, ?_, .stopped ?_⟩
    · rw [he, callEndWhile, popContext_eq (by omega),
        executeWithoutContext_eq, goBack_append _ (by omega),
        increaseCurrentStep_append (by omega)]
      simp
    · exact .again (hs.append _) hn (by omega) (.start _)
  · refine ⟨x, r', t, ?_, .stopped ?_⟩
    · rw [he, callEndWhile,
        popContext_ne (hsus.ne (Nat.le_of_eq (Nat.zero_add _))) (by omega),
        executeWithoutContext_ne _ (hsus.ne_context (Nat.lt_succ_self _)) (by omega)]
    · exact Suspended.lift_context _ hsus (.refl _ _) (fun h => .inr h) (by omega)
        (fun j path f q hq => .whileBody hq)

/-- The rest of a `DoWhile` from inside its body. -/
theorem doWhile_body (c : σ → Bool × σ) (hi : i + 3 < 256)
    (fresh' : Bool) (hf : fresh' = true → fresh = true ∨ body = []) :
    ∃ x r' t, (callSequence body
        ⟨pre ++ [i + 1] ++ j :: path, pre ++ [i + 1] ++ [0], r, o, s⟩).callEndDoWhile c
        = ⟨x, pre ++ [i + 3], r', o, t⟩ ∧
      Arrived (Stmt.doWhile body c).At pre i 3 fresh' (rest ++ [.whileLoop c body]) r s x r' t := by
  rcases context_at hb pre (i + 1) r o s hat hw hd with ⟨n, t, hs, hn, he⟩ | ⟨x, r', t, hsus, he⟩
  · rw [he, callEndDoWhile, popContext_eq (by omega),
      executeWithoutContext_eq]
    cases hc : (c t).1 with
    | true =>
        have hstep : Silent 1 [.whileLoop c body] t (body ++ [.whileLoop c body]) (c t).2 :=
          .single (by simp [Stmt.next, hc])
        refine ⟨pre ++ (i + 0) :: [], true, (c t).2, ?_,
          .stopped (.again ((hs.append _).trans hstep) (fun _ => by omega) (by omega) .doAgain)⟩
        simp only [evaluate, hc, if_true]
        rw [goBack_append _ (by omega), increaseCurrentStep_append (by omega)]
        simp
    | false =>
        have hstep : Silent 1 [.whileLoop c body] t [] (c t).2 :=
          .single (by simp [Stmt.next, hc])
        refine ⟨pre ++ [i + 3], r, (c t).2, ?_,
          .done ((hs.append _).trans hstep) (fun _ => by omega)⟩
        simp only [evaluate, hc, Bool.false_eq_true, if_false]
        rw [executeNextStep_append _ (by omega),
          increaseCurrentStep_append (by omega)]
  · refine ⟨x, r', t, ?_, .stopped ?_⟩
    · rw [he, callEndDoWhile,
        popContext_ne (hsus.ne (Nat.le_of_eq (Nat.zero_add _))) (by omega),
        executeWithoutContext_ne _ (hsus.ne_context (Nat.lt_succ_self _)) (by omega)]
    · refine Suspended.lift_context _ hsus (.refl _ _) ?_ (by omega)
        (fun j path f q hq => .doBody hq)
      intro h
      rcases hf h with h1 | rfl
      · exact .inr h1
      · -- an empty body has no position at which a call could stop
        cases hsus with
        | again _ _ hj _ => simp at hj
        | paused _ hj _ _ => simp at hj

/-- The rest of an `Else` part from inside its body. -/
theorem elseBlock_body (hi : i + 3 < 256) :
    ∃ x r' t, (callSequence body
        ⟨pre ++ [i + 1] ++ j :: path, pre ++ [i + 1] ++ [0], r, o, s⟩).callEndIf
        = ⟨x, pre ++ [i + 3], r', o, t⟩ ∧
      Arrived (Branches.elseBlock body).At pre i 3 fresh rest r s x r' t := by
  rcases context_at hb pre (i + 1) r o s hat hw hd with ⟨n, t, hs, hn, he⟩ | ⟨x, r', t, hsus, he⟩
  · refine ⟨_, _, _, ?_, .done hs hn⟩
    rw [he, callEndIf, popContext_eq (by omega), executeWithoutContext_eq,
      id, executeNextStep_append _ (by omega),
      increaseCurrentStep_append (by omega)]
  · refine ⟨x, r', t, ?_, .stopped ?_⟩
    · rw [he, callEndIf,
        popContext_ne (hsus.ne (Nat.le_of_eq (Nat.zero_add _))) (by omega),
        executeWithoutContext_ne _ (hsus.ne_context (Nat.lt_succ_self _)) (by omega)]
    · exact Suspended.lift_context [] hsus (by simpa using Silent.refl _ _) (fun h => .inr h)
        (by omega) (fun j path f q hq => by simpa using .elseBody hq)

end Bodies

theorem inside_eq (pre path : List Nat) (k j : Nat) : pre ++ k :: j :: path = pre ++ [k] ++ j :: path := by simp

/-- A position inside the context of position `k` is not the position `k` itself. -/
theorem inside_ne (pre path : List Nat) (k j q : Nat) : pre ++ [k] ++ j :: path ≠ pre ++ [q] := by
  intro h
  have := congrArg List.length h
  simp at this

theorem step_at (action : σ → σ) : StmtRuns (.step action) := by
  intro pre i r o s j path fresh rest hat hw hs hd
  cases hat with
  | start =>
      simp only [Stmt.width] at hw ⊢
      refine ⟨pre ++ (i + 0) :: [], r, action s, ?_, .stopped ?_⟩
      · simp only [Stmt.call, callStep, executeCurrentStep, Nat.add_zero, BEq.rfl,
          if_true, perform]
        exact increaseCurrentStep_append hw
      · have ha : modifyBack advance [i + 0] = [i + 1] := by
          simp [modifyBack, advance, Nat.mod_eq_of_lt hw]
        exact .paused (.refl _ _) (by omega) ha (.inr ⟨rfl, rfl, rfl⟩)

theorem execute_at (action : σ → σ) : StmtRuns (.execute action) := by
  intro pre i r o s j path fresh rest hat hw hs hd
  cases hat with
  | start =>
      simp only [Stmt.width, Stmt.depth] at hw hd ⊢
      refine ⟨pre ++ [i + 1], r, action s, ?_, .done (.single rfl) (fun _ => Nat.le_refl _)⟩
      simp only [Stmt.call, callExecute, Nat.add_zero, List.take_length, BEq.rfl, if_true]
      rw [pushContext_eq (by omega), perform, popContext_eq hw]

theorem executeBlock_at {body : List (Stmt σ)} (hb : SequenceRuns body) :
    StmtRuns (.executeBlock body) := by
  intro pre i r o s j path fresh rest hat hw hs hd
  simp only [Stmt.width, Stmt.widest, Stmt.depth] at hw hs hd ⊢
  cases hat with
  | start =>
      obtain ⟨x, r', t, he, ha⟩ :=
        executeBlock_body hb pre i r o s (at_start body) hs hd hw
      refine ⟨x, r', t, ?_, ha.prepend (.single rfl) (Nat.le_refl 1)⟩
      simp only [Stmt.call, callExecute, Nat.add_zero, List.take_length, BEq.rfl, if_true]
      rw [pushContext_eq (by omega), he]
  | @block _ _ j path _ hin =>
      obtain ⟨x, r', t, he, ha⟩ := executeBlock_body hb pre i r o s hin hs hd hw
      refine ⟨x, r', t, ?_, ha⟩
      have htake : (pre ++ [i] ++ j :: path).take (pre ++ [i]).length = pre ++ [i] := by
        rw [List.take_left']; rfl
      rw [Nat.add_zero, inside_eq]
      simp only [Stmt.call, callExecute, htake, BEq.rfl, if_true]
      rw [pushContext_ne (inside_ne _ _ _ _ _) (by omega), he]

/-- A condition that holds lets the body be entered. -/
theorem unlessSkip_true (hc : (c s).1 = true) (hi : i + 1 < 256) :
    executeWithoutContext (unlessSkip c) ⟨pre ++ [i], pre ++ [i], r, o, s⟩
      = ⟨pre ++ [i + 1], pre ++ [i + 1], r, o, (c s).2⟩ := by
  simp only [executeWithoutContext_eq, unlessSkip, evaluate, hc, if_true]
  rw [executeNextStep_append _ hi, increaseCurrentStep_append hi]

/-- One that does not hold moves `execute` behind it. -/
theorem unlessSkip_false (hc : (c s).1 = false) (hi : i + 3 < 256) :
    executeWithoutContext (unlessSkip c) ⟨pre ++ [i], pre ++ [i], r, o, s⟩
      = ⟨pre ++ [i + 3], pre ++ [i + 1], r, o, (c s).2⟩ := by
  simp only [executeWithoutContext_eq, unlessSkip, evaluate, hc,
    Bool.false_eq_true, if_false]
  rw [executeNextStep_append _ (by omega), executeNextStep_append _ (by omega),
    executeNextStep_append _ hi, increaseCurrentStep_append (by omega)]

theorem whileLoop_at (c : σ → Bool × σ) {body : List (Stmt σ)} (hb : SequenceRuns body) :
    StmtRuns (.whileLoop c body) := by
  intro pre i r o s j path fresh rest hat hw hs hd
  simp only [Stmt.width, Stmt.widest, Stmt.depth] at hw hs hd ⊢
  cases hat with
  | start =>
      simp only [Stmt.call, callWhile, callIf, Nat.add_zero]
      cases hc : (c s).1 with
      | true =>
          obtain ⟨x, r', t, he, ha⟩ :=
            whileLoop_body (c := c) hb pre i r o (c s).2 (at_start body) hs hd hw
          refine ⟨x, r', t, ?_, ha.prepend (.single ?_) (Nat.le_refl 1)⟩
          · rw [unlessSkip_true hc (by omega), pushContext_eq (by omega), he]
          · simp [Stmt.next, hc]
      | false =>
          refine ⟨pre ++ [i + 3], r, (c s).2, ?_, .done (.single ?_) (fun _ => Nat.le_refl 1)⟩
          · have ha : Away (pre ++ [i + 3]) pre i 3 := away_of_le (Nat.le_refl _)
            rw [unlessSkip_false hc (by omega),
              callEndWhile,
              (callSequence_away body).body ha (by omega) (by omega) (by omega) (by omega) (by omega),
              executeWithoutContext_ne _ (ha.ne (by omega) (by omega)) (by omega)]
          · simp [Stmt.next, hc]
  | @whileBody _ _ rest j path _ hin =>
      obtain ⟨x, r', t, he, ha⟩ := whileLoop_body (c := c) hb pre i r o s hin hs hd hw
      refine ⟨x, r', t, ?_, ha⟩
      rw [inside_eq]
      simp only [Stmt.call, callWhile, callIf]
      rw [executeWithoutContext_ne _ (inside_ne _ _ _ _ _) (by omega),
        pushContext_ne (inside_ne _ _ _ _ _) (by omega), he]

theorem doWhile_at (c : σ → Bool × σ) {body : List (Stmt σ)} (hb : SequenceRuns body) :
    StmtRuns (.doWhile body c) := by
  intro pre i r o s j path fresh rest hat hw hs hd
  simp only [Stmt.width, Stmt.widest, Stmt.depth] at hw hs hd ⊢
  have hfresh : (!body.isEmpty) = true ∨ body = [] := by cases body <;> simp
  have henter : ((Machine.mk (pre ++ [i]) (pre ++ [i]) r o s).callDoWhile)
      = ⟨pre ++ [i + 1] ++ [0], pre ++ [i + 1] ++ [0], r, o, s⟩ := by
    rw [callDoWhile, executeWithoutContext_eq, id,
      executeNextStep_append _ (by omega), increaseCurrentStep_append (by omega),
      pushContext_eq (by omega)]
  cases hat with
  | start =>
      obtain ⟨x, r', t, he, ha⟩ := doWhile_body hb pre i r o s (at_start body) hs hd c hw
        true (fun _ => hfresh)
      refine ⟨x, r', t, ?_, ha.prepend (.single rfl) (Nat.le_refl 1)⟩
      simp only [Stmt.call, Nat.add_zero]
      rw [henter, he]
  | doAgain =>
      obtain ⟨x, r', t, he, ha⟩ := doWhile_body hb pre i r o s (at_start body) hs hd c hw
        true (fun _ => hfresh)
      refine ⟨x, r', t, ?_, ha⟩
      simp only [Stmt.call, Nat.add_zero]
      rw [henter, he]
  | @doBody _ _ rest j path _ hin =>
      obtain ⟨x, r', t, he, ha⟩ := doWhile_body hb pre i r o s hin hs hd c hw _
        (fun h => .inl h)
      refine ⟨x, r', t, ?_, ha⟩
      rw [inside_eq]
      simp only [Stmt.call, callDoWhile]
      rw [executeWithoutContext_ne _ (inside_ne _ _ _ _ _) (by omega),
        pushContext_ne (inside_ne _ _ _ _ _) (by omega), he]

/-- A `ForEach` from its check on. -/
theorem forEach_check (v : Variable σ) (first last : UInt32) {body : List (Stmt σ)}
    (hb : SequenceRuns body) (pre : List Nat) (i : Nat) (r o : Bool) (s : σ)
    (hi : i + 4 < 256) (hw : max (width body + 1) (widest body) < 256)
    (hd : pre.length + 1 + (1 + depth body) ≤ 8) :
    ∃ x r' t, (callSequence body ((Machine.mk (pre ++ [i + 1]) (pre ++ [i + 1]) r o
        s).executeWithoutContext (unlessSkip (v.differs last))).pushContext).callEndForEach v
        = ⟨x, pre ++ [i + 4], r', o, t⟩ ∧
      Arrived (Stmt.forEach v first last body).At pre i 4 true
        [.whileLoop (v.differs last) (body ++ [.execute v.increment])] r s x r' t := by
  cases hc : (v.differs last s).1 with
  | true =>
      have hs' : (v.differs last s).2 = s := rfl
      obtain ⟨x, r', t, he, ha⟩ := forEach_body hb pre i r o s (at_start body) v first last hi hw hd
      refine ⟨x, r', t, ?_, ha.prepend (.single ?_) (Nat.le_refl 1)⟩
      · rw [unlessSkip_true hc (by omega), pushContext_eq (by omega), hs', he]
      · simp [Stmt.next, hc, hs']
  | false =>
      refine ⟨pre ++ [i + 4], r, (v.differs last s).2, ?_, .done (.single ?_) (fun _ => Nat.le_refl 1)⟩
      · have ha : Away (pre ++ [i + 4]) pre i 4 := away_of_le (Nat.le_refl _)
        rw [unlessSkip_false hc (by omega),
          pushContext_ne (ha.ne (by omega) (by omega)) (by omega),
          callSequence_away body _ _ _ _ _ _ (ha.inner (by omega) (by omega) _ _) (by omega)
            (by omega) (by simp; omega),
          callEndForEach,
          executeWithoutContext_ne _ (ha.inner_ne (by omega) (by omega) _) (by omega),
          popContext_ne (ha.inner_ne (by omega) (by omega) _) (by omega),
          executeWithoutContext_ne _ (ha.ne (by omega) (by omega)) (by omega)]
      · simp [Stmt.next, hc]

theorem forEach_at (v : Variable σ) (first last : UInt32) {body : List (Stmt σ)}
    (hb : SequenceRuns body) : StmtRuns (.forEach v first last body) := by
  intro pre i r o s j path fresh rest hat hw hs hd
  simp only [Stmt.width, Stmt.widest, Stmt.depth] at hw hs hd ⊢
  cases hat with
  | start =>
      obtain ⟨x, r', t, he, ha⟩ := forEach_check v first last hb pre i r o (v.set first s) hw hs hd
      refine ⟨x, r', t, ?_, ha.prepend (.single rfl) (Nat.le_refl 1)⟩
      simp only [Stmt.call, callForEach, Nat.add_zero]
      rw [executeWithoutContext_eq, perform,
        executeNextStep_append _ (by omega), increaseCurrentStep_append (by omega),
        he]
  | forCheck =>
      obtain ⟨x, r', t, he, ha⟩ := forEach_check v first last hb pre i r o s hw hs hd
      refine ⟨x, r', t, ?_, ha⟩
      simp only [Stmt.call, callForEach]
      rw [executeWithoutContext_ne _ (by simp) (by omega), he]
  | @forBody _ _ _ _ rest j path _ hin =>
      obtain ⟨x, r', t, he, ha⟩ := forEach_body hb pre i r o s hin v first last hw hs hd
      refine ⟨x, r', t, ?_, ha⟩
      rw [inside_eq]
      simp only [Stmt.call, callForEach]
      rw [executeWithoutContext_ne _ (inside_ne _ _ _ _ _) (by omega),
        executeWithoutContext_ne _ (inside_ne _ _ _ _ _) (by omega),
        pushContext_ne (inside_ne _ _ _ _ _) (by omega), he]

/-! ### `If` and its branches -/

/-- The branches behind an `If` whose body was not entered: from the position to which a
condition that does not hold jumps, and from the positions inside of them. -/
structure BranchesRun (branches : Branches σ) : Prop where
  otherwise : ∀ (pre : List Nat) (q : Nat) (r o : Bool) (s : σ), q + branches.width < 256 →
    branches.widest < 256 → pre.length + 1 + branches.depth ≤ 8 →
    ∃ x r' t, branches.after ⟨pre ++ [q + 1], pre ++ [q], r, o, s⟩
        = ⟨x, pre ++ [q + branches.width], r', o, t⟩ ∧
      Arrived branches.At pre q branches.width false branches.otherwise r s x r' t
  inside : ∀ (pre : List Nat) (q : Nat) (r o : Bool) (s : σ) (j : Nat) (path : List Nat)
    (fresh : Bool) (rest : List (Stmt σ)), branches.At j path fresh rest →
    q + branches.width < 256 → branches.widest < 256 → pre.length + 1 + branches.depth ≤ 8 →
    ∃ x r' t, branches.after ⟨pre ++ (q + j) :: path, pre ++ [q], r, o, s⟩
        = ⟨x, pre ++ [q + branches.width], r', o, t⟩ ∧
      Arrived branches.At pre q branches.width fresh rest r s x r' t

theorem endIf_run : BranchesRun (.endIf : Branches σ) := by
  refine ⟨?_, ?_⟩
  · intro pre q r o s hw hs hd
    refine ⟨pre ++ [q + 1], r, s, ?_, .done (.refl _ _) (by simp)⟩
    rw [Branches.after, executeWithoutContext_ne _ (by simp) hw]
    rfl
  · intro pre q r o s j path fresh rest hat
    cases hat

theorem elseBlock_run {body : List (Stmt σ)} (hb : SequenceRuns body) :
    BranchesRun (.elseBlock body) := by
  refine ⟨?_, ?_⟩
  · intro pre q r o s hw hs hd
    simp only [Branches.width, Branches.widest, Branches.depth] at hw hs hd ⊢
    obtain ⟨x, r', t, he, ha⟩ := elseBlock_body hb pre q r o s (at_start body) hs hd hw
    refine ⟨x, r', t, ?_, ?_⟩
    · rw [Branches.after, executeWithoutContext_ne _ (by simp) (by omega),
        pushContext_eq (by omega), he]
    · simp only [Branches.otherwise]
      exact ha.stale
  · intro pre q r o s j path fresh rest hat hw hs hd
    simp only [Branches.width, Branches.widest, Branches.depth] at hw hs hd ⊢
    cases hat with
    | @elseBody _ _ j path _ hin =>
        obtain ⟨x, r', t, he, ha⟩ := elseBlock_body hb pre q r o s hin hs hd hw
        refine ⟨x, r', t, ?_, ha⟩
        rw [inside_eq, Branches.after, executeWithoutContext_ne _ (inside_ne _ _ _ _ _) (by omega),
          pushContext_ne (inside_ne _ _ _ _ _) (by omega), he]

theorem elseIf_run (c : σ → Bool × σ) {body : List (Stmt σ)} (hb : SequenceRuns body)
    {branches : Branches σ} (hr : BranchesRun branches) :
    BranchesRun (.elseIf c body branches) := by
  refine ⟨?_, ?_⟩
  · intro pre q r o s hw hs hd
    simp only [Branches.width, Branches.widest, Branches.depth] at hw hs hd ⊢
    have hpos := branches.width_pos
    simp only [Branches.after, Branches.otherwise]
    rw [executeWithoutContext_ne _ (by simp) (by omega)]
    cases hc : (c s).1 with
    | true =>
        have hstep : Silent 1 [.ifBlock c body branches] s body (c s).2 :=
          .single (by simp [Stmt.next, hc])
        rw [unlessSkip_true hc (by omega), pushContext_eq (by omega)]
        exact branch_at hb pre q r o (c s).2 (at_start body) branches hstep (by simp)
          (fun j path f q hq => Branches.At.elseIfBody hq) (by omega) hs hd
    | false =>
        have hstep : Silent 1 [.ifBlock c body branches] s branches.otherwise (c s).2 :=
          .single (by simp [Stmt.next, hc])
        have ha : Away (pre ++ [q + 4]) pre q 4 := away_of_le (Nat.le_refl _)
        obtain ⟨x, r', t, he, harr⟩ := hr.otherwise pre (q + 3) r o (c s).2 (by omega) (by omega)
          (by omega)
        refine ⟨x, r', t, ?_, harr.lift hstep (by simp) (fun j path f q hq => .elseIfRest hq)⟩
        rw [unlessSkip_false hc (by omega),
          Branches.call_eq_after,
          (callSequence_away body).body ha (by omega) (by omega) (by omega) (by omega) (by omega), he, Nat.add_assoc]
  · intro pre q r o s j path fresh rest hat hw hs hd
    simp only [Branches.width, Branches.widest, Branches.depth] at hw hs hd ⊢
    cases hat with
    | @elseIfBody _ _ _ _ j path _ hin =>
        rw [inside_eq, Branches.after, executeWithoutContext_ne _ (inside_ne _ _ _ _ _) (by omega),
          executeWithoutContext_ne _ (inside_ne _ _ _ _ _) (by omega),
          pushContext_ne (inside_ne _ _ _ _ _) (by omega)]
        exact branch_at hb pre q r o s hin branches (.refl _ _) (fun h => .inr h)
          (fun j path f q hq => .elseIfBody hq) (by omega) hs hd
    | @elseIfRest _ _ _ _ j _ _ hin =>
        have ha : Away (pre ++ (q + (3 + j)) :: path) pre q 3 := away_of_le (by omega)
        obtain ⟨x, r', t, he, harr⟩ := hr.inside pre (q + 3) r o s j path fresh rest hin (by omega)
          (by omega) (by omega)
        refine ⟨x, r', t, ?_, harr.lift (.refl _ _) (fun h => .inr h)
          (fun j path f q hq => .elseIfRest hq)⟩
        rw [Branches.after, executeWithoutContext_ne _ (ha.ne (by omega) (by omega)) (by omega),
          executeWithoutContext_ne _ (ha.ne (by omega) (by omega)) (by omega),
          Branches.call_eq_after,
          (callSequence_away body).body ha (by omega) (by omega) (by omega) (by omega) (by omega),
          ← Nat.add_assoc, he, Nat.add_assoc]

theorem ifBlock_at (c : σ → Bool × σ) {body : List (Stmt σ)} (hb : SequenceRuns body)
    {branches : Branches σ} (hr : BranchesRun branches) :
    StmtRuns (.ifBlock c body branches) := by
  intro pre i r o s j path fresh rest hat hw hs hd
  simp only [Stmt.width, Stmt.widest, Stmt.depth] at hw hs hd ⊢
  have hpos := branches.width_pos
  cases hat with
  | start =>
      simp only [Stmt.call, callIf, Nat.add_zero]
      cases hc : (c s).1 with
      | true =>
          have hstep : Silent 1 [.ifBlock c body branches] s body (c s).2 :=
            .single (by simp [Stmt.next, hc])
          rw [unlessSkip_true hc (by omega), pushContext_eq (by omega)]
          exact branch_at hb pre i r o (c s).2 (at_start body) branches hstep
            (fun _ => .inl (Nat.le_refl 1)) (fun j path f q hq => .ifBody hq) (by omega) hs hd
      | false =>
          have hstep : Silent 1 [.ifBlock c body branches] s branches.otherwise (c s).2 :=
            .single (by simp [Stmt.next, hc])
          have ha : Away (pre ++ [i + 3]) pre i 3 := away_of_le (Nat.le_refl _)
          obtain ⟨x, r', t, he, harr⟩ := hr.otherwise pre (i + 2) r o (c s).2 (by omega) (by omega)
            (by omega)
          refine ⟨x, r', t, ?_, harr.lift hstep (fun _ => .inl (Nat.le_refl 1))
            (fun j path f q hq => .ifRest hq)⟩
          rw [unlessSkip_false hc (by omega),
            Branches.call_eq_after,
            (callSequence_away body).body ha (by omega) (by omega) (by omega) (by omega) (by omega), he,
            Nat.add_assoc]
  | @ifBody _ _ _ _ j path _ hin =>
      rw [inside_eq]
      simp only [Stmt.call, callIf]
      rw [executeWithoutContext_ne _ (inside_ne _ _ _ _ _) (by omega),
        pushContext_ne (inside_ne _ _ _ _ _) (by omega)]
      exact branch_at hb pre i r o s hin branches (.refl _ _) (fun h => .inr h)
        (fun j path f q hq => .ifBody hq) (by omega) hs hd
  | @ifRest _ _ _ _ j _ _ hin =>
      have ha : Away (pre ++ (i + (2 + j)) :: path) pre i 2 := away_of_le (by omega)
      obtain ⟨x, r', t, he, harr⟩ := hr.inside pre (i + 2) r o s j path fresh rest hin (by omega)
        (by omega) (by omega)
      refine ⟨x, r', t, ?_, harr.lift (.refl _ _) (fun h => .inr h)
        (fun j path f q hq => .ifRest hq)⟩
      simp only [Stmt.call, callIf]
      rw [executeWithoutContext_ne _ (ha.ne (by omega) (by omega)) (by omega),
        Branches.call_eq_after,
        (callSequence_away body).body ha (by omega) (by omega) (by omega) (by omega) (by omega),
        ← Nat.add_assoc, he, Nat.add_assoc]

/-! ### Sequences -/

theorem nil_runs : SequenceRuns ([] : List (Stmt σ)) := by
  intro pre i r o s j path fresh rest hat hw hs hd
  cases hat with
  | done => exact ⟨_, _, _, rfl, .done (.refl _ _) (by simp)⟩

theorem cons_runs {st : Stmt σ} (hst : StmtRuns st) (hp : SequenceRuns p) :
    SequenceRuns (st :: p) := by
  intro pre i r o s j path fresh rest hat hw hs hd
  simp only [width_cons, widest, depth] at hw hs hd ⊢
  rw [show i + (st.width + width p) = i + st.width + width p by omega]
  simp only [callSequence]
  cases hat with
  | @here _ _ rest' _ _ _ hin =>
      obtain ⟨x, r', t, he, ha⟩ := hst pre i r o s j path fresh rest' hin (by omega) (by omega)
        (by omega)
      rw [he]
      cases ha with
      | @done n _ hs' hn =>
          obtain ⟨x, r', u, he', ha'⟩ := hp pre (i + st.width) r o t 0 [] _ p (at_start p)
            (by omega) (by omega) (by omega)
          refine ⟨x, r', u, he', ha'.lift (hs'.append p) ?_ (fun j path f q hq => .there hq)⟩
          intro h
          exact .inl (hn h)
      | stopped hsus =>
          refine ⟨x, r', t, ?_, .stopped (hsus.lift (d := 0) p (.refl _ _) (fun h => .inr h)
            (by omega) (fun j path f q hq => by simpa using .here hq) (.inl ⟨!p.isEmpty, ?_⟩))⟩
          · rw [callSequence_away p _ _ _ _ _ _ (hsus.away (Nat.le_refl _) _) (by omega) (by omega)
              (by omega)]
          · simpa using At.there (at_start p)
  | @there _ _ _ j _ _ hin =>
      obtain ⟨x, r', t, he, ha⟩ := hp pre (i + st.width) r o s j path fresh rest hin (by omega)
        (by omega) (by omega)
      refine ⟨x, r', t, ?_, ha.lift (.refl _ _) (fun h => .inr h) (fun j path f q hq => .there hq)⟩
      rw [Stmt.call_away st _ _ _ _ _ _ (away_of_le (by omega)) (by omega) (by omega) (by omega),
        ← Nat.add_assoc, he]

mutual

theorem Stmt.runs : ∀ st : Stmt σ, StmtRuns st
  | .step action => step_at action
  | .execute action => execute_at action
  | .executeBlock body => executeBlock_at (callSequence_at body)
  | .ifBlock c body branches => ifBlock_at c (callSequence_at body) (Branches.runs branches)
  | .whileLoop c body => whileLoop_at c (callSequence_at body)
  | .doWhile body c => doWhile_at c (callSequence_at body)
  | .forEach v first last body => forEach_at v first last (callSequence_at body)

theorem Branches.runs : ∀ branches : Branches σ, BranchesRun branches
  | .endIf => endIf_run
  | .elseBlock body => elseBlock_run (callSequence_at body)
  | .elseIf c body branches => elseIf_run c (callSequence_at body) (Branches.runs branches)

/-- **One call of the sequence function**, from any position of it. -/
theorem callSequence_at : ∀ p : List (Stmt σ), SequenceRuns p
  | [] => nil_runs
  | st :: p => cons_runs (Stmt.runs st) (callSequence_at p)

end

/-! ## `Continue` -/

/-- How one round of the loop in `Continue` leaves the machine. -/
inductive Round (p : List (Stmt σ)) (fresh : Bool) (rest : List (Stmt σ)) (s : σ) (o : Bool) :
    Machine σ → Prop where
  | done {n : Nat} {t : σ} (hs : Silent n rest s [] t) : Round p fresh rest s o ⟨[], [], false, o, t⟩
  | again {n j : Nat} {path : List Nat} {rest' : List (Stmt σ)} {t : σ}
      (hs : Silent n rest s rest' t) (hn : fresh = true → 1 ≤ n) (hp : At p j path true rest') :
      Round p fresh rest s o ⟨j :: path, [], true, o, t⟩
  | paused {n j : Nat} {x path : List Nat} {rest' : List (Stmt σ)} {action : σ → σ} {t : σ}
      {f : Bool} (hs : Silent n rest s (.step action :: rest') t)
      (ha : modifyBack advance x = j :: path) (hx : x ≠ []) (hp : At p j path f rest') :
      Round p fresh rest s o ⟨x, [], false, o, action t⟩

theorem round_of_arrived (h : Arrived (At p) [] 0 (width p) fresh rest false s x r' t) :
    Round p fresh rest s o (popContext ⟨x, [width p], r', o, t⟩) := by
  have hpop : ∀ {x : List Nat} {r' : Bool} {t : σ}, x ≠ [width p] →
      popContext (⟨x, [width p], r', o, t⟩ : Machine σ) = ⟨x, [], r', o, t⟩ := by
    intro x r' t hx
    simp [popContext, executeCurrentStep, beq_eq_false_iff_ne.mpr hx,
      popExamine]
  cases h with
  | done hs hn =>
      have : popContext (⟨[] ++ [0 + width p], [width p], false, o, t⟩ : Machine σ)
          = ⟨[], [], false, o, t⟩ := by
        simp [popContext, executeCurrentStep, popExecute,
          popExamine, finished]
      rw [this]
      exact .done hs
  | stopped h' =>
      have hne := h'.ne (Nat.le_of_eq (Nat.zero_add _))
      rw [hpop (by simpa using hne)]
      cases h' with
      | @again n j path rest' _ hs hn hj hp =>
          simp only [List.nil_append, Nat.zero_add]
          exact .again hs hn hp
      | @paused n j j' path path' rest' action u hs hj ha hp =>
          simp only [List.nil_append, Nat.zero_add] at ha ⊢
          rcases hp with ⟨f, hp⟩ | ⟨rfl, rfl, rfl⟩
          · exact .paused hs ha (by simp) hp
          · exact .paused hs ha (by simp) (at_end p)

section

variable {p : List (Stmt σ)} (hd : contextDepth p ≤ 8) (hw : positions p < 256)

include hd hw

/-- A round from a position. -/
theorem pass_at (hat : At p j path fresh rest) :
    Round p fresh rest s o (Machine.pass p ⟨j :: path, [], r, o, s⟩) := by
  simp only [contextDepth, positions] at hd hw
  obtain ⟨x, r', t, he, ha⟩ := callSequence_at p [] 0 false o s j path fresh rest hat (by omega)
    (by omega) (by simp; omega)
  have hpush : pushContext (⟨j :: path, [], false, o, s⟩ : Machine σ)
      = ⟨[] ++ (0 + j) :: path, [] ++ [0], false, o, s⟩ := by
    simp [pushContext, executeCurrentStep, pushExamine, maxContexts]
  rw [Machine.pass, hpush, he]
  simpa using round_of_arrived ha

/-- The first round after `Load`. -/
theorem pass_start : Round p (!p.isEmpty) p s o (Machine.pass p ⟨[], [], r, o, s⟩) := by
  simp only [contextDepth, positions] at hd hw
  obtain ⟨x, r', t, he, ha⟩ := callSequence_at p [] 0 false o s 0 [] _ p (at_start p) (by omega)
    (by omega) (by simp; omega)
  have hpush : pushContext (⟨[], [], false, o, s⟩ : Machine σ)
      = ⟨[] ++ (0 + 0) :: [], [] ++ [0], false, o, s⟩ := by
    simp [pushContext, executeCurrentStep, pushExecute,
      pushExamine, maxContexts]
  rw [Machine.pass, hpush, he]
  simpa using round_of_arrived ha

end

end EmbeddedInfra.Sequencer
