import EmbeddedInfra.Infra.TimerServiceProgress

set_option autoImplicit false

/-! # Passes over the timers

A call of `Progressed` is a pass over the list of armed timers. The action of a timer that is due may
start, restart, cancel and destroy timers, also the one at which the pass goes on. The pass comes to a
timer at most once, since what is left of the list only loses timers: new ones are put in front of it.
-/

namespace EmbeddedInfra.Timers.TimerService

open scoped List

variable {α ε : Type} (changed : TimePoint → ε → ε)

/-- What has happened in a pass: the events, each with the state before it. -/
abbrev Trace (α ε : Type) := List (TimerService α ε × Event α)

/-- A part of a pass that started in the state `start`. -/
inductive Pass (start : TimerService α ε) (time : TimePoint) :
    Trace α ε → TimerService α ε → Phase α → Prop where
  | begin : Pass start time [] start.beginProgressed (.scanning time)
  | step {trace : Trace α ε} {s s' : TimerService α ε} {p p' : Phase α} {e : Event α}
      (h : Pass start time trace s p) (hstep : Step changed s p e s' p') (hgoes : e ≠ .progressedReturns) :
      Pass start time (trace ++ [(s, e)]) s' p'

/-- The timer at which a turn of the loop looks. -/
def visited (x : TimerService α ε × Event α) : Option TimerId :=
  match x.2 with
  | .skip => x.1.timerIterator
  | .fire _ _ _ => x.1.timerIterator
  | _ => none

/-- The timers at which the pass has looked. -/
def visits (trace : Trace α ε) : List TimerId := trace.filterMap visited

/-- The action of the timer has been invoked. -/
def Fired (trace : Trace α ε) (i : TimerId) : Prop := ∃ m r action, (m, .fire i r action) ∈ trace

/-- The timer has been started, restarted, cancelled or destroyed before the pass came to it. -/
def Disturbed (trace : Trace α ε) (i : TimerId) : Prop :=
  ∃ before m op later, trace = before ++ (m, .operation op) :: later ∧ op.timer = i ∧ i ∉ visits before

/-- The timer at which a turn of the loop looks is armed, and it fires only when it is due. -/
structure RightTurn (time : TimePoint) (x : TimerService α ε × Event α) : Prop where
  armed : ∀ i, visited x = some i → x.1.Armed i
  due : ∀ i r action, x.2 = .fire i r action → visited x = some i ∧ x.1.triggerTime i ≤ time

/-- What is promised of a part of a pass, and of one that has come to the end of the list. -/
structure FiresDue (start : TimerService α ε) (time : TimePoint) (trace : Trace α ε) (s : TimerService α ε) :
    Prop where
  bounded : (visits trace).length ≤ start.scheduledTimers.length
  once : (visits trace).Nodup
  turns : ∀ x ∈ trace, RightTurn time x
  invoked : s.timerIterator = none → ∀ i, start.Armed i → start.triggerTime i ≤ time →
    Fired trace i ∨ Disturbed trace i

/-- What the timers of a program do when they fire, by what has happened so far. -/
structure Behaviour (α ε : Type) where
  recomputation : Trace α ε → TimerId → Recomputation α
  action : Trace α ε → TimerId → α
  operations : Trace α ε → TimerId → List (Operation α)
  recomputation_inRange : ∀ trace i, ((recomputation trace i).operation i).InRange
  operations_inRange : ∀ trace i, ∀ op ∈ operations trace i, op.InRange

/-- Every timer that has fired has done what the program says, and has returned. -/
def Behaviour.Directs (b : Behaviour α ε) (trace : Trace α ε) : Prop :=
  ∀ before m i r action later, trace = before ++ (m, .fire i r action) :: later →
    r = b.recomputation before i ∧ action = b.action before i ∧
      ∃ performed m' rest, later = performed ++ (m', .actionReturns) :: rest ∧
        performed.map (·.2) = (b.operations before i).map .operation

/-! ## What is left of the list -/

variable {changed} {start s s' : TimerService α ε} {time : TimePoint} {trace : Trace α ε}
  {x : TimerService α ε × Event α} {i : TimerId} {rest : List TimerId} {p : Phase α}

theorem visits_concat_of_none (hx : visited x = none) : visits (trace ++ [x]) = visits trace := by
  simp [visits, hx]

theorem visits_concat_of_some (hx : visited x = some i) :
    visits (trace ++ [x]) = visits trace ++ [i] := by
  simp [visits, hx]

/-- At an operation, or the end of an action, no timer is looked at. -/
theorem RightTurn.concat_of_none (h : ∀ x ∈ trace, RightTurn time x)
    (hx : visited x = none) (hfire : ∀ i r action, x.2 ≠ .fire i r action) :
    ∀ y ∈ trace ++ [x], RightTurn time y := by
  rw [List.forall_mem_append]
  refine ⟨h, fun y hy => ?_⟩
  rw [List.mem_singleton.mp hy]
  constructor
  · simp [hx]
  · exact fun i r action he => absurd he (hfire i r action)

/-- An operation takes no more than its own timer from what is left. -/
theorem Walks.perform_sublist (h : Walks s rest) (hwf : WellFormed s) (op : Operation α) :
    ∃ rest', Walks (s.perform changed op) rest' ∧ rest' <+ rest ∧ ∀ j ∈ rest, j ≠ op.timer → j ∈ rest' := by
  cases op with
  | setNextTriggerTime i t action =>
      exact ⟨rest, h.setNextTriggerTime changed i t action, List.Sublist.refl rest, fun j hj _ => hj⟩
  | cancel i =>
      refine ⟨rest.erase i, h.cancel changed hwf i, List.erase_sublist, ?_⟩
      exact fun j hj hne => (List.mem_erase_of_ne hne).mpr hj

/-- The iterator stands at the first timer that is left. -/
theorem Walks.exists_cons (h : Walks s rest) (hi : s.timerIterator = some i) :
    ∃ later, rest = i :: later := by
  have hhead := h.iterator
  rw [hi] at hhead
  rcases rest with _ | ⟨j, later⟩
  · cases hhead
  · cases hhead
    exact ⟨later, rfl⟩

/-- Where the walk is after a step. -/
theorem Walks.step {rest : List TimerId} (h : Walks s rest) (hwf : WellFormed s) {p p' : Phase α} {e : Event α}
    (hstep : Step changed s p e s' p') : ∃ rest', Walks s' rest' := by
  cases hstep with
  | operation op hop hp =>
      obtain ⟨rest', hrest', -⟩ := h.perform changed hwf op
      exact ⟨rest', hrest'⟩
  | progressed time => exact ⟨s.scheduledTimers, Walks.beginProgressed s⟩
  | skip hi hlate =>
      obtain ⟨later, rfl⟩ := h.exists_cons hi
      exact ⟨later, h.passTimer hwf.nodup⟩
  | fire hi hdue r hr action =>
      obtain ⟨later, rfl⟩ := h.exists_cons hi
      obtain ⟨rest', hrest', -⟩ := (h.passTimer hwf.nodup).perform changed (hwf.congr rfl rfl) (r.operation _)
      exact ⟨rest', hrest'⟩
  | actionReturns => exact ⟨rest, h⟩
  | progressedReturns hi =>
      obtain ⟨-, hlist, hiterator, -⟩ := endProgressed_keeps changed s
      exact ⟨rest, h.congr hlist hiterator⟩

/-- What holds during a pass that has the timers `rest` left. -/
structure Underway (start : TimerService α ε) (time : TimePoint) (trace : Trace α ε) (s : TimerService α ε)
    (p : Phase α) (rest : List TimerId) : Prop where
  wellFormed : s.WellFormed
  walks : s.Walks rest
  phase : p = .scanning time ∨ ∃ action, p = .acting time action
  sublist : visits trace ++ rest <+ start.scheduledTimers
  turns : ∀ x ∈ trace, RightTurn time x
  pending : ∀ i, start.Armed i → start.triggerTime i ≤ time →
    Fired trace i ∨ Disturbed trace i ∨ i ∈ rest ∧ s.triggerTime i ≤ time

theorem Fired.append (h : Fired trace i) (more : Trace α ε) : Fired (trace ++ more) i := by
  rcases h with ⟨m, r, action, hmem⟩
  exact ⟨m, r, action, List.mem_append_left more hmem⟩

theorem Disturbed.append (h : Disturbed trace i) (more : Trace α ε) :
    Disturbed (trace ++ more) i := by
  rcases h with ⟨before, m, op, later, rfl, htimer, hnot⟩
  exact ⟨before, m, op, later ++ more, by simp, htimer, hnot⟩

theorem Underway.begin (hwf : start.WellFormed) :
    Underway start time [] start.beginProgressed (.scanning time) start.scheduledTimers where
  wellFormed := hwf.congr rfl rfl
  walks := Walks.beginProgressed start
  phase := Or.inl rfl
  sublist := List.Sublist.refl _
  turns := by simp
  pending := fun i hi hdue => Or.inr (Or.inr ⟨(hwf.scheduled i).mpr hi, hdue⟩)

/-- A step at which no timer is visited: an operation in an action, or its end. -/
theorem Underway.operation (h : Underway start time trace s p rest)
    (hnodup : start.scheduledTimers.Nodup) (op : Operation α) :
    ∃ rest', Underway start time (trace ++ [(s, .operation op)]) (s.perform changed op) p rest' ∧ rest' <+ rest := by
  obtain ⟨rest', hwalks, hsub, hkept⟩ := h.walks.perform_sublist h.wellFormed op
  have hvisits : visits (trace ++ [(s, .operation op)]) = visits trace := visits_concat_of_none rfl
  refine ⟨rest', ⟨h.wellFormed.perform changed op, hwalks, h.phase, ?_, ?_, ?_⟩, hsub⟩
  · rw [hvisits]
    exact (hsub.append_left _).trans h.sublist
  · exact RightTurn.concat_of_none h.turns rfl (by simp)
  · intro i hi hdue
    rcases h.pending i hi hdue with hfired | hdisturbed | ⟨hrest, htime⟩
    · exact Or.inl (hfired.append _)
    · exact Or.inr (Or.inl (hdisturbed.append _))
    · by_cases hop : i = op.timer
      · -- the operation comes before the turn of the timer
        have hnot : i ∉ visits trace := by
          intro hvisited
          exact (List.nodup_append.mp (hnodup.sublist h.sublist)).2.2 i hvisited i hrest rfl
        exact Or.inr (Or.inl ⟨trace, s, op, [], rfl, hop.symm, hnot⟩)
      · refine Or.inr (Or.inr ⟨hkept i hrest hop, ?_⟩)
        rw [triggerTime_perform_of_ne changed s op hop]
        exact htime

theorem Underway.actionReturns {action : α}
    (h : Underway start time trace s (.acting time action) rest) :
    Underway start time (trace ++ [(s, .actionReturns)]) s (.scanning time) rest where
  wellFormed := h.wellFormed
  walks := h.walks
  phase := Or.inl rfl
  sublist := by
    rw [visits_concat_of_none rfl]
    exact h.sublist
  turns := RightTurn.concat_of_none h.turns rfl (by simp)
  pending := by
    intro i hi hdue
    rcases h.pending i hi hdue with hfired | hdisturbed | hrest
    · exact Or.inl (hfired.append _)
    · exact Or.inr (Or.inl (hdisturbed.append _))
    · exact Or.inr (Or.inr hrest)

/-- A turn of the loop looks at a timer that is armed. -/
theorem Underway.visit {later : List TimerId}
    (h : Underway start time trace s p (i :: later)) {e : Event α} (he : visited (s, e) = some i)
    (hdue : ∀ j r action, e = .fire j r action → j = i ∧ s.triggerTime i ≤ time) :
    ∀ x ∈ trace ++ [(s, e)], RightTurn time x := by
  rw [List.forall_mem_append]
  refine ⟨h.turns, fun x hx => ?_⟩
  rw [List.mem_singleton.mp hx]
  constructor
  · intro j hj
    rw [he, Option.some_inj] at hj
    exact hj ▸ (h.wellFormed.scheduled i).mp (h.walks.subset List.mem_cons_self)
  · intro j r action heq
    obtain ⟨rfl, htime⟩ := hdue j r action heq
    exact ⟨he, htime⟩

theorem Underway.skip {later : List TimerId}
    (h : Underway start time trace s (.scanning time) (i :: later)) (hi : s.timerIterator = some i)
    (hlate : time < s.triggerTime i) :
    Underway start time (trace ++ [(s, .skip)]) (s.passTimer i) (.scanning time) later where
  wellFormed := h.wellFormed.congr rfl rfl
  walks := h.walks.passTimer h.wellFormed.nodup
  phase := Or.inl rfl
  sublist := by
    have hvisits : visits (trace ++ [(s, .skip)]) = visits trace ++ [i] := visits_concat_of_some hi
    rw [hvisits, List.append_assoc]
    exact h.sublist
  turns := h.visit hi (by simp)
  pending := by
    intro j hj hdue
    rcases h.pending j hj hdue with hfired | hdisturbed | ⟨hrest, htime⟩
    · exact Or.inl (hfired.append _)
    · exact Or.inr (Or.inl (hdisturbed.append _))
    · rcases List.mem_cons.mp hrest with rfl | hlater
      · exact absurd htime (not_le.mpr hlate)
      · exact Or.inr (Or.inr ⟨hlater, htime⟩)

theorem Underway.fire {i : TimerId} {later : List TimerId}
    (h : Underway start time trace s (.scanning time) (i :: later)) (hi : s.timerIterator = some i)
    (hdue : s.triggerTime i ≤ time) (hnodup : start.scheduledTimers.Nodup) (r : Recomputation α) (action : α) :
    ∃ rest', Underway start time (trace ++ [(s, .fire i r action)]) ((s.passTimer i).perform changed (r.operation i))
      (.acting time action) rest' ∧ rest' <+ later := by
  have hwf : WellFormed (s.passTimer i) := h.wellFormed.congr rfl rfl
  obtain ⟨rest', hwalks, hsub, hkept⟩ := (h.walks.passTimer h.wellFormed.nodup).perform_sublist
    hwf (r.operation i)
  have hvisits : visits (trace ++ [(s, .fire i r action)]) = visits trace ++ [i] := visits_concat_of_some hi
  refine ⟨rest', ⟨hwf.perform changed _, hwalks, Or.inr ⟨action, rfl⟩, ?_, h.visit hi ?_, ?_⟩, hsub⟩
  · rw [hvisits]
    calc visits trace ++ [i] ++ rest'
        <+ visits trace ++ [i] ++ later := hsub.append_left _
      _ = visits trace ++ i :: later := by simp
      _ <+ start.scheduledTimers := h.sublist
  · intro j r' action' heq
    cases heq
    exact ⟨rfl, hdue⟩
  · intro j hj hjdue
    rcases h.pending j hj hjdue with hfired | hdisturbed | ⟨hrest, htime⟩
    · exact Or.inl (hfired.append _)
    · exact Or.inr (Or.inl (hdisturbed.append _))
    · rcases List.mem_cons.mp hrest with rfl | hlater
      · exact Or.inl ⟨s, r, action, by simp⟩
      · -- the timer recomputes its own trigger time only
        have hne : j ≠ i := by
          rintro rfl
          have hrestNodup := (hnodup.sublist h.sublist).sublist (List.sublist_append_right _ _)
          exact (List.nodup_cons.mp hrestNodup).1 hlater
        have hop : j ≠ (r.operation i).timer := by
          cases r with
          | cancel => exact hne
          | setNextTriggerTime t a => exact hne
        refine Or.inr (Or.inr ⟨hkept j hlater hop, ?_⟩)
        rw [triggerTime_perform_of_ne changed _ _ hop]
        exact htime

theorem Pass.underway (h : Pass changed start time trace s p) (hwf : start.WellFormed) :
    ∃ rest, Underway start time trace s p rest := by
  induction h with
  | begin => exact ⟨_, Underway.begin hwf⟩
  | step _ hstep hgoes ih =>
      obtain ⟨rest, hrest⟩ := ih
      cases hstep with
      | operation op hop hp =>
          obtain ⟨rest', hrest', -⟩ := hrest.operation hwf.nodup op
          exact ⟨rest', hrest'⟩
      | progressed t => simpa using hrest.phase
      | skip hi hlate =>
          obtain ⟨later, rfl⟩ := hrest.walks.exists_cons hi
          rcases hrest.phase with heq | ⟨action, heq⟩
          · cases heq
            exact ⟨later, hrest.skip hi hlate⟩
          · cases heq
      | fire hi hdue r hr action =>
          obtain ⟨later, rfl⟩ := hrest.walks.exists_cons hi
          rcases hrest.phase with heq | ⟨action', heq⟩
          · cases heq
            obtain ⟨rest', hrest', -⟩ := hrest.fire hi hdue hwf.nodup r action
            exact ⟨rest', hrest'⟩
          · cases heq
      | actionReturns =>
          rcases hrest.phase with heq | ⟨action, heq⟩
          · cases heq
          · cases heq
            exact ⟨rest, hrest.actionReturns⟩
      | progressedReturns hi => exact absurd rfl hgoes

theorem Underway.firesDue (h : Underway start time trace s p rest)
    (hnodup : start.scheduledTimers.Nodup) : FiresDue start time trace s where
  bounded := (List.sublist_append_left _ _).length_le.trans h.sublist.length_le
  once := (hnodup.sublist h.sublist).sublist (List.sublist_append_left _ _)
  turns := h.turns
  invoked := by
    intro hend i hi hdue
    rcases h.pending i hi hdue with hfired | hdisturbed | ⟨hrest, -⟩
    · exact Or.inl hfired
    · exact Or.inr hdisturbed
    · -- nothing is left
      have hhead := h.walks.iterator
      rw [hend] at hhead
      rcases rest with _ | ⟨j, rest⟩
      · cases hrest
      · cases hhead

/-! ## The pass ends -/

/-- The operations of an action, one after the other. -/
theorem Pass.operations {action : α} (h : Pass changed start time trace s (.acting time action))
    (hunder : Underway start time trace s (.acting time action) rest) (hnodup : start.scheduledTimers.Nodup)
    (ops : List (Operation α)) (hops : ∀ op ∈ ops, op.InRange) :
    ∃ performed s' rest', Pass changed start time (trace ++ performed) s' (.acting time action) ∧
      Underway start time (trace ++ performed) s' (.acting time action) rest' ∧ rest' <+ rest ∧
      performed.map (·.2) = ops.map .operation := by
  induction ops generalizing trace s rest with
  | nil => exact ⟨[], s, rest, by simpa using h, by simpa using hunder, List.Sublist.refl _, rfl⟩
  | cons op ops ih =>
      obtain ⟨rest₁, hunder₁, hsub₁⟩ := hunder.operation hnodup op
      have hpass₁ := h.step (.operation op (hops op List.mem_cons_self) trivial) (by simp)
      obtain ⟨performed, s', rest', hpass', hunder', hsub', hmap⟩ :=
        ih hpass₁ hunder₁ fun op' hop' => hops op' (List.mem_cons_of_mem op hop')
      rw [List.append_assoc, List.singleton_append] at hpass' hunder'
      exact ⟨_, s', rest', hpass', hunder', hsub'.trans hsub₁, by simp [hmap]⟩

theorem Behaviour.Directs.append {b : Behaviour α ε} {more : Trace α ε} (h : b.Directs trace)
    (hmore : ∀ before m i r action later, more = before ++ (m, .fire i r action) :: later →
      r = b.recomputation (trace ++ before) i ∧ action = b.action (trace ++ before) i ∧
        ∃ performed m' rest, later = performed ++ (m', .actionReturns) :: rest ∧
          performed.map (·.2) = (b.operations (trace ++ before) i).map .operation) : b.Directs (trace ++ more) := by
  intro before m i r action later heq
  rcases List.append_eq_append_iff.mp heq with ⟨part, rfl, hpart⟩ | ⟨part, htrace, hpart⟩
  · exact hmore part m i r action later hpart
  · rcases part with _ | ⟨first, part⟩
    · rw [List.append_nil] at htrace
      subst htrace
      have h' := hmore [] m i r action later hpart.symm
      rwa [List.append_nil] at h'
    · -- the timer has fired, and has returned, before
      obtain ⟨rfl, rfl⟩ := List.cons.inj hpart
      obtain ⟨hr, haction, performed, m', rest, rfl, hmap⟩ := h before m i r action part htrace
      exact ⟨hr, haction, performed, m', rest ++ more, by simp, hmap⟩

/-- The events of the action of a timer that has fired. -/
theorem Behaviour.directs_fired {b : Behaviour α ε} (h : b.Directs trace) {i : TimerId} {m m' : TimerService α ε}
    {performed : Trace α ε} (hmap : performed.map (·.2) = (b.operations trace i).map .operation) :
    b.Directs (trace ++ ((m, .fire i (b.recomputation trace i) (b.action trace i)) ::
      (performed ++ [(m', .actionReturns)]))) := by
  apply h.append
  intro before m₁ j r action later heq
  rcases before with _ | ⟨first, before⟩
  · cases heq
    rw [List.append_nil]
    exact ⟨rfl, rfl, performed, m', [], rfl, hmap⟩
  · -- the operations of an action are no timers that fire
    have hmem : (m₁, Event.fire j r action) ∈ performed ++ [(m', .actionReturns)] := by
      rw [(List.cons.inj heq).2]
      simp
    rcases List.mem_append.mp hmem with hmem | hmem
    · have hevent := List.mem_map_of_mem (f := (·.2)) hmem
      rw [hmap] at hevent
      simp at hevent
    · cases List.mem_singleton.mp hmem

theorem Behaviour.directs_skip {b : Behaviour α ε} (h : b.Directs trace) (m : TimerService α ε) :
    b.Directs (trace ++ [(m, .skip)]) := by
  apply h.append
  intro before m₁ j r action later heq
  have hmem : (m₁, Event.fire j r action) ∈ [(m, (Event.skip : Event α))] := by
    rw [heq]
    simp
  cases List.mem_singleton.mp hmem

/-- From the head of the loop the pass goes on to the end of the list, however many timers are left. -/
theorem Pass.completes (b : Behaviour α ε) (hnodup : start.scheduledTimers.Nodup) (left : Nat)
    {trace : Trace α ε} {s : TimerService α ε} (hleft : rest.length ≤ left)
    (h : Pass changed start time trace s (.scanning time))
    (hunder : Underway start time trace s (.scanning time) rest) (hdirects : b.Directs trace) :
    ∃ trace' s', Pass changed start time trace' s' (.scanning time) ∧ s'.timerIterator = none ∧ b.Directs trace' := by
  induction left generalizing trace s rest with
  | zero =>
      have hnil : rest = [] := List.length_eq_zero_iff.mp (by omega)
      subst hnil
      exact ⟨trace, s, h, hunder.walks.iterator, hdirects⟩
  | succ left ih =>
      rcases rest with _ | ⟨i, later⟩
      · exact ⟨trace, s, h, hunder.walks.iterator, hdirects⟩
      · have hi : s.timerIterator = some i := hunder.walks.iterator
        have hlater : later.length ≤ left := by simpa using hleft
        rcases lt_or_ge time (s.triggerTime i) with hlate | hdue
        · exact ih hlater (h.step (.skip hi hlate) (by simp)) (hunder.skip hi hlate)
            (Behaviour.directs_skip hdirects s)
        · have hpass₁ := h.step (.fire hi hdue (b.recomputation trace i) (b.recomputation_inRange trace i)
            (b.action trace i)) (by simp)
          obtain ⟨rest₁, hunder₁, hsub₁⟩ := hunder.fire hi hdue hnodup
            (b.recomputation trace i) (b.action trace i)
          obtain ⟨performed, s₂, rest₂, hpass₂, hunder₂, hsub₂, hmap⟩ := hpass₁.operations hunder₁ hnodup
            (b.operations trace i) (b.operations_inRange trace i)
          have hpass₃ := hpass₂.step .actionReturns (by simp)
          have hunder₃ := hunder₂.actionReturns
          have hdirects₃ := @Behaviour.directs_fired _ _ _ _ hdirects _ s s₂ _ hmap
          rw [List.append_cons, ← List.append_assoc] at hdirects₃
          refine ih ?_ hpass₃ hunder₃ hdirects₃
          exact ((hsub₂.trans hsub₁).length_le).trans hlater

theorem Reaches.wellFormed {P : TimerService α ε → Event α → Prop}
    (h : Reaches changed P s p) : s.WellFormed := by
  induction h with
  | construction members => exact (Sound.construction members).wellFormed
  | step _ _ hstep ih => exact ih.step changed hstep

theorem Reaches.walks {P : TimerService α ε → Event α → Prop}
    (h : Reaches changed P s p) : ∃ rest, Walks s rest := by
  induction h with
  | construction members => exact ⟨[], Walks.of_none rfl⟩
  | step hbefore _ hstep ih =>
      rcases ih with ⟨rest, hrest⟩
      exact hrest.step hbefore.wellFormed hstep

/-- **`Progressed` fires each due timer once.** In every pass over the timers of a service the timers at
which the pass looks are armed at that moment, each of them is looked at once, and it fires only when it is
due; at the end of the list every timer that was due when the pass began has fired, unless it was started,
restarted, cancelled or destroyed before its turn. And the pass ends, whatever the actions do. -/
theorem progressed_fires_due (h : Reaches changed (fun _ _ => True) start .outside) (time : TimePoint) :
    (∀ trace s p, Pass changed start time trace s p → FiresDue start time trace s) ∧
      ∀ b : Behaviour α ε, ∃ trace s, Pass changed start time trace s (.scanning time) ∧ s.timerIterator = none ∧
        b.Directs trace := by
  have hwf := h.wellFormed
  constructor
  · intro trace s p hpass
    obtain ⟨rest, hrest⟩ := hpass.underway hwf
    exact hrest.firesDue hwf.nodup
  · intro b
    apply Pass.completes b hwf.nodup _ le_rfl Pass.begin (Underway.begin hwf)
    intro before m i r action later heq
    simp at heq

/-- Two single shot timers, the later one of which is cancelled by the action of the other. -/
theorem progressed_fires_due_two : ∃ (start : TimerService Unit Unit) (trace : Trace Unit Unit) (s : TimerService Unit Unit),
    Reaches (fun _ => id) (fun _ _ => True) start .outside ∧ Pass (fun _ => id) start 20 trace s (.scanning 20) ∧
      s.timerIterator = none ∧ ∀ i, i = 0 ∨ i = 1 → Fired trace i ∨ Disturbed trace i := by
  let b : Behaviour Unit Unit :=
    { recomputation := fun _ _ => .cancel
      action := fun _ _ => ()
      operations := fun _ i => [.cancel (1 - i)]
      recomputation_inRange := fun _ _ => trivial
      operations_inRange := by simp [Operation.InRange] }
  have hreaches : Reaches (fun _ => id) (fun _ _ => True) ((({ members := () } : TimerService Unit Unit).perform
      (fun _ => id) (.setNextTriggerTime 0 5 ())).perform (fun _ => id) (.setNextTriggerTime 1 10 ())) .outside := by
    refine .step (.step (.construction ()) trivial (.operation _ ?_ trivial)) trivial (.operation _ ?_ trivial)
    all_goals decide
  have h := progressed_fires_due hreaches 20
  obtain ⟨trace, s, hpass, hend, -⟩ := h.2 b
  refine ⟨_, trace, s, hreaches, hpass, hend, ?_⟩
  rintro i (rfl | rfl)
  · exact (h.1 trace s _ hpass).invoked hend 0 (by decide) (by decide)
  · exact (h.1 trace s _ hpass).invoked hend 1 (by decide) (by decide)

end EmbeddedInfra.Timers.TimerService
