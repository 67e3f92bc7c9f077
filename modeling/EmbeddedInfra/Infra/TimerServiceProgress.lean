import EmbeddedInfra.Infra.TimerService

set_option autoImplicit false

/-! # What an operation on a timer does to a service

Also when timers are not restarted in order: the list is split at `timerIterator` into the timers
that `Progressed` has come to and those that are left (`Walks`); `NextTriggerChanged` is called when
`NextTrigger()` changes, and sees the new value (`Notifies`); and `NextTrigger()` is the time of
some timer (`Attained`).
-/

namespace EmbeddedInfra.Timers

/-- The timer that an operation is about. -/
def Operation.timer {α : Type} : Operation α → TimerId
  | setNextTriggerTime i _ _ => i
  | cancel i => i

/-- A timer is not set to `TimePoint::max()`, which stands for no time at all. -/
def Operation.BeforeMax {α : Type} : Operation α → Prop
  | setNextTriggerTime _ time _ => time < TimePoint.max
  | cancel _ => True

namespace TimerService

variable {α ε : Type} (changed : TimePoint → ε → ε) {s s' : TimerService α ε}
  {rest : List TimerId} {i j : TimerId} {op : Operation α}

/-! ## The walk along the list -/

/-- `Progressed` has the timers `rest` left. -/
structure Walks (s : TimerService α ε) (rest : List TimerId) : Prop where
  split : ∃ visited, s.scheduledTimers = visited ++ rest
  iterator : s.timerIterator = rest.head?

theorem Walks.congr (h : Walks s rest) (hlist : s'.scheduledTimers = s.scheduledTimers)
    (hiterator : s'.timerIterator = s.timerIterator) : Walks s' rest :=
  ⟨hlist ▸ h.split, hiterator.trans h.iterator⟩

/-- The end of the list has been reached. -/
theorem Walks.of_none (h : s.timerIterator = none) : Walks s [] :=
  ⟨⟨s.scheduledTimers, (List.append_nil _).symm⟩, h⟩

theorem Walks.beginProgressed (s : TimerService α ε) : Walks s.beginProgressed s.scheduledTimers :=
  ⟨⟨[], rfl⟩, rfl⟩

theorem Walks.subset (h : Walks s rest) (hi : i ∈ rest) : i ∈ s.scheduledTimers := by
  obtain ⟨visited, hsplit⟩ := h.split
  rw [hsplit]
  exact List.mem_append_right visited hi

/-- The timer after the first one that is left. -/
theorem Walks.following
    (h : Walks s (i :: rest)) (hnodup : s.scheduledTimers.Nodup) : s.following i = rest.head? := by
  obtain ⟨visited, hsplit⟩ := h.split
  have hvisited : ∀ j ∈ visited, (j != i) = true := by
    intro j hj
    rw [hsplit] at hnodup
    have hne := (List.nodup_append.mp hnodup).2.2 j hj i List.mem_cons_self
    simpa using hne
  unfold TimerService.following
  rw [hsplit, List.dropWhile_append_of_pos hvisited, List.dropWhile_cons_of_neg (by simp)]
  rfl

theorem Walks.passTimer
    (h : Walks s (i :: rest)) (hnodup : s.scheduledTimers.Nodup) : Walks (s.passTimer i) rest := by
  refine ⟨?_, h.following hnodup⟩
  obtain ⟨visited, hsplit⟩ := h.split
  exact ⟨visited ++ [i], by simpa [TimerService.passTimer] using hsplit⟩

theorem Walks.cancel (h : Walks s rest)
    (hwf : WellFormed s) (i : TimerId) : Walks (s.cancel changed i) (rest.erase i) := by
  by_cases hi : s.Armed i
  · obtain ⟨visited, hsplit⟩ := h.split
    have hkeeps := unregisterTimer_keeps changed s i (s.triggerTime i)
    have hiterator : (s.cancel changed i).timerIterator =
        if s.timerIterator = some i then s.following i else s.timerIterator := by
      unfold TimerService.cancel
      rw [if_pos hi]
      exact hkeeps.timerIterator
    constructor
    · rw [cancel_scheduledTimers, if_pos hi, hsplit]
      by_cases hvisited : i ∈ visited
      · -- the timer was visited already: nothing happens to the rest
        have hnodup := hwf.nodup
        rw [hsplit] at hnodup
        have hrest : i ∉ rest := fun hc => (List.nodup_append.mp hnodup).2.2 i hvisited i hc rfl
        rw [List.erase_append_left _ hvisited, List.erase_of_not_mem hrest]
        exact ⟨_, rfl⟩
      · rw [List.erase_append_right _ hvisited]
        exact ⟨_, rfl⟩
    · rw [hiterator, h.iterator]
      cases rest with
      | nil => rfl
      | cons j rest =>
          by_cases hj : j = i
          · subst hj
            simp [h.following hwf.nodup]
          · simp [hj]
  · have hrest : i ∉ rest := fun hc => hi ((hwf.scheduled i).mp (h.subset hc))
    rw [List.erase_of_not_mem hrest]
    refine h.congr ?_ ?_
    · rw [cancel_scheduledTimers, if_neg hi]
    · unfold TimerService.cancel
      rw [if_neg hi]
      rfl

theorem Walks.setNextTriggerTime (h : Walks s rest) (i : TimerId) (time : TimePoint) (action : α) :
    Walks (s.setNextTriggerTime changed i time action) rest := by
  constructor
  · rw [setNextTriggerTime_scheduledTimers]
    split
    · exact h.split
    · obtain ⟨visited, hsplit⟩ := h.split
      exact ⟨i :: visited, by rw [hsplit]; rfl⟩
  · refine Eq.trans ?_ h.iterator
    unfold TimerService.setNextTriggerTime
    dsimp only
    split
    · exact (registerTimer_keeps changed _ i).timerIterator
    · exact (updateTriggerTime_keeps changed _ _).timerIterator

/-- What is left after an operation: only a timer that is cancelled is no longer there. -/
theorem Walks.perform (h : Walks s rest) (hwf : WellFormed s) (op : Operation α) :
    ∃ rest', Walks (s.perform changed op) rest' ∧ ∀ j ∈ rest, j ≠ op.timer → j ∈ rest' := by
  cases op with
  | setNextTriggerTime i time action =>
      exact ⟨rest, h.setNextTriggerTime changed i time action, fun j hj _ => hj⟩
  | cancel i =>
      refine ⟨rest.erase i, h.cancel changed hwf i, fun j hj hji => ?_⟩
      exact (List.mem_erase_of_ne hji).mpr hj

/-! ## The effect of an operation on the next trigger -/

/-- Where `nextTrigger` has changed, `NextTriggerChanged` has been called with the new value. -/
def Notifies (s s' : TimerService α ε) : Prop :=
  s'.members = s.members ∧ s'.nextTrigger = s.nextTrigger ∨
    s'.members = changed s'.nextTrigger s.members

/-- What an operation can do. -/
inductive Effect (s : TimerService α ε) (op : Operation α) (s' : TimerService α ε) : Prop where
  /-- `ComputeNextTrigger` has determined the earliest time -/
  | recomputed (hhold : s.holdUpdate = false) (hnext : s'.nextTrigger = s'.earliest)
      (hneeded : s'.updateNeeded = false) (hnotifies : Notifies changed s s')
  /-- `ComputeNextTrigger` has been put off -/
  | deferred (hhold : s.holdUpdate = true) (hnext : s'.nextTrigger = s.nextTrigger)
      (hneeded : s'.updateNeeded = true) (hmembers : s'.members = s.members)
  /-- a timer that is started is the first one to fire -/
  | lowered (hnext : s'.Armed op.timer ∧ s'.triggerTime op.timer = s'.nextTrigger)
      (hneeded : s'.updateNeeded = s.updateNeeded)
      (hmembers : s'.members = changed s'.nextTrigger s.members)
  /-- nothing is done -/
  | kept (hnext : s'.nextTrigger = s.nextTrigger) (hneeded : s'.updateNeeded = s.updateNeeded)
      (hmembers : s'.members = s.members)
      (hother : s.Armed op.timer → s.triggerTime op.timer ≠ s.nextTrigger)
      (hstarted : s'.Armed op.timer → ¬ s.Armed op.timer →
        s.nextTrigger ≤ s'.triggerTime op.timer)

theorem computeNextTrigger_notifies (s : TimerService α ε) :
    Notifies changed s (s.computeNextTrigger changed) := by
  cases hhold : s.holdUpdate with
  | true =>
      rw [computeNextTrigger_held changed hhold]
      exact Or.inl ⟨rfl, rfl⟩
  | false =>
      have hfree : (!s.holdUpdate) = true := by simp [hhold]
      unfold computeNextTrigger setNextTrigger nextTriggerChanged
      rw [if_pos hfree]
      dsimp only
      split
      · exact Or.inr rfl
      · rename_i heq
        exact Or.inl ⟨rfl, not_not.mp heq⟩

/-- An operation that ends in `ComputeNextTrigger`, up to an assignment `x` to a timer that changes
no trigger time in the list. -/
theorem Effect.of_compute {u : TimerService α ε} {x : Timer α}
    (hu : u.holdUpdate = s.holdUpdate ∧ u.nextTrigger = s.nextTrigger ∧ u.members = s.members)
    (hx : i ∈ u.scheduledTimers → x.nextTriggerTime = u.triggerTime i) :
    Effect changed s op ((u.computeNextTrigger changed).setTimer i x) := by
  obtain ⟨hhold, hnext, hmembers⟩ := hu
  have hkeeps := computeNextTrigger_keeps changed u
  have hnotifies : Notifies changed s ((u.computeNextTrigger changed).setTimer i x) := by
    have h := computeNextTrigger_notifies changed u
    unfold Notifies at h ⊢
    rwa [hmembers, hnext] at h
  cases hh : s.holdUpdate with
  | true =>
      rw [hh] at hhold
      rw [computeNextTrigger_held changed hhold]
      exact .deferred hh hnext rfl hmembers
  | false =>
      rw [hh] at hhold
      obtain ⟨hearliest, hneeded, -⟩ := computeNextTrigger_free changed hhold
      refine .recomputed hh ?_ hneeded hnotifies
      have hset : ((u.computeNextTrigger changed).setTimer i x).earliest = u.earliest := by
        refine earliest_congr _ hkeeps.scheduledTimers (fun j hj => ?_)
        by_cases hji : j = i
        · subst hji
          rw [triggerTime_setTimer_self, hx hj]
        · rw [triggerTime_setTimer_of_ne _ _ hji, triggerTime, hkeeps.timers]
          rfl
      rw [hset]
      exact hearliest

theorem Effect.cancel (s : TimerService α ε) (hwf : WellFormed s) (i : TimerId) :
    Effect changed s (.cancel i) (s.cancel changed i) := by
  have hgone : ¬ (s.cancel changed i).Armed i := by
    simp [Armed, cancel_timers]
  unfold TimerService.cancel
  by_cases hi : s.Armed i
  · rw [if_pos hi]
    unfold unregisterTimer
    dsimp only
    split
    · refine Effect.of_compute changed ⟨rfl, rfl, rfl⟩ (fun hc => ?_)
      exact absurd rfl (hwf.nodup.mem_erase_iff.mp hc).1
    · rename_i hne
      refine .kept rfl rfl rfl (fun _ => hne) (fun hc => ?_)
      simp [Operation.timer, setTimer, Armed] at hc
  · rw [if_neg hi]
    refine .kept rfl rfl rfl (fun hc => absurd hc hi) (fun hc => ?_)
    simp [Operation.timer, setTimer, Armed] at hc

theorem Effect.setNextTriggerTime (s : TimerService α ε) (i : TimerId) (time : TimePoint)
    (action : α) : Effect changed s (.setNextTriggerTime i time action)
      (s.setNextTriggerTime changed i time action) := by
  have harmed := armed_setTimer_time s i time
  unfold TimerService.setNextTriggerTime
  dsimp only
  by_cases hi : s.Armed i
  · rw [if_neg (not_not_intro (harmed.mpr hi))]
    unfold updateTriggerTime
    split
    · refine Effect.of_compute changed ⟨rfl, rfl, rfl⟩ (fun _ => ?_)
      have hkeeps := computeNextTrigger_keeps changed
        (s.setTimer i { s.timers i with nextTriggerTime := time })
      rw [hkeeps.timers]
      rfl
    · rename_i hne
      exact .kept rfl rfl rfl (fun _ hc => hne hc.symm) (fun _ hc => absurd hi hc)
  · rw [if_pos (fun hc => hi (harmed.mp hc))]
    unfold registerTimer
    dsimp only
    split
    · refine .lowered ⟨?_, ?_⟩ rfl rfl
      · simp [Operation.timer, Armed, setTimer]
      · exact triggerTime_setTimer_self _ i _
    · rename_i hle
      refine .kept rfl rfl rfl (fun hc => absurd hc hi) (fun _ _ => ?_)
      simp only [Operation.timer, triggerTime_setTimer_self]
      exact not_lt.mp hle

theorem Effect.perform (s : TimerService α ε) (hwf : WellFormed s) (op : Operation α) :
    Effect changed s op (s.perform changed op) := by
  cases op with
  | setNextTriggerTime i time action => exact Effect.setNextTriggerTime changed s i time action
  | cancel i => exact Effect.cancel changed s hwf i

theorem Effect.notifies (h : Effect changed s op s') : Notifies changed s s' := by
  cases h with
  | recomputed _ _ _ hnotifies => exact hnotifies
  | deferred _ hnext _ hmembers => exact Or.inl ⟨hmembers, hnext⟩
  | lowered _ _ hmembers => exact Or.inr hmembers
  | kept hnext _ hmembers => exact Or.inl ⟨hmembers, hnext⟩

/-- The other timers do not change. -/
theorem perform_timers_of_ne (s : TimerService α ε) (op : Operation α)
    (h : j ≠ op.timer) : (s.perform changed op).timers j = s.timers j := by
  cases op with
  | setNextTriggerTime i time action =>
      exact (congrFun (setNextTriggerTime_timers changed s i time action) j).trans
        (Function.update_of_ne h _ _)
  | cancel i =>
      exact (congrFun (cancel_timers changed s i) j).trans (Function.update_of_ne h _ _)

theorem armed_perform_of_ne (s : TimerService α ε) (op : Operation α)
    (h : j ≠ op.timer) : (s.perform changed op).Armed j ↔ s.Armed j := by
  unfold Armed
  rw [perform_timers_of_ne changed s op h]

theorem triggerTime_perform_of_ne (s : TimerService α ε) (op : Operation α)
    (h : j ≠ op.timer) : (s.perform changed op).triggerTime j = s.triggerTime j := by
  unfold triggerTime
  rw [perform_timers_of_ne changed s op h]

theorem triggerTime_perform_lt (s : TimerService α ε) (h : op.BeforeMax)
    (harmed : (s.perform changed op).Armed op.timer) :
    (s.perform changed op).triggerTime op.timer < TimePoint.max := by
  cases op with
  | setNextTriggerTime i time action =>
      simp only [perform, Operation.timer, triggerTime]
      rw [setNextTriggerTime_timers, Function.update_self]
      exact h
  | cancel i =>
      simp [perform, Operation.timer, Armed, cancel_timers] at harmed

/-! ## The next trigger is the time of a timer -/

/-- `NextTrigger()` is the time of an armed timer, or `TimePoint::max()` when there is none. -/
structure Attained (s : TimerService α ε) : Prop where
  attained : s.updateNeeded = false →
    (∀ i, ¬ s.Armed i) ∧ s.nextTrigger = TimePoint.max ∨
      ∃ i, s.Armed i ∧ s.triggerTime i = s.nextTrigger
  idle : s.holdUpdate = false → s.updateNeeded = false

/-- No armed timer stands at `TimePoint::max()`. -/
def TimesBeforeMax (s : TimerService α ε) : Prop :=
  ∀ i, s.Armed i → s.triggerTime i < TimePoint.max

theorem TimesBeforeMax.inRange (h : TimesBeforeMax s) : TimesInRange s :=
  fun i hi => (h i hi).le

theorem TimesBeforeMax.congr (h : TimesBeforeMax s)
    (htimers : s'.timers = s.timers) : TimesBeforeMax s' := by
  unfold TimesBeforeMax Armed triggerTime at h ⊢
  rw [htimers]
  exact h

theorem TimesBeforeMax.perform (h : TimesBeforeMax s)
    (hop : op.BeforeMax) : TimesBeforeMax (s.perform changed op) := by
  intro j hj
  by_cases hjop : j = op.timer
  · subst hjop
    exact triggerTime_perform_lt changed s hop hj
  · rw [triggerTime_perform_of_ne changed s op hjop]
    exact h j ((armed_perform_of_ne changed s op hjop).mp hj)

theorem IsEarliest.attained_or {t : TimePoint} (h : IsEarliest s t) :
    (∀ i, ¬ s.Armed i) ∧ t = TimePoint.max ∨ ∃ i, s.Armed i ∧ s.triggerTime i = t := by
  by_cases hany : ∃ i, s.Armed i
  · exact Or.inr (h.attained hany)
  · have hnone := not_exists.mp hany
    exact Or.inl ⟨hnone, h.none_armed hnone⟩

theorem Attained.perform (h : Attained s) (hwf : WellFormed s)
    (hrange : TimesBeforeMax s) (hop : op.BeforeMax) :
    Attained (s.perform changed op) := by
  have hwf' := hwf.perform changed op
  have hrange' := (hrange.perform changed hop).inRange
  have hhold := perform_holdUpdate changed s op
  cases Effect.perform changed s hwf op with
  | recomputed hfree hnext hneeded _ =>
      refine ⟨fun _ => ?_, fun _ => hneeded⟩
      rw [hnext]
      exact (hwf'.isEarliest hrange').attained_or
  | deferred hheld hnext hneeded _ =>
      refine ⟨fun hc => ?_, fun hc => ?_⟩
      · exact absurd (hneeded.symm.trans hc) (by simp)
      · exact absurd (hheld.symm.trans (hhold.symm.trans hc)) (by simp)
  | lowered hnext hneeded _ =>
      refine ⟨fun _ => Or.inr ⟨_, hnext⟩, fun hc => ?_⟩
      exact hneeded.trans (h.idle (hhold.symm.trans hc))
  | kept hnext hneeded _ hother hstarted =>
      refine ⟨fun hc => ?_, fun hc => hneeded.trans (h.idle (hhold.symm.trans hc))⟩
      rw [hnext]
      rcases h.attained (hneeded.symm.trans hc) with ⟨hnone, hmax⟩ | ⟨i, hi, htime⟩
      · refine Or.inl ⟨fun j hj => ?_, hmax⟩
        by_cases hjop : j = op.timer
        · subst hjop
          have hle := hstarted hj (hnone _)
          rw [hmax] at hle
          exact absurd hle (not_le.mpr (triggerTime_perform_lt changed s hop hj))
        · exact hnone j ((armed_perform_of_ne changed s op hjop).mp hj)
      · have hiop : i ≠ op.timer := by
          rintro rfl
          exact hother hi htime
        exact Or.inr ⟨i, (armed_perform_of_ne changed s op hiop).mpr hi,
          (triggerTime_perform_of_ne changed s op hiop).trans htime⟩

/-! ## The end of Progressed -/

theorem endProgressed_keeps (s : TimerService α ε) :
    (s.endProgressed changed).timers = s.timers ∧
      (s.endProgressed changed).scheduledTimers = s.scheduledTimers ∧
      (s.endProgressed changed).timerIterator = s.timerIterator ∧
      (s.endProgressed changed).holdUpdate = false := by
  unfold endProgressed
  dsimp only
  split
  · have hkeeps := computeNextTrigger_keeps changed ({ s with holdUpdate := false } : TimerService α ε)
    exact ⟨hkeeps.timers, hkeeps.scheduledTimers, hkeeps.timerIterator, hkeeps.holdUpdate⟩
  · exact ⟨rfl, rfl, rfl, rfl⟩

theorem endProgressed_notifies (s : TimerService α ε) :
    Notifies changed s (s.endProgressed changed) := by
  unfold endProgressed
  dsimp only
  split
  · exact computeNextTrigger_notifies changed ({ s with holdUpdate := false } : TimerService α ε)
  · exact Or.inl ⟨rfl, rfl⟩

theorem endProgressed_needed (h : s.updateNeeded = true) :
    (s.endProgressed changed).nextTrigger = s.earliest ∧
      (s.endProgressed changed).updateNeeded = false := by
  unfold endProgressed
  dsimp only
  rw [if_pos h]
  obtain ⟨hnext, hneeded, -⟩ := computeNextTrigger_free changed
    (s := { s with holdUpdate := false }) rfl
  exact ⟨hnext, hneeded⟩

theorem endProgressed_not_needed (h : s.updateNeeded = false) :
    s.endProgressed changed = { s with holdUpdate := false } := by
  unfold endProgressed
  dsimp only
  rw [if_neg (by simp [h])]

theorem Attained.endProgressed (h : Attained s) (hwf : WellFormed s)
    (hrange : TimesBeforeMax s) : Attained (s.endProgressed changed) := by
  cases hneeded : s.updateNeeded with
  | true =>
      obtain ⟨hnext, hneeded'⟩ := endProgressed_needed changed hneeded
      obtain ⟨htimers, hlist, -, -⟩ := endProgressed_keeps changed s
      have hearliest : (s.endProgressed changed).earliest = s.earliest := by
        refine earliest_congr _ hlist (fun i _ => ?_)
        unfold triggerTime
        rw [htimers]
      refine ⟨fun _ => ?_, fun _ => hneeded'⟩
      rw [hnext, ← hearliest]
      exact ((hwf.congr htimers hlist).isEarliest (hrange.congr htimers).inRange).attained_or
  | false =>
      rw [endProgressed_not_needed changed hneeded]
      exact ⟨h.attained, fun _ => hneeded⟩

/-! ## Every step -/

theorem WellFormed.step {p p' : Phase α} {e : Event α} (h : WellFormed s)
    (hstep : Step changed s p e s' p') : WellFormed s' := by
  cases hstep with
  | operation op hop hp => exact h.perform changed op
  | progressed time => exact h.congr rfl rfl
  | skip hi hlate => exact h.congr rfl rfl
  | fire hi hdue r hr action =>
      rename_i time i
      have hpassed : WellFormed (s.passTimer i) := h.congr rfl rfl
      exact hpassed.perform changed _
  | actionReturns => exact h
  | progressedReturns hi =>
      obtain ⟨htimers, hlist, -, -⟩ := endProgressed_keeps changed s
      exact h.congr htimers hlist

/-- The members of the subclass change by calls of `NextTriggerChanged` only. -/
theorem Step.notifies {p p' : Phase α} {e : Event α} (hwf : WellFormed s)
    (hstep : Step changed s p e s' p') : Notifies changed s s' := by
  cases hstep with
  | operation op hop hp => exact (Effect.perform changed s hwf op).notifies
  | progressed time => exact Or.inl ⟨rfl, rfl⟩
  | skip hi hlate => exact Or.inl ⟨rfl, rfl⟩
  | fire hi hdue r hr action =>
      rename_i time i
      have hwf' : WellFormed (s.passTimer i) := hwf.congr rfl rfl
      exact (Effect.perform changed (s.passTimer i) hwf' (r.operation i)).notifies
  | actionReturns => exact Or.inl ⟨rfl, rfl⟩
  | progressedReturns hi => exact endProgressed_notifies changed s

end TimerService

end EmbeddedInfra.Timers
