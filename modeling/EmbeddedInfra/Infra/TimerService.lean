import Mathlib.Tactic
import Mathlib.Order.Basic

set_option autoImplicit false

/-! # Timers and timer services

An `infra::TimerService` keeps the list of its armed timers and the moment `NextTrigger()` at which
the earliest of them has to fire. A subclass drives it by calling `Progressed` and overrides
`NextTriggerChanged` to be told that this moment has changed. Timers are started, restarted and
cancelled from anywhere, also from the action of a timer that `Progressed` is executing.

The members of the subclass are the type `ε`, its override of `NextTriggerChanged` is the parameter
`changed`; the actions of timers are the type `α`. A signed overflow is undefined in the source, so
that times and durations are integers here.
-/

namespace EmbeddedInfra.Timers

abbrev TimerId := Nat

/-- A time in ticks of the system clock. -/
abbrev TimePoint := Int

abbrev Duration := Int

/-- `TimePoint::max()`, the largest value of the 64 bits of a time. -/
def TimePoint.max : TimePoint := 2 ^ 63 - 1

/-! ## The service -/

/-- A timer: it is armed when it has an action. -/
structure Timer (α : Type) where
  action : Option α := none
  nextTriggerTime : TimePoint := 0

/-- A timer service, with the timers of the program that belong to it. -/
structure TimerService (α ε : Type) where
  timers : TimerId → Timer α := fun _ => {}
  scheduledTimers : List TimerId := []
  timerIterator : Option TimerId := none
  nextTrigger : TimePoint := TimePoint.max
  holdUpdate : Bool := false
  updateNeeded : Bool := false
  /-- the members of the subclass -/
  members : ε
  /-- `NextTriggerChanged` has been called after the last change of `nextTrigger`; the source has
  no such member -/
  announced : Bool := true

namespace TimerService

variable {α ε : Type} (changed : TimePoint → ε → ε)

/-- `Timer::Armed` -/
def Armed (s : TimerService α ε) (i : TimerId) : Prop := (s.timers i).action.isSome = true

instance (s : TimerService α ε) (i : TimerId) : Decidable (s.Armed i) :=
  inferInstanceAs (Decidable (_ = _))

/-- `Timer::NextTrigger` -/
def triggerTime (s : TimerService α ε) (i : TimerId) : TimePoint := (s.timers i).nextTriggerTime

/-- An assignment to `nextTrigger`. -/
def setNextTrigger (s : TimerService α ε) (t : TimePoint) : TimerService α ε :=
  { s with nextTrigger := t, announced := s.announced && decide (t = s.nextTrigger) }

/-- The call of the virtual function. -/
def nextTriggerChanged (s : TimerService α ε) : TimerService α ε :=
  { s with members := changed s.nextTrigger s.members, announced := true }

/-- The loop of `ComputeNextTrigger`. -/
def earliest (s : TimerService α ε) : TimePoint :=
  s.scheduledTimers.foldl (fun t i => min t (s.triggerTime i)) TimePoint.max

def computeNextTrigger (s : TimerService α ε) : TimerService α ε :=
  if !s.holdUpdate then
    let s' := { s with updateNeeded := false }.setNextTrigger s.earliest
    if s'.nextTrigger ≠ s.nextTrigger then s'.nextTriggerChanged changed else s'
  else
    { s with updateNeeded := true }

def registerTimer (s : TimerService α ε) (i : TimerId) : TimerService α ε :=
  let s := { s with scheduledTimers := i :: s.scheduledTimers }
  if s.triggerTime i < s.nextTrigger then
    (s.setNextTrigger (s.triggerTime i)).nextTriggerChanged changed
  else
    s

/-- The timer after `i` in the list: what `++` makes of an iterator at `i`. -/
def following (s : TimerService α ε) (i : TimerId) : Option TimerId :=
  (s.scheduledTimers.dropWhile (· != i)).tail.head?

def unregisterTimer (s : TimerService α ε) (i : TimerId) (oldTriggerTime : TimePoint) :
    TimerService α ε :=
  let s := { s with
    timerIterator := if s.timerIterator = some i then s.following i else s.timerIterator }
  let s := { s with scheduledTimers := s.scheduledTimers.erase i }
  if oldTriggerTime = s.nextTrigger then s.computeNextTrigger changed else s

def updateTriggerTime (s : TimerService α ε) (oldTriggerTime : TimePoint) : TimerService α ε :=
  if s.nextTrigger = oldTriggerTime then s.computeNextTrigger changed else s

/-- An assignment to the members of a timer. -/
def setTimer (s : TimerService α ε) (i : TimerId) (t : Timer α) : TimerService α ε :=
  { s with timers := Function.update s.timers i t }

/-- `Timer::Cancel`, which is also all that the destructor of a timer does. -/
def cancel (s : TimerService α ε) (i : TimerId) : TimerService α ε :=
  let s := if s.Armed i then s.unregisterTimer changed i (s.triggerTime i) else s
  s.setTimer i {}

/-- `Timer::SetNextTriggerTime`: start the timer, or restart it when it is armed. -/
def setNextTriggerTime (s : TimerService α ε) (i : TimerId) (time : TimePoint) (action : α) :
    TimerService α ε :=
  let oldTriggerTime := s.triggerTime i
  let s := s.setTimer i { s.timers i with nextTriggerTime := time }
  let s := if ¬ s.Armed i then s.registerTimer changed i
    else s.updateTriggerTime changed oldTriggerTime
  s.setTimer i { s.timers i with action := some action }

/-! ## Progressed

The control state of a call of `Progressed` is made explicit, since an action that it executes can
do anything with the timers. -/

end TimerService

/-- What a program does with its timers. -/
inductive Operation (α : Type) where
  | setNextTriggerTime (i : TimerId) (time : TimePoint) (action : α)
  | cancel (i : TimerId)

/-- A time that a timer is set to is a value of the type. -/
def Operation.InRange {α : Type} : Operation α → Prop
  | setNextTriggerTime _ time _ => time ≤ TimePoint.max
  | cancel _ => True

instance {α : Type} : DecidablePred (@Operation.InRange α)
  | .setNextTriggerTime _ time _ => inferInstanceAs (Decidable (time ≤ TimePoint.max))
  | .cancel _ => isTrue trivial

/-- What `ComputeNextTriggerTime` of a kind of timer does with the timer: a single shot timer is
cancelled, a repeating one is set to its next time. -/
inductive Recomputation (α : Type) where
  | cancel
  | setNextTriggerTime (time : TimePoint) (action : α)

/-- The operation on the timer `i`. -/
def Recomputation.operation {α : Type} (i : TimerId) : Recomputation α → Operation α
  | cancel => .cancel i
  | setNextTriggerTime time action => .setNextTriggerTime i time action

/-- Where the execution of `Progressed(time)` is. -/
inductive Phase (α : Type) where
  | outside
  /-- at the head of the loop -/
  | scanning (time : TimePoint)
  /-- in the action of a timer -/
  | acting (time : TimePoint) (action : α)

/-- An action, or code outside `Progressed`, is running. -/
def Phase.Operates {α : Type} : Phase α → Prop
  | outside => True
  | scanning _ => False
  | acting _ _ => True

/-- The steps that a timer service takes. -/
inductive Event (α : Type) where
  | operation (op : Operation α)
  | progressed (time : TimePoint)
  /-- the loop comes to a timer that is not due -/
  | skip
  /-- the loop comes to a timer that is due -/
  | fire (i : TimerId) (recomputation : Recomputation α) (action : α)
  | actionReturns
  | progressedReturns

namespace TimerService

variable {α ε : Type} (changed : TimePoint → ε → ε) {i : TimerId}

def perform (s : TimerService α ε) : Operation α → TimerService α ε
  | .setNextTriggerTime i time action => s.setNextTriggerTime changed i time action
  | .cancel i => s.cancel changed i

/-- The beginning of `Progressed`. -/
def beginProgressed (s : TimerService α ε) : TimerService α ε :=
  { s with
    holdUpdate := true
    timerIterator := s.scheduledTimers.head? }

/-- The end of `Progressed`. -/
def endProgressed (s : TimerService α ε) : TimerService α ε :=
  let s := { s with holdUpdate := false }
  if s.updateNeeded then s.computeNextTrigger changed else s

/-- The increment of `timerIterator` at the timer `i`. -/
def passTimer (s : TimerService α ε) (i : TimerId) : TimerService α ε :=
  { s with timerIterator := s.following i }

/-- A step of the service. -/
inductive Step : TimerService α ε → Phase α → Event α → TimerService α ε → Phase α → Prop where
  | operation {s : TimerService α ε} {p : Phase α} (op : Operation α) (hop : op.InRange)
      (hp : p.Operates) :
      Step s p (.operation op) (s.perform changed op) p
  | progressed {s : TimerService α ε} (time : TimePoint) :
      Step s .outside (.progressed time) s.beginProgressed (.scanning time)
  | skip {s : TimerService α ε} {time : TimePoint} {i : TimerId} (hi : s.timerIterator = some i)
      (hlate : time < s.triggerTime i) :
      Step s (.scanning time) .skip (s.passTimer i) (.scanning time)
  -- `Action()` is virtual too: some kinds of timers have other actions than the one they are set to
  | fire {s : TimerService α ε} {time : TimePoint} {i : TimerId} (hi : s.timerIterator = some i)
      (hdue : s.triggerTime i ≤ time) (r : Recomputation α)
      (hr : (r.operation i).InRange) (action : α) :
      Step s (.scanning time) (.fire i r action) ((s.passTimer i).perform changed (r.operation i))
        (.acting time action)
  | actionReturns {s : TimerService α ε} {time : TimePoint} {action : α} :
      Step s (.acting time action) .actionReturns s (.scanning time)
  | progressedReturns {s : TimerService α ε} {time : TimePoint} (hi : s.timerIterator = none) :
      Step s (.scanning time) .progressedReturns (s.endProgressed changed) .outside

/-- The states that a service comes to from its construction, when every step meets `P`. -/
inductive Reaches (P : TimerService α ε → Event α → Prop) : TimerService α ε → Phase α → Prop where
  | construction (members : ε) : Reaches P { members := members } .outside
  | step {s s' : TimerService α ε} {p p' : Phase α} {e : Event α} (h : Reaches P s p)
      (hP : P s e) (hstep : Step changed s p e s' p') : Reaches P s' p'

/-! ## What the operations do to the timers -/

/-- `s'` has the timers of `s`, with another list of those that are armed and another iterator. -/
structure Keeps (s s' : TimerService α ε) (scheduled : List TimerId) (iterator : Option TimerId) :
    Prop where
  timers : s'.timers = s.timers
  scheduledTimers : s'.scheduledTimers = scheduled
  timerIterator : s'.timerIterator = iterator
  holdUpdate : s'.holdUpdate = s.holdUpdate

section Keeps

variable (s : TimerService α ε) (i : TimerId)

theorem computeNextTrigger_keeps :
    Keeps s (s.computeNextTrigger changed) s.scheduledTimers s.timerIterator := by
  unfold computeNextTrigger setNextTrigger nextTriggerChanged
  dsimp only
  split
  · split <;> exact ⟨rfl, rfl, rfl, rfl⟩
  · exact ⟨rfl, rfl, rfl, rfl⟩

theorem registerTimer_keeps :
    Keeps s (s.registerTimer changed i) (i :: s.scheduledTimers) s.timerIterator := by
  unfold registerTimer setNextTrigger nextTriggerChanged
  dsimp only
  split <;> exact ⟨rfl, rfl, rfl, rfl⟩

theorem unregisterTimer_keeps (old : TimePoint) :
    Keeps s (s.unregisterTimer changed i old) (s.scheduledTimers.erase i)
      (if s.timerIterator = some i then s.following i else s.timerIterator) := by
  unfold unregisterTimer
  dsimp only
  split
  · obtain ⟨h1, h2, h3, h4⟩ := computeNextTrigger_keeps changed
      { s with
        timerIterator := if s.timerIterator = some i then s.following i else s.timerIterator
        scheduledTimers := s.scheduledTimers.erase i }
    exact ⟨h1, h2, h3, h4⟩
  · exact ⟨rfl, rfl, rfl, rfl⟩

theorem updateTriggerTime_keeps (old : TimePoint) :
    Keeps s (s.updateTriggerTime changed old) s.scheduledTimers s.timerIterator := by
  unfold updateTriggerTime
  split
  · exact computeNextTrigger_keeps changed s
  · exact ⟨rfl, rfl, rfl, rfl⟩

end Keeps

section Timers

variable (s : TimerService α ε) (i : TimerId)

theorem cancel_timers : (s.cancel changed i).timers = Function.update s.timers i {} := by
  unfold cancel setTimer
  dsimp only
  split
  · rw [(unregisterTimer_keeps changed s i _).timers]
  · rfl

theorem cancel_scheduledTimers :
    (s.cancel changed i).scheduledTimers =
      if s.Armed i then s.scheduledTimers.erase i else s.scheduledTimers := by
  unfold cancel setTimer
  dsimp only
  split
  · rw [(unregisterTimer_keeps changed s i _).scheduledTimers]
  · rfl

theorem setNextTriggerTime_timers (time : TimePoint) (action : α) :
    (s.setNextTriggerTime changed i time action).timers =
      Function.update s.timers i { action := some action, nextTriggerTime := time } := by
  unfold setNextTriggerTime
  dsimp only
  split
  · simp [setTimer, (registerTimer_keeps changed _ i).timers]
  · simp [setTimer, (updateTriggerTime_keeps changed _ _).timers]

theorem armed_setTimer_time (time : TimePoint) :
    (s.setTimer i { s.timers i with nextTriggerTime := time }).Armed i ↔ s.Armed i := by
  simp [setTimer, Armed]

theorem setNextTriggerTime_scheduledTimers (time : TimePoint) (action : α) :
    (s.setNextTriggerTime changed i time action).scheduledTimers =
      if s.Armed i then s.scheduledTimers else i :: s.scheduledTimers := by
  have harmed := armed_setTimer_time s i time
  unfold setNextTriggerTime
  dsimp only
  by_cases h : s.Armed i
  · rw [if_neg (not_not_intro (harmed.mpr h)), if_pos h]
    exact (updateTriggerTime_keeps changed _ _).scheduledTimers
  · rw [if_pos (fun hc => h (harmed.mp hc)), if_neg h]
    exact (registerTimer_keeps changed _ i).scheduledTimers

end Timers

/-- The list of a service holds its armed timers, each of them once. -/
structure WellFormed (s : TimerService α ε) : Prop where
  scheduled : ∀ i, i ∈ s.scheduledTimers ↔ s.Armed i
  nodup : s.scheduledTimers.Nodup

variable {s s' : TimerService α ε} {op : Operation α} {p : Phase α}

theorem WellFormed.congr (h : WellFormed s) (htimers : s'.timers = s.timers)
    (hlist : s'.scheduledTimers = s.scheduledTimers) : WellFormed s' := by
  obtain ⟨hscheduled, hnodup⟩ := h
  unfold Armed at hscheduled
  refine ⟨fun i => ?_, ?_⟩
  · unfold Armed
    rw [htimers, hlist]
    exact hscheduled i
  · rw [hlist]
    exact hnodup

theorem armed_cancel (s : TimerService α ε) (i j : TimerId) :
    (s.cancel changed i).Armed j ↔ j ≠ i ∧ s.Armed j := by
  unfold Armed
  rw [cancel_timers]
  by_cases hj : j = i
  · simp [hj]
  · simp [hj]

theorem armed_setNextTriggerTime (s : TimerService α ε) (i j : TimerId) (time : TimePoint)
    (action : α) :
    (s.setNextTriggerTime changed i time action).Armed j ↔ j = i ∨ s.Armed j := by
  unfold Armed
  rw [setNextTriggerTime_timers]
  by_cases hj : j = i
  · simp [hj]
  · simp [hj]

theorem WellFormed.cancel (h : WellFormed s) (i : TimerId) : WellFormed (s.cancel changed i) := by
  refine ⟨fun j => ?_, ?_⟩
  · rw [cancel_scheduledTimers, armed_cancel, ← h.scheduled j]
    split
    · rw [h.nodup.mem_erase_iff]
    · rename_i hi
      have hne : j ∈ s.scheduledTimers → j ≠ i := by
        rintro hj rfl
        exact hi ((h.scheduled j).mp hj)
      exact ⟨fun hj => ⟨hne hj, hj⟩, fun hj => hj.2⟩
  · rw [cancel_scheduledTimers]
    split
    · exact h.nodup.erase i
    · exact h.nodup

theorem WellFormed.setNextTriggerTime (h : WellFormed s) (i : TimerId)
    (time : TimePoint) (action : α) : WellFormed (s.setNextTriggerTime changed i time action) := by
  refine ⟨fun j => ?_, ?_⟩
  · rw [setNextTriggerTime_scheduledTimers, armed_setNextTriggerTime, ← h.scheduled j]
    split
    · rename_i hi
      rw [← h.scheduled i] at hi
      exact ⟨Or.inr, fun hj => hj.elim (fun e => e ▸ hi) id⟩
    · exact List.mem_cons
  · rw [setNextTriggerTime_scheduledTimers]
    split
    · exact h.nodup
    · rename_i hi
      rw [← h.scheduled i] at hi
      exact List.nodup_cons.mpr ⟨hi, h.nodup⟩

theorem WellFormed.perform (h : WellFormed s) (op : Operation α) :
    WellFormed (s.perform changed op) := by
  cases op with
  | setNextTriggerTime i time action => exact h.setNextTriggerTime changed i time action
  | cancel i => exact h.cancel changed i

/-- The armed timers have values of the type `TimePoint`. -/
def TimesInRange (s : TimerService α ε) : Prop :=
  ∀ i, s.Armed i → s.triggerTime i ≤ TimePoint.max

theorem TimesInRange.congr (h : TimesInRange s)
    (htimers : s'.timers = s.timers) : TimesInRange s' := by
  unfold TimesInRange Armed triggerTime at h ⊢
  rw [htimers]
  exact h

theorem TimesInRange.perform (h : TimesInRange s)
    (hop : op.InRange) : TimesInRange (s.perform changed op) := by
  intro j hj
  cases op with
  | setNextTriggerTime i time action =>
      rw [TimerService.perform, triggerTime, setNextTriggerTime_timers]
      by_cases hji : j = i
      · rw [hji, Function.update_self]
        exact hop
      · rw [Function.update_of_ne hji]
        exact h j (((armed_setNextTriggerTime changed s i j time action).mp hj).resolve_left hji)
  | cancel i =>
      obtain ⟨hji, hj⟩ := (armed_cancel changed s i j).mp hj
      rw [TimerService.perform, triggerTime, cancel_timers, Function.update_of_ne hji]
      exact h j hj

/-! ## The earliest timer -/

theorem min?_earliest (s : TimerService α ε) :
    (TimePoint.max :: s.scheduledTimers.map s.triggerTime).min? = some s.earliest := by
  rw [List.min?_cons', List.foldl_map]
  rfl

theorem le_earliest {x : TimePoint} :
    x ≤ s.earliest ↔ x ≤ TimePoint.max ∧ ∀ i ∈ s.scheduledTimers, x ≤ s.triggerTime i := by
  rw [List.le_min?_iff s.min?_earliest]
  simp

theorem earliest_le (h : i ∈ s.scheduledTimers) : s.earliest ≤ s.triggerTime i :=
  (le_earliest.mp (le_refl _)).2 i h

/-- `NextTrigger()` is the earliest time, unless a recomputation is pending. -/
structure Current (s : TimerService α ε) : Prop where
  earliest : s.updateNeeded = false → s.nextTrigger = s.earliest
  idle : s.holdUpdate = false → s.updateNeeded = false
  announced : s.announced = true

theorem computeNextTrigger_held (h : s.holdUpdate = true) :
    s.computeNextTrigger changed = { s with updateNeeded := true } := by
  simp [computeNextTrigger, h]

theorem computeNextTrigger_free (h : s.holdUpdate = false) :
    (s.computeNextTrigger changed).nextTrigger = s.earliest ∧
      (s.computeNextTrigger changed).updateNeeded = false ∧
      (s.announced = true → (s.computeNextTrigger changed).announced = true) := by
  have hfree : (!s.holdUpdate) = true := by simp [h]
  unfold computeNextTrigger setNextTrigger nextTriggerChanged
  rw [if_pos hfree]
  dsimp only
  split
  · exact ⟨rfl, rfl, fun _ => rfl⟩
  · rename_i heq
    refine ⟨rfl, rfl, fun ha => ?_⟩
    rw [not_not] at heq
    simp [ha, heq]

theorem computeNextTrigger_current (s : TimerService α ε) (h : s.announced = true) :
    Current (s.computeNextTrigger changed) := by
  have hkeeps := computeNextTrigger_keeps changed s
  cases hhold : s.holdUpdate with
  | true =>
      rw [computeNextTrigger_held changed hhold]
      refine ⟨fun hc => Bool.noConfusion hc, fun hc => ?_, h⟩
      exact absurd (hhold.symm.trans hc) (by simp)
  | false =>
      obtain ⟨hnext, hneeded, hannounced⟩ := computeNextTrigger_free changed hhold
      refine ⟨fun _ => ?_, fun _ => hneeded, hannounced h⟩
      rw [hnext]
      unfold earliest triggerTime
      rw [hkeeps.timers, hkeeps.scheduledTimers]

/-- Only the trigger times of the armed timers matter. -/
theorem Current.congr (h : Current s)
    (hsame : s'.nextTrigger = s.nextTrigger ∧ s'.updateNeeded = s.updateNeeded ∧
      s'.holdUpdate = s.holdUpdate ∧ s'.announced = s.announced)
    (hearliest : s.updateNeeded = false → s'.earliest = s.earliest) : Current s' := by
  obtain ⟨hnext, hneeded, hhold, hannounced⟩ := hsame
  refine ⟨fun hc => ?_, fun hc => ?_, hannounced.trans h.announced⟩
  · rw [hneeded] at hc
    rw [hnext, hearliest hc, h.earliest hc]
  · rw [hneeded, h.idle (hhold.symm.trans hc)]

theorem earliest_congr (s' : TimerService α ε) (hlist : s'.scheduledTimers = s.scheduledTimers)
    (htimes : ∀ i ∈ s.scheduledTimers, s'.triggerTime i = s.triggerTime i) :
    s'.earliest = s.earliest := by
  apply eq_of_forall_le_iff
  intro x
  rw [le_earliest, le_earliest, hlist]
  constructor
  · rintro ⟨hmax, hx⟩
    exact ⟨hmax, fun i hi => htimes i hi ▸ hx i hi⟩
  · rintro ⟨hmax, hx⟩
    exact ⟨hmax, fun i hi => (htimes i hi).symm ▸ hx i hi⟩

theorem registerTimer_current (h : Current s) (i : TimerId) :
    Current (s.registerTimer changed i) := by
  -- a timer that joins the list lowers the earliest time to its own, or not at all
  have hcons : ({ s with scheduledTimers := i :: s.scheduledTimers } : TimerService α ε).earliest =
      min (s.triggerTime i) s.earliest := by
    apply eq_of_forall_le_iff
    intro x
    rw [le_min_iff, le_earliest, le_earliest, List.forall_mem_cons]
    tauto
  unfold registerTimer
  dsimp only
  split
  · rename_i hlt
    refine ⟨fun hneeded => ?_, h.idle, rfl⟩
    have hlt' : s.triggerTime i < s.earliest := h.earliest hneeded ▸ hlt
    exact (hcons.trans (min_eq_left hlt'.le)).symm
  · rename_i hle
    refine ⟨fun hneeded => ?_, h.idle, h.announced⟩
    have hle' : s.earliest ≤ s.triggerTime i := h.earliest hneeded ▸ not_lt.mp hle
    rw [hcons, min_eq_right hle']
    exact h.earliest hneeded

/-- The service without one of its timers in the list. -/
def without (s : TimerService α ε) (i : TimerId) : TimerService α ε :=
  { s with scheduledTimers := s.scheduledTimers.erase i }

/-- The earliest time, when one of the timers is singled out. -/
theorem earliest_eq_min (hi : i ∈ s.scheduledTimers) :
    s.earliest = min (s.triggerTime i) (s.without i).earliest := by
  apply eq_of_forall_le_iff
  intro x
  rw [le_min_iff, le_earliest, le_earliest]
  have hperm : ∀ j, j ∈ s.scheduledTimers ↔ j ∈ i :: s.scheduledTimers.erase i :=
    fun j => (List.perm_cons_erase hi).mem_iff
  have hall : (∀ j ∈ s.scheduledTimers, x ≤ s.triggerTime j) ↔
      x ≤ s.triggerTime i ∧ ∀ j ∈ s.scheduledTimers.erase i, x ≤ s.triggerTime j := by
    rw [← List.forall_mem_cons (p := fun j => x ≤ s.triggerTime j)]
    exact forall_congr' fun j => imp_congr_left (hperm j)
  rw [hall]
  exact and_left_comm

/-- ... and when that is not the earliest one. -/
theorem earliest_without (hi : i ∈ s.scheduledTimers)
    (hne : s.triggerTime i ≠ s.earliest) : (s.without i).earliest = s.earliest := by
  have hmin := earliest_eq_min hi
  rcases min_choice (s.triggerTime i) (s.without i).earliest with hc | hc
  · exact absurd (hmin.trans hc).symm hne
  · exact (hmin.trans hc).symm

theorem unregisterTimer_current (h : Current s)
    (hi : i ∈ s.scheduledTimers) : Current (s.unregisterTimer changed i (s.triggerTime i)) := by
  unfold unregisterTimer
  dsimp only
  split
  · exact computeNextTrigger_current changed _ h.announced
  · rename_i hne
    refine h.congr ⟨rfl, rfl, rfl, rfl⟩ (fun hneeded => ?_)
    -- the timer that leaves is not the earliest one
    rw [h.earliest hneeded] at hne
    exact earliest_without hi hne

theorem triggerTime_setTimer_self (s : TimerService α ε) (i : TimerId) (x : Timer α) :
    (s.setTimer i x).triggerTime i = x.nextTriggerTime := by
  simp [setTimer, triggerTime]

theorem triggerTime_setTimer_of_ne (s : TimerService α ε) {j : TimerId} (x : Timer α)
    (h : j ≠ i) : (s.setTimer i x).triggerTime j = s.triggerTime j := by
  simp [setTimer, triggerTime, h]

/-- An assignment to the members of a timer, when the timer is not in the list or its time stays. -/
theorem Current.setTimer (h : Current s) {x : Timer α}
    (hx : i ∈ s.scheduledTimers → x.nextTriggerTime = s.triggerTime i) :
    Current (s.setTimer i x) := by
  refine h.congr ⟨rfl, rfl, rfl, rfl⟩ (fun _ => ?_)
  refine earliest_congr (s.setTimer i x) rfl (fun j hj => ?_)
  by_cases hji : j = i
  · subst hji
    rw [triggerTime_setTimer_self, hx hj]
  · exact triggerTime_setTimer_of_ne s x hji

/-- Cancelling keeps `NextTrigger()` current. -/
theorem Current.cancel (h : Current s) (hwf : WellFormed s) (i : TimerId) :
    Current (s.cancel changed i) := by
  have hgone : i ∉ (s.cancel changed i).scheduledTimers := by
    rw [(hwf.cancel changed i).scheduled]
    simp [Armed, cancel_timers]
  unfold TimerService.cancel at hgone ⊢
  -- the assignments to the members of the timer come after it has left the list
  refine Current.setTimer ?_ (fun hc => absurd hc hgone)
  split
  · rename_i hi
    exact unregisterTimer_current changed h ((hwf.scheduled i).mpr hi)
  · exact h

/-- A timer that is restarted is the earliest one, or is not restarted to a time before it, or the
recomputation is pending. -/
def RestartsInOrder (s : TimerService α ε) : Operation α → Prop
  | .setNextTriggerTime i time _ => s.Armed i →
      s.triggerTime i = s.nextTrigger ∨ s.nextTrigger ≤ time ∨ s.updateNeeded = true
  | .cancel _ => True

instance (s : TimerService α ε) : DecidablePred s.RestartsInOrder
  | .setNextTriggerTime i time _ => inferInstanceAs (Decidable (s.Armed i →
      s.triggerTime i = s.nextTrigger ∨ s.nextTrigger ≤ time ∨ s.updateNeeded = true))
  | .cancel _ => isTrue trivial

/-- The earliest time does not change when a later timer is set to another later time. -/
theorem earliest_setTimer {x : Timer α}
    (hnodup : s.scheduledTimers.Nodup) (hi : i ∈ s.scheduledTimers)
    (hold : s.triggerTime i ≠ s.earliest) (hnew : s.earliest ≤ x.nextTriggerTime) : (s.setTimer i x).earliest = s.earliest := by
  have hothers : ((s.setTimer i x).without i).earliest = (s.without i).earliest := by
    refine earliest_congr ((s.setTimer i x).without i) rfl (fun j hj => ?_)
    exact triggerTime_setTimer_of_ne s x (hnodup.mem_erase_iff.mp hj).1
  calc (s.setTimer i x).earliest
      = min x.nextTriggerTime (s.without i).earliest := by
        rw [earliest_eq_min (s := s.setTimer i x) hi, triggerTime_setTimer_self, hothers]
    _ = min x.nextTriggerTime s.earliest := by rw [earliest_without hi hold]
    _ = s.earliest := min_eq_right hnew

/-- Starting a timer, or restarting it in order, keeps `NextTrigger()` current. -/
theorem Current.setNextTriggerTime (h : Current s) (hwf : WellFormed s)
    (i : TimerId) (time : TimePoint) (action : α)
    (hop : s.RestartsInOrder (.setNextTriggerTime i time action)) :
    Current (s.setNextTriggerTime changed i time action) := by
  have harmed := armed_setTimer_time s i time
  unfold TimerService.setNextTriggerTime
  refine Current.setTimer ?_ (fun _ => rfl)
  split
  · rename_i hi
    rw [harmed, ← hwf.scheduled] at hi
    exact registerTimer_current changed (h.setTimer (fun hc => absurd hc hi)) i
  · rename_i hi
    rw [not_not, harmed] at hi
    unfold updateTriggerTime
    split
    · exact computeNextTrigger_current changed _ h.announced
    · rename_i hne
      refine h.congr ⟨rfl, rfl, rfl, rfl⟩ (fun hneeded => ?_)
      have hold : s.triggerTime i ≠ s.nextTrigger := fun hc => hne hc.symm
      have hle : s.nextTrigger ≤ time := by
        rcases hop hi with hc | hc | hc
        · exact absurd hc hold
        · exact hc
        · exact absurd (hneeded.symm.trans hc) (by simp)
      rw [h.earliest hneeded] at hold hle
      exact earliest_setTimer hwf.nodup ((hwf.scheduled i).mpr hi) hold hle

theorem Current.perform (h : Current s) (hwf : WellFormed s)
    (hop : s.RestartsInOrder op) : Current (s.perform changed op) := by
  cases op with
  | setNextTriggerTime i time action => exact h.setNextTriggerTime changed hwf i time action hop
  | cancel i => exact h.cancel changed hwf i

/-! ## Over whole runs -/

/-- The restarts of a step are in order, also those that a timer does itself when it fires. -/
def InOrder (s : TimerService α ε) : Event α → Prop
  | .operation op => s.RestartsInOrder op
  | .fire i r _ => s.RestartsInOrder (r.operation i)
  | _ => True

instance (s : TimerService α ε) : DecidablePred s.InOrder
  | .operation op => inferInstanceAs (Decidable (s.RestartsInOrder op))
  | .fire i r _ => inferInstanceAs (Decidable (s.RestartsInOrder (r.operation i)))
  | .progressed _ => isTrue trivial
  | .skip => isTrue trivial
  | .actionReturns => isTrue trivial
  | .progressedReturns => isTrue trivial

theorem perform_holdUpdate (s : TimerService α ε) (op : Operation α) :
    (s.perform changed op).holdUpdate = s.holdUpdate := by
  cases op with
  | setNextTriggerTime i time action =>
      simp only [perform, TimerService.setNextTriggerTime]
      split
      · exact (registerTimer_keeps changed _ i).holdUpdate
      · exact (updateTriggerTime_keeps changed _ _).holdUpdate
  | cancel i =>
      simp only [perform, TimerService.cancel]
      split
      · exact (unregisterTimer_keeps changed s i _).holdUpdate
      · rfl

/-- What holds of a service in every run. -/
structure Sound (s : TimerService α ε) (p : Phase α) : Prop where
  wellFormed : WellFormed s
  inRange : TimesInRange s
  current : Current s
  holdUpdate : s.holdUpdate = false ↔ p = .outside

theorem Sound.construction (members : ε) :
    Sound ({ members := members } : TimerService α ε) .outside := by
  refine ⟨⟨fun i => ?_, List.nodup_nil⟩, fun i hi => ?_, ⟨fun _ => rfl, fun _ => rfl, rfl⟩, ?_⟩
  · simp [Armed]
  · simp [Armed] at hi
  · simp

theorem Sound.step {s s' : TimerService α ε} {p p' : Phase α} {e : Event α} (h : Sound s p)
    (he : s.InOrder e) (hstep : Step changed s p e s' p') : Sound s' p' := by
  cases hstep with
  | operation op hop hp =>
      refine ⟨h.wellFormed.perform changed op, h.inRange.perform changed hop,
        h.current.perform changed h.wellFormed he, ?_⟩
      rw [perform_holdUpdate]
      exact h.holdUpdate
  | progressed time =>
      have hneeded := h.current.idle (h.holdUpdate.mpr rfl)
      refine ⟨h.wellFormed.congr rfl rfl, h.inRange.congr rfl,
        { h.current with idle := fun _ => hneeded }, ?_⟩
      simp [beginProgressed]
  | skip hi hlate =>
      exact ⟨h.wellFormed.congr rfl rfl, h.inRange.congr rfl,
        h.current.congr ⟨rfl, rfl, rfl, rfl⟩ (fun _ => rfl), h.holdUpdate⟩
  | fire hi hdue r hr action =>
      rename_i time i
      have hwf : WellFormed (s.passTimer i) := h.wellFormed.congr rfl rfl
      have hcurrent : Current (s.passTimer i) :=
        h.current.congr ⟨rfl, rfl, rfl, rfl⟩ (fun _ => rfl)
      have horder : (s.passTimer i).RestartsInOrder (r.operation i) := by
        cases r with
        | cancel => trivial
        | setNextTriggerTime time action => exact he
      have hrange : TimesInRange (s.passTimer i) := h.inRange.congr rfl
      refine ⟨hwf.perform changed _, hrange.perform changed hr, hcurrent.perform changed hwf horder,
        ?_⟩
      rw [perform_holdUpdate, show (s.passTimer i).holdUpdate = s.holdUpdate from rfl, h.holdUpdate]
      simp
  | actionReturns =>
      refine { h with holdUpdate := ?_ }
      rw [h.holdUpdate]
      simp
  | progressedReturns hi =>
      rename_i time
      -- the recomputation that was held back is done now
      unfold endProgressed
      dsimp only
      split
      · have hkeeps := computeNextTrigger_keeps changed
          ({ s with holdUpdate := false } : TimerService α ε)
        refine ⟨h.wellFormed.congr hkeeps.timers hkeeps.scheduledTimers,
          h.inRange.congr hkeeps.timers, computeNextTrigger_current changed _ h.current.announced, ?_⟩
        simp [hkeeps.holdUpdate]
      · rename_i hneeded
        have hneeded' : s.updateNeeded = false := by simpa using hneeded
        exact ⟨h.wellFormed.congr rfl rfl, h.inRange.congr rfl,
          { h.current with idle := fun _ => hneeded' }, by simp⟩

theorem Reaches.sound (h : Reaches changed InOrder s p) : Sound s p := by
  induction h with
  | construction members => exact Sound.construction members
  | step _ hP hstep ih => exact ih.step changed hP hstep

/-! ## Repeating timers -/

/-- The time that `TimerRepeating::ComputeNextTriggerTime` sets. The operands of `%` are not
negative. -/
def repeatingTriggerTime (now nextTrigger : TimePoint) (triggerPeriod : Duration) : TimePoint :=
  let now := max now nextTrigger
  let diff := (now - nextTrigger) % triggerPeriod
  now - diff + triggerPeriod

theorem lt_repeatingTriggerTime (now nextTrigger : TimePoint) {triggerPeriod : Duration}
    (h : 0 < triggerPeriod) : nextTrigger < repeatingTriggerTime now nextTrigger triggerPeriod := by
  have hdiff := Int.emod_lt_of_pos (max now nextTrigger - nextTrigger) h
  have hmax := le_max_right now nextTrigger
  unfold repeatingTriggerTime
  linarith

/-- The timers that are restarted are repeating ones, when they fire or when their duration is set. -/
def Repeats (s : TimerService α ε) : Operation α → Prop
  | .setNextTriggerTime i time _ => s.Armed i →
      ∃ now triggerPeriod, 0 < triggerPeriod ∧ time = repeatingTriggerTime now (s.triggerTime i) triggerPeriod
  | .cancel _ => True

def OnlyRepeats (s : TimerService α ε) : Event α → Prop
  | .operation op => s.Repeats op
  | .fire i r _ => s.Repeats (r.operation i)
  | _ => True

theorem Sound.restartsInOrder (h : Sound s p) (hop : s.Repeats op) : s.RestartsInOrder op := by
  cases op with
  | cancel i => trivial
  | setNextTriggerTime i time action =>
      intro hi
      obtain ⟨now, triggerPeriod, hperiod, rfl⟩ := hop hi
      cases hneeded : s.updateNeeded with
      | true => exact Or.inr (Or.inr rfl)
      | false =>
          refine Or.inr (Or.inl ?_)
          calc s.nextTrigger
              = s.earliest := h.current.earliest hneeded
            _ ≤ s.triggerTime i := earliest_le ((h.wellFormed.scheduled i).mpr hi)
            _ ≤ _ := (lt_repeatingTriggerTime now _ hperiod).le

theorem Reaches.sound_of_onlyRepeats (h : Reaches changed OnlyRepeats s p) : Sound s p := by
  induction h with
  | construction members => exact Sound.construction members
  | @step s _ _ _ e _ hP hstep ih =>
      have he : s.InOrder e := by
        cases e with
        | operation op => exact ih.restartsInOrder hP
        | fire i r action => exact ih.restartsInOrder hP
        | _ => trivial
      exact ih.step changed he hstep

/-! ## The earliest timer is known -/

/-- `t` is the minimum of the trigger times of the registered timers, or `TimePoint::max()` when
there are none. -/
structure IsEarliest (s : TimerService α ε) (t : TimePoint) : Prop where
  none_armed : (∀ i, ¬ s.Armed i) → t = TimePoint.max
  attained : (∃ i, s.Armed i) → ∃ i, s.Armed i ∧ s.triggerTime i = t
  le : ∀ i, s.Armed i → t ≤ s.triggerTime i

theorem earliest_attained (s : TimerService α ε) :
    s.earliest = TimePoint.max ∨ ∃ i ∈ s.scheduledTimers, s.triggerTime i = s.earliest := by
  simpa using List.min?_mem s.min?_earliest

theorem WellFormed.isEarliest (h : WellFormed s) (hrange : TimesInRange s) :
    IsEarliest s s.earliest := by
  have hle : ∀ i, s.Armed i → s.earliest ≤ s.triggerTime i := by
    intro i hi
    exact earliest_le ((h.scheduled i).mpr hi)
  refine ⟨fun hnone => ?_, ?_, hle⟩
  · have hnil : s.scheduledTimers = [] := by
      rw [List.eq_nil_iff_forall_not_mem]
      intro i hi
      exact hnone i ((h.scheduled i).mp hi)
    rw [earliest, hnil]
    rfl
  · rintro ⟨i, hi⟩
    rcases s.earliest_attained with hmax | ⟨j, hj, hjt⟩
    · refine ⟨i, hi, le_antisymm ?_ (hle i hi)⟩
      exact (hrange i hi).trans_eq hmax.symm
    · exact ⟨j, (h.scheduled j).mp hj, hjt⟩

/-- **`NextTrigger()` is the time of the earliest timer** whenever `Progressed` is not executing,
in every run in which no timer is restarted to a time before `NextTrigger()`, other than the
earliest timer itself, and `NextTriggerChanged()` has been called after its last change. -/
theorem nextTrigger_isEarliest {s : TimerService α ε} (h : Reaches changed InOrder s .outside) :
    IsEarliest s s.nextTrigger ∧ s.announced = true := by
  have hsound := h.sound changed
  have hneeded := hsound.current.idle (hsound.holdUpdate.mpr rfl)
  refine ⟨?_, hsound.current.announced⟩
  rw [hsound.current.earliest hneeded]
  exact hsound.wellFormed.isEarliest hsound.inRange

/-- Two timers are started, and the earlier one is restarted to a later time. -/
theorem nextTrigger_isEarliest_two_timers : ∃ s : TimerService Unit Unit,
    Reaches (fun _ => id) InOrder s .outside ∧ s.nextTrigger = 10 ∧ IsEarliest s s.nextTrigger ∧ s.announced = true := by
  have h : Reaches (fun _ => id) InOrder
      (((({ members := () } : TimerService Unit Unit).perform (fun _ => id)
        (.setNextTriggerTime 0 5 ())).perform (fun _ => id) (.setNextTriggerTime 1 10 ())).perform
          (fun _ => id) (.setNextTriggerTime 0 12 ())) .outside := by
    refine .step (.step (.step (.construction ()) ?_ (.operation _ ?_ trivial)) ?_
      (.operation _ ?_ trivial)) ?_ (.operation _ ?_ trivial)
    all_goals decide
  exact ⟨_, h, by decide, nextTrigger_isEarliest _ h⟩

/-- **Repeating timers keep `NextTrigger()` right**, as long as no other timer is restarted before it is due. -/
theorem repeating_isEarliest {s : TimerService α ε} (h : Reaches changed OnlyRepeats s .outside) :
    IsEarliest s s.nextTrigger ∧ s.announced = true := by
  have hsound := h.sound_of_onlyRepeats
  have hneeded := hsound.current.idle (hsound.holdUpdate.mpr rfl)
  refine ⟨?_, hsound.current.announced⟩
  rw [hsound.current.earliest hneeded]
  exact hsound.wellFormed.isEarliest hsound.inRange

/-- A timer with a period of 5 fires at 7. -/
theorem repeating_isEarliest_fired : ∃ s : TimerService Unit Unit,
    Reaches (fun _ => id) OnlyRepeats s .outside ∧ s.nextTrigger = 10 ∧ IsEarliest s s.nextTrigger ∧ s.announced = true := by
  have h : Reaches (fun _ => id) OnlyRepeats (perform (fun _ => id) ({ members := () } : TimerService Unit Unit)
      (.setNextTriggerTime 0 5 ())) .outside :=
    .step (.construction ()) (by exact fun hi => absurd hi (by decide)) (.operation _ (by decide) trivial)
  have h := (h.step (by trivial) (.progressed 7)).step (by exact fun _ => ⟨7, 5, by decide, by decide⟩)
    (.fire (i := 0) (by decide) (by decide) (.setNextTriggerTime 10 ()) (by decide) ())
  have h := (h.step (by trivial) .actionReturns).step (by trivial) (.progressedReturns (by decide))
  exact ⟨_, h, by decide, repeating_isEarliest _ h⟩

/-- A restart out of order outside `Progressed` leaves `NextTrigger()` behind the earliest timer. -/
theorem restart_out_of_order {time : TimePoint} {action : α}
    (h : ¬ s.RestartsInOrder (.setNextTriggerTime i time action)) :
    ¬ IsEarliest (s.setNextTriggerTime changed i time action)
      (s.setNextTriggerTime changed i time action).nextTrigger := by
  simp only [RestartsInOrder, Classical.not_imp, not_or, not_le] at h
  obtain ⟨hi, hold, htime, hneeded⟩ := h
  have harmed := armed_setTimer_time s i time
  have hnext : (s.setNextTriggerTime changed i time action).nextTrigger = s.nextTrigger := by
    unfold TimerService.setNextTriggerTime updateTriggerTime
    dsimp only
    rw [if_neg (not_not_intro (harmed.mpr hi)), if_neg (fun hc => hold hc.symm)]
    rfl
  intro hearliest
  have hle := hearliest.le i (by simp [Armed, setNextTriggerTime_timers])
  rw [hnext, triggerTime, setNextTriggerTime_timers, Function.update_self] at hle
  exact absurd hle (not_le.mpr htime)

/-- Two timers are started, and the later one is restarted to a time before both. -/
theorem nextTrigger_not_earliest : ∃ s : TimerService Unit Unit,
    Reaches (fun _ => id) (fun _ _ => True) s .outside ∧ ¬ IsEarliest s s.nextTrigger := by
  refine ⟨((({ members := () } : TimerService Unit Unit).perform (fun _ => id)
    (.setNextTriggerTime 0 5 ())).perform (fun _ => id) (.setNextTriggerTime 1 10 ())).perform
      (fun _ => id) (.setNextTriggerTime 1 3 ()), ?_, ?_⟩
  · refine .step (.step (.step (.construction ()) trivial (.operation _ ?_ trivial)) trivial
      (.operation _ ?_ trivial)) trivial (.operation _ ?_ trivial)
    all_goals decide
  · intro h
    exact absurd (h.le 1 (by decide)) (by decide)

end TimerService

end EmbeddedInfra.Timers
