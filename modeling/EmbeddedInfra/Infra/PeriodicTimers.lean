import EmbeddedInfra.Infra.TimerServicePasses

set_option autoImplicit false

/-! # Periodic timers

`TimerRepeating`, `TimerLimitedRepeating` and `TimerLimitedRepeatingWithClosingAction` compute their next
trigger time whenever they fire. The first one counts on from its previous trigger time, the other two from
the moment at which they were started. Both want the first multiple of the period that lies ahead, however
late the timer fires.
-/

namespace EmbeddedInfra.Timers

/-! ## The timers -/

/-- The members of a `TimerLimitedRepeating`. -/
structure LimitedRepeating (α : Type) where
  triggerStart : TimePoint
  triggerPeriod : Duration
  howMany : Int
  action : α

/-- The members of a `TimerLimitedRepeatingWithClosingAction`. -/
structure LimitedRepeatingWithClosingAction (α : Type) extends LimitedRepeating α where
  closingAction : α

/-- A periodic timer, with the members of its class. -/
inductive PeriodicTimer (α : Type) where
  | repeating (triggerPeriod : Duration)
  | limitedRepeating (t : LimitedRepeating α)
  | withClosingAction (t : LimitedRepeatingWithClosingAction α)

/-- The time that both limited timers set. The remainder of the source has the sign of its first operand. -/
def limitedTriggerTime (now triggerStart : TimePoint) (triggerPeriod : Duration) : TimePoint :=
  let diff := now - triggerStart
  let now := if diff < 0 then now + triggerPeriod else now
  now - diff.tmod triggerPeriod + triggerPeriod

namespace PeriodicTimer

variable {α : Type}

/-- `Action()`, where `timerAction` is the action of the base class. -/
def action (timerAction : Option α) : PeriodicTimer α → Option α
  | repeating _ => timerAction
  | limitedRepeating _ => timerAction
  | withClosingAction t => if t.howMany ≥ 0 then some t.action else some t.closingAction

/-- `ComputeNextTriggerTime`, where `current` is `Action()`. -/
def computeNextTriggerTime (emptyFunction : α) (now nextTrigger : TimePoint) (current : α) :
    PeriodicTimer α → Recomputation α × PeriodicTimer α
  | repeating triggerPeriod =>
      (.setNextTriggerTime (TimerService.repeatingTriggerTime now nextTrigger triggerPeriod) current,
        repeating triggerPeriod)
  | limitedRepeating t =>
      if t.howMany ≠ 0 then
        (.setNextTriggerTime (limitedTriggerTime now t.triggerStart t.triggerPeriod) t.action,
          limitedRepeating { t with howMany := t.howMany - 1 })
      else (.cancel, limitedRepeating t)
  | withClosingAction t =>
      if t.howMany ≥ 0 then
        (.setNextTriggerTime (limitedTriggerTime now t.triggerStart t.triggerPeriod) emptyFunction,
          withClosingAction { t with howMany := t.howMany - 1 })
      else (.cancel, withClosingAction t)

end PeriodicTimer

/-- A service with one of its timers, the time that it is, and the actions of the timer that have been
invoked since it was started. -/
structure PeriodicSystem (α ε : Type) where
  service : TimerService α ε
  phase : Phase α
  now : TimePoint
  members : PeriodicTimer α
  invoked : List α

/-- How the timer is started. -/
inductive Start (α : Type) where
  | repeating (duration : Duration) (action : α)
  | limitedRepeating (howMany : Nat) (duration : Duration) (action : α)
  | withClosingAction (howMany : Nat) (duration : Duration) (action closingAction : α)

def Start.period {α : Type} : Start α → Duration
  | repeating duration _ => duration
  | limitedRepeating _ duration _ => duration
  | withClosingAction _ duration _ _ => duration

namespace PeriodicSystem

variable {α ε : Type} (changed : TimePoint → ε → ε) (emptyFunction : α) (i : TimerId)

/-- The timer computes its next trigger time. -/
def compute (σ : PeriodicSystem α ε) (current : α) : PeriodicSystem α ε :=
  let computed := σ.members.computeNextTriggerTime emptyFunction σ.now (σ.service.triggerTime i) current
  { σ with service := σ.service.perform changed (computed.1.operation i), members := computed.2 }

/-- `Start` of the class. -/
def start (resolution : Duration) (σ : PeriodicSystem α ε) : Start α → PeriodicSystem α ε
  | .repeating duration action =>
      let service := σ.service.setNextTriggerTime changed i (σ.now + resolution) action
      { σ with service := service, members := .repeating duration, invoked := [] }.compute changed emptyFunction i
        action
  | .limitedRepeating howMany duration action =>
      let t : LimitedRepeating α :=
        { triggerStart := σ.now + resolution, triggerPeriod := duration, howMany := howMany, action := action }
      { σ with members := .limitedRepeating t, invoked := [] }.compute changed emptyFunction i action
  | .withClosingAction howMany duration action closingAction =>
      let t : LimitedRepeatingWithClosingAction α :=
        { triggerStart := σ.now + resolution, triggerPeriod := duration, howMany := howMany, action := action
          closingAction := closingAction }
      { σ with members := .withClosingAction t, invoked := [] }.compute changed emptyFunction i action

/-- The event is not about the timer. -/
def Leaves : Event α → Prop
  | .operation op => op.timer ≠ i
  | .fire j _ _ => j ≠ i
  | _ => True

/-- The pass comes to the timer, which is due. -/
inductive Fires : PeriodicSystem α ε → PeriodicSystem α ε → Prop where
  | fires {σ : PeriodicSystem α ε} {time : TimePoint} {current : α} (hphase : σ.phase = .scanning time)
      (hi : σ.service.timerIterator = some i) (hdue : σ.service.triggerTime i ≤ time)
      (hcurrent : σ.members.action (σ.service.timers i).action = some current) :
      Fires σ
        { { σ with service := σ.service.passTimer i }.compute changed emptyFunction i current with
          phase := .acting time current
          invoked := σ.invoked ++ [current] }

inductive Step : PeriodicSystem α ε → PeriodicSystem α ε → Prop where
  | fires {σ σ' : PeriodicSystem α ε} (h : Fires changed emptyFunction i σ σ') : Step σ σ'
  -- `Progressed` is called with a time that has come
  | other {σ : PeriodicSystem α ε} {e : Event α} {s : TimerService α ε} {p : Phase α}
      (hstep : TimerService.Step changed σ.service σ.phase e s p) (hleaves : Leaves i e)
      (hcome : ∀ time, e = .progressed time → time ≤ σ.now) : Step σ { σ with service := s, phase := p }
  | tick {σ : PeriodicSystem α ε} {now : TimePoint} (h : σ.now ≤ now) : Step σ { σ with now := now }

/-- The states that the system comes to. -/
inductive Run (σ : PeriodicSystem α ε) : PeriodicSystem α ε → Prop where
  | refl : Run σ σ
  | step {m σ' : PeriodicSystem α ε} (h : Run σ m) (hstep : Step changed emptyFunction i m σ') : Run σ σ'

/-- A state in which the timer may be started: the program is running. -/
structure Startable (σ : PeriodicSystem α ε) : Prop where
  reaches : TimerService.Reaches changed (fun _ _ => True) σ.service σ.phase
  operates : σ.phase.Operates
  come : ∀ time action, σ.phase = .acting time action → time ≤ σ.now

/-! ## What is promised -/

/-- The next time is the first multiple of the period, counted from the origin, that lies behind the
previous one and behind the time that it is. -/
structure IsNext (origin : TimePoint) (period : Duration) (now previous next : TimePoint) : Prop where
  multiple : ∃ k : Int, next = origin + k * period
  previous_lt : previous < next
  now_lt : now < next
  least : ∀ k : Int, previous < origin + k * period → now < origin + k * period → next ≤ origin + k * period

/-- The actions that have been invoked are the first ones of those that are planned, and the timer is armed
as long as some are left. A repeating timer goes on. -/
def Invokes (σ : PeriodicSystem α ε) : Start α → Prop
  | .repeating _ action => σ.service.Armed i ∧ ∀ a ∈ σ.invoked, a = action
  | .limitedRepeating howMany _ action =>
      ∃ left, σ.invoked ++ left = List.replicate howMany action ∧ (σ.service.Armed i ↔ left ≠ [])
  | .withClosingAction howMany _ action closingAction =>
      ∃ left, σ.invoked ++ left = List.replicate howMany action ++ [closingAction] ∧
        (σ.service.Armed i ↔ left ≠ [])

/-- What is promised of a timer that is started in a state. -/
structure KeepsPhase (resolution : Duration) (request : Start α) (σ : PeriodicSystem α ε) : Prop where
  first : (σ.start changed emptyFunction i resolution request).service.Armed i →
    (σ.start changed emptyFunction i resolution request).service.triggerTime i =
      σ.now + resolution + request.period
  later : ∀ m, Run changed emptyFunction i (σ.start changed emptyFunction i resolution request) m →
    ∀ σ', Fires changed emptyFunction i m σ' → σ'.service.Armed i →
      IsNext (σ.now + resolution) request.period m.now (m.service.triggerTime i) (σ'.service.triggerTime i)
  invokes : ∀ m, Run changed emptyFunction i (σ.start changed emptyFunction i resolution request) m →
    m.Invokes i request

end PeriodicSystem

/-- The resolution of the service does not get in the way of a limited timer: it is zero, or at least one
period and less than two. -/
def Start.Conforms {α : Type} (resolution : Duration) : Start α → Prop
  | repeating _ _ => True
  | limitedRepeating howMany duration _ =>
      howMany = 0 ∨ resolution = 0 ∨ duration ≤ resolution ∧ resolution < 2 * duration
  | withClosingAction _ duration _ _ => resolution = 0 ∨ duration ≤ resolution ∧ resolution < 2 * duration

/-- The timer has something to do at all. -/
def Start.Acts {α : Type} : Start α → Prop
  | repeating _ _ => True
  | limitedRepeating howMany _ _ => howMany ≠ 0
  | withClosingAction _ _ _ _ => True

/-- The time that a timer computes, by what it was started for. -/
def Start.nextTime {α : Type} (origin now previous : TimePoint) : Start α → TimePoint
  | repeating duration _ => TimerService.repeatingTriggerTime now previous duration
  | limitedRepeating _ duration _ => limitedTriggerTime now origin duration
  | withClosingAction _ duration _ _ => limitedTriggerTime now origin duration

namespace PeriodicSystem

/-! ## Multiples of the period -/

section Multiples

variable {origin now previous : TimePoint} {period : Duration}

/-- The multiple that is reached by rounding down and going on by one period. -/
theorem isNext_of_rounded {base : TimePoint} (hperiod : 0 < period) (hbase : ∃ k : Int, base = origin + k * period)
    (latest : TimePoint) (hmax : latest = max now previous) :
    IsNext origin period now previous (latest - (latest - base) % period + period) := by
  rcases hbase with ⟨k, rfl⟩
  obtain ⟨q, hq⟩ : ∃ q : Int, q = (latest - (origin + k * period)) / period := ⟨_, rfl⟩
  have hsplit := Int.emod_add_mul_ediv (latest - (origin + k * period)) period
  rw [← hq] at hsplit
  have hpos := Int.emod_nonneg (latest - (origin + k * period)) hperiod.ne'
  have hlt := Int.emod_lt_of_pos (latest - (origin + k * period)) hperiod
  have hnow : now ≤ latest := hmax ▸ le_max_left _ _
  have hprevious : previous ≤ latest := hmax ▸ le_max_right _ _
  constructor
  · exact ⟨k + q + 1, by linarith [mul_comm period q]⟩
  · linarith
  · linarith
  · intro j hj hj'
    have hlatest : latest < origin + j * period := hmax ▸ max_lt hj' hj
    -- otherwise the multiple lies within the period in which the latest time is
    by_contra hcon
    rw [not_le] at hcon
    have hlow : q * period < (j - k) * period := by linarith [mul_comm period q]
    have hhigh : (j - k) * period < (q + 1) * period := by linarith [mul_comm period q]
    have h1 : q < j - k := lt_of_mul_lt_mul_right hlow hperiod.le
    have h2 : j - k < q + 1 := lt_of_mul_lt_mul_right hhigh hperiod.le
    exact absurd (Int.add_one_le_of_lt h1) (not_le.mpr h2)

theorem isNext_repeating (hperiod : 0 < period) (hprevious : ∃ k : Int, previous = origin + k * period) :
    IsNext origin period now previous (TimerService.repeatingTriggerTime now previous period) :=
  isNext_of_rounded hperiod hprevious _ rfl

/-- From the moment at which the timer was to start the remainder is not negative. -/
theorem isNext_limited (hperiod : 0 < period) (horigin : origin ≤ now) (hlate : previous ≤ now) :
    IsNext origin period now previous (limitedTriggerTime now origin period) := by
  have hdiff : 0 ≤ now - origin := sub_nonneg.mpr horigin
  unfold limitedTriggerTime
  dsimp only
  rw [if_neg (not_lt.mpr hdiff), Int.tmod_eq_emod_of_nonneg hdiff]
  exact isNext_of_rounded hperiod ⟨0, by ring⟩ now (max_eq_left hlate).symm

/-- The first trigger time of a limited timer: the origin lies ahead, by the resolution. -/
theorem limitedTriggerTime_first {s : TimePoint} {resolution : Duration} (hresolution : 0 ≤ resolution)
    (hperiod : 0 < period) :
    limitedTriggerTime s (s + resolution) period = s + resolution + period ↔
      resolution = 0 ∨ period ≤ resolution ∧ resolution < 2 * period := by
  have hdiff : s - (s + resolution) = -resolution := by ring
  unfold limitedTriggerTime
  dsimp only
  rw [hdiff, Int.neg_tmod, Int.tmod_eq_emod_of_nonneg hresolution]
  rcases hresolution.eq_or_lt with rfl | hpos
  · simp
  · rw [if_pos (neg_lt_zero.mpr hpos)]
    have hnonneg := Int.emod_nonneg resolution hperiod.ne'
    have hlt := Int.emod_lt_of_pos resolution hperiod
    constructor
    · intro h
      have hrest : resolution % period = resolution - period := by linarith
      exact Or.inr ⟨by linarith, by linarith⟩
    · rintro (h | ⟨hle, hlt'⟩)
      · exact absurd h hpos.ne'
      · have hrest : resolution % period = resolution - period := by
          rw [← Int.sub_emod_right, Int.emod_eq_of_lt (by linarith) (by linarith)]
        linarith

end Multiples

variable {α ε : Type} (changed : TimePoint → ε → ε) (emptyFunction : α) (i : TimerId)

/-! ## What firing does to the timer -/

/-- The members of the base class after a recomputation. -/
def timerAfter : Recomputation α → Timer α
  | .cancel => {}
  | .setNextTriggerTime time action => { action := some action, nextTriggerTime := time }

theorem perform_timers (s : TimerService α ε) (r : Recomputation α) :
    (s.perform changed (r.operation i)).timers i = timerAfter r := by
  cases r with
  | cancel =>
      calc (s.cancel changed i).timers i
          = Function.update s.timers i {} i := by rw [TimerService.cancel_timers]
        _ = {} := Function.update_self ..
  | setNextTriggerTime time action =>
      calc (s.setNextTriggerTime changed i time action).timers i
          = Function.update s.timers i { action := some action, nextTriggerTime := time } i := by
            rw [TimerService.setNextTriggerTime_timers]
        _ = { action := some action, nextTriggerTime := time } := Function.update_self ..

/-- How far the timer has come with what it was started for. -/
inductive Progress (origin : TimePoint) : Start α → PeriodicTimer α → Timer α → List α → Prop where
  | repeating {duration : Duration} {action : α} {next : TimePoint} {invoked : List α}
      (h : ∀ a ∈ invoked, a = action) :
      Progress origin (.repeating duration action) (.repeating duration)
        { action := some action, nextTriggerTime := next } invoked
  | limitedRepeating {howMany done left : Nat} {duration : Duration} {action : α} {next : TimePoint}
      (h : done + (left + 1) = howMany) :
      Progress origin (.limitedRepeating howMany duration action)
        (.limitedRepeating { triggerStart := origin, triggerPeriod := duration, howMany := left, action := action })
        { action := some action, nextTriggerTime := next } (List.replicate done action)
  | limitedEnds {howMany : Nat} {duration : Duration} {action : α} :
      Progress origin (.limitedRepeating howMany duration action)
        (.limitedRepeating { triggerStart := origin, triggerPeriod := duration, howMany := 0, action := action })
        {} (List.replicate howMany action)
  -- `howMany` is -1 when the closing action is the next one
  | withClosingAction {howMany done left : Nat} {duration : Duration} {action closingAction : α}
      {next : TimePoint} (h : done + left = howMany) :
      Progress origin (.withClosingAction howMany duration action closingAction)
        (.withClosingAction { triggerStart := origin, triggerPeriod := duration, howMany := (left : Int) - 1
                              action := action, closingAction := closingAction })
        { action := some emptyFunction, nextTriggerTime := next } (List.replicate done action)
  | closingEnds {howMany : Nat} {duration : Duration} {action closingAction : α} :
      Progress origin (.withClosingAction howMany duration action closingAction)
        (.withClosingAction { triggerStart := origin, triggerPeriod := duration, howMany := -1
                              action := action, closingAction := closingAction })
        {} (List.replicate howMany action ++ [closingAction])

variable {emptyFunction} {i}
variable {origin : TimePoint} {request : Start α} {members : PeriodicTimer α} {timer : Timer α} {invoked : List α}

/-- One more action is invoked, and the timer goes on to the next one. -/
theorem Progress.fire (h : Progress emptyFunction origin request members timer invoked)
    (harmed : timer.action.isSome) {current : α} (hcurrent : members.action timer.action = some current)
    (now : TimePoint) {computed : Recomputation α × PeriodicTimer α}
    (hcomputed : members.computeNextTriggerTime emptyFunction now timer.nextTriggerTime current = computed) :
    Progress emptyFunction origin request computed.2 (timerAfter computed.1) (invoked ++ [current]) ∧
      ((timerAfter computed.1).action.isSome →
        (timerAfter computed.1).nextTriggerTime = request.nextTime origin now timer.nextTriggerTime) := by
  cases h with
  | repeating h =>
      obtain rfl : _ = current := Option.some_inj.mp hcurrent
      subst hcomputed
      refine ⟨.repeating ?_, fun _ => rfl⟩
      rw [List.forall_mem_append]
      exact ⟨h, by simp⟩
  | @limitedRepeating howMany done left duration action next h =>
      obtain rfl : _ = current := Option.some_inj.mp hcurrent
      rw [← List.replicate_succ']
      subst hcomputed
      cases left with
      | zero =>
          obtain rfl : done + 1 = howMany := h
          exact ⟨.limitedEnds, fun hcon => by simp [timerAfter, PeriodicTimer.computeNextTriggerTime] at hcon⟩
      | succ left =>
          have hleft : ((left + 1 : Nat) : Int) ≠ 0 := by omega
          have hminus : ((left + 1 : Nat) : Int) - 1 = left := by omega
          simp only [PeriodicTimer.computeNextTriggerTime, if_pos hleft, hminus]
          exact ⟨.limitedRepeating (by omega), fun _ => rfl⟩
  | limitedEnds => cases harmed
  | @withClosingAction howMany done left duration action closingAction next h =>
      subst hcomputed
      cases left with
      | zero =>
          obtain rfl : done = howMany := h
          obtain rfl : closingAction = current := Option.some_inj.mp hcurrent
          exact ⟨.closingEnds, fun hcon => by simp [timerAfter, PeriodicTimer.computeNextTriggerTime] at hcon⟩
      | succ left =>
          have hminus : ((left + 1 : Nat) : Int) - 1 = left := by omega
          have hleft : (left : Int) ≥ 0 := Int.natCast_nonneg left
          rw [hminus] at hcurrent
          simp only [PeriodicTimer.action, if_pos hleft, Option.some_inj] at hcurrent
          subst hcurrent
          rw [← List.replicate_succ']
          simp only [PeriodicTimer.computeNextTriggerTime, hminus, if_pos hleft]
          exact ⟨.withClosingAction (by omega), fun _ => rfl⟩
  | closingEnds => cases harmed

/-! ## Runs -/

/-- What holds from the start of the timer on. -/
structure OnSchedule (emptyFunction : α) (i : TimerId) (origin : TimePoint) (request : Start α)
    (σ : PeriodicSystem α ε) : Prop where
  wellFormed : σ.service.WellFormed
  walks : ∃ rest, σ.service.Walks rest
  come : ∀ time, (σ.phase = .scanning time ∨ ∃ action, σ.phase = .acting time action) → time ≤ σ.now
  progress : Progress emptyFunction origin request σ.members (σ.service.timers i) σ.invoked
  multiple : σ.service.Armed i → ∃ k : Int, σ.service.triggerTime i = origin + k * request.period
  ahead : σ.service.Armed i → origin ≤ σ.service.triggerTime i

variable {changed} {s : TimerService α ε} {r : Recomputation α} {σ : PeriodicSystem α ε}

/-- The next time that the timer computes is the right one. -/
theorem OnSchedule.isNext (h : OnSchedule emptyFunction i origin request σ)
    (hperiod : 0 < request.period) (harmed : σ.service.Armed i) (hlate : σ.service.triggerTime i ≤ σ.now) :
    IsNext origin request.period σ.now (σ.service.triggerTime i)
      (request.nextTime origin σ.now (σ.service.triggerTime i)) := by
  have hahead := (h.ahead harmed).trans hlate
  rcases request with ⟨duration, action⟩ | ⟨howMany, duration, action⟩ | ⟨howMany, duration, action, closingAction⟩
  · exact isNext_repeating hperiod (h.multiple harmed)
  · exact isNext_limited hperiod hahead hlate
  · exact isNext_limited hperiod hahead hlate

/-- The timer has been set, or cancelled, by what it has computed. -/
theorem OnSchedule.of_perform (hwf : s.WellFormed) (hwalks : ∃ rest, s.Walks rest)
    (hservice : σ.service = s.perform changed (r.operation i))
    (hcome : ∀ time, (σ.phase = .scanning time ∨ ∃ action, σ.phase = .acting time action) → time ≤ σ.now)
    (hprogress : Progress emptyFunction origin request σ.members (timerAfter r) σ.invoked)
    (hnext : (timerAfter r).action.isSome → (∃ k : Int, (timerAfter r).nextTriggerTime = origin + k * request.period) ∧
      origin ≤ (timerAfter r).nextTriggerTime) : OnSchedule emptyFunction i origin request σ := by
  have htimer : σ.service.timers i = timerAfter r := by
    rw [hservice]
    exact perform_timers changed i s r
  have harmed : σ.service.Armed i → (timerAfter r).action.isSome := by
    unfold TimerService.Armed
    rw [htimer]
    exact id
  have htime : σ.service.triggerTime i = (timerAfter r).nextTriggerTime := congrArg _ htimer
  constructor
  · rw [hservice]
    exact hwf.perform changed _
  · rcases hwalks with ⟨rest, hrest⟩
    obtain ⟨rest', hrest', -⟩ := hrest.perform changed hwf (r.operation i)
    rw [hservice]
    exact ⟨rest', hrest'⟩
  · exact hcome
  · rw [htimer]
    exact hprogress
  · intro h
    rw [htime]
    exact (hnext (harmed h)).1
  · intro h
    rw [htime]
    exact (hnext (harmed h)).2

/-- The pass comes to the timer: it goes on to the next time. -/
theorem OnSchedule.fires {σ σ' : PeriodicSystem α ε} (h : OnSchedule emptyFunction i origin request σ)
    (hperiod : 0 < request.period) (hfires : Fires changed emptyFunction i σ σ') :
    OnSchedule emptyFunction i origin request σ' ∧
      (σ'.service.Armed i →
        IsNext origin request.period σ.now (σ.service.triggerTime i) (σ'.service.triggerTime i)) := by
  cases hfires with
  | @fires time current hphase hi hdue hcurrent =>
      have hwf : (σ.service.passTimer i).WellFormed := h.wellFormed.congr rfl rfl
      obtain ⟨harmed, hlater⟩ : σ.service.Armed i ∧ ∃ later, (σ.service.passTimer i).Walks later := by
        rcases h.walks with ⟨rest, hrest⟩
        obtain ⟨later, rfl⟩ := hrest.exists_cons hi
        have hmem := hrest.subset List.mem_cons_self
        exact ⟨(h.wellFormed.scheduled i).mp hmem, later, hrest.passTimer h.wellFormed.nodup⟩
      have htime := h.come time (Or.inl hphase)
      have hisNext := h.isNext hperiod harmed (hdue.trans htime)
      obtain ⟨hprogress, hnext⟩ := h.progress.fire harmed hcurrent σ.now rfl
      set r := (σ.members.computeNextTriggerTime emptyFunction σ.now (σ.service.timers i).nextTriggerTime current).1
        with hr
      have hahead : (timerAfter r).action.isSome →
          (∃ k : Int, (timerAfter r).nextTriggerTime = origin + k * request.period) ∧
            origin ≤ (timerAfter r).nextTriggerTime := by
        intro hsome
        rw [hnext hsome]
        exact ⟨hisNext.multiple, (h.ahead harmed).trans hisNext.previous_lt.le⟩
      constructor
      · refine OnSchedule.of_perform hwf hlater rfl ?_ hprogress hahead
        rintro time' (heq | ⟨action, heq⟩)
        · cases heq
        · cases heq
          exact htime
      · intro harmed'
        have htimer := perform_timers changed i (σ.service.passTimer i) r
        have hsome : (timerAfter r).action.isSome := by
          rw [← htimer]
          exact harmed'
        have hnext' := hnext hsome
        rw [← htimer] at hnext'
        exact Eq.subst (motive := IsNext origin request.period σ.now (σ.service.triggerTime i)) hnext'.symm hisNext

/-- What happens to the other timers does not matter. -/
theorem OnSchedule.other (h : OnSchedule emptyFunction i origin request σ) {e : Event α}
    {p : Phase α} (hstep : TimerService.Step changed σ.service σ.phase e s p)
    (hleaves : Leaves i e) (hcome : ∀ time, e = .progressed time → time ≤ σ.now) :
    OnSchedule emptyFunction i origin request { σ with service := s, phase := p } := by
  have hwf : s.WellFormed := h.wellFormed.step changed hstep
  have hwalks : ∃ rest, s.Walks rest := by
    rcases h.walks with ⟨rest, hrest⟩
    exact hrest.step h.wellFormed hstep
  have hkept : s.timers i = σ.service.timers i ∧
      ∀ time, (p = .scanning time ∨ ∃ action, p = .acting time action) → time ≤ σ.now := by
    generalize hphase : σ.phase = phase at hstep
    cases hstep with
    | operation op hop hp =>
        exact ⟨TimerService.perform_timers_of_ne changed _ op (Ne.symm hleaves), hphase ▸ h.come⟩
    | progressed time =>
        refine ⟨rfl, ?_⟩
        rintro time' (heq | ⟨action, heq⟩)
        · cases heq
          exact hcome _ rfl
        · cases heq
    | skip hi hlate => exact ⟨rfl, hphase ▸ h.come⟩
    | @fire time j hi hdue r hr action =>
        have hne : i ≠ (r.operation j).timer := by
          cases r with
          | cancel => exact Ne.symm hleaves
          | setNextTriggerTime t a => exact Ne.symm hleaves
        refine ⟨TimerService.perform_timers_of_ne changed _ _ hne, ?_⟩
        rintro time' (heq | ⟨action', heq⟩)
        · cases heq
        · cases heq
          exact h.come _ (Or.inl hphase)
    | actionReturns =>
        refine ⟨rfl, ?_⟩
        rintro time' (heq | ⟨action', heq⟩)
        · cases heq
          exact h.come _ (Or.inr ⟨_, hphase⟩)
        · cases heq
    | progressedReturns hi =>
        refine ⟨congrFun (TimerService.endProgressed_keeps changed σ.service).1 i, ?_⟩
        simp
  rcases hkept with ⟨htimer, hcome'⟩
  have harmed : s.Armed i ↔ σ.service.Armed i := by
    unfold TimerService.Armed
    rw [htimer]
  have htime : s.triggerTime i = σ.service.triggerTime i := congrArg _ htimer
  constructor
  · exact hwf
  · exact hwalks
  · exact hcome'
  · rw [htimer]
    exact h.progress
  · intro hi
    rw [htime]
    exact h.multiple (harmed.mp hi)
  · intro hi
    rw [htime]
    exact h.ahead (harmed.mp hi)

theorem OnSchedule.tick (h : OnSchedule emptyFunction i origin request σ) {now : TimePoint}
    (hnow : σ.now ≤ now) : OnSchedule emptyFunction i origin request { σ with now := now } where
  wellFormed := h.wellFormed
  walks := h.walks
  come := fun time htime => (h.come time htime).trans hnow
  progress := h.progress
  multiple := h.multiple
  ahead := h.ahead

/-- The schedule is kept in every run. -/
theorem OnSchedule.run {m : PeriodicSystem α ε} (h : OnSchedule emptyFunction i origin request σ)
    (hperiod : 0 < request.period) (hrun : Run changed emptyFunction i σ m) :
    OnSchedule emptyFunction i origin request m := by
  induction hrun with
  | refl => exact h
  | step _ hstep ih =>
      cases hstep with
      | fires hfires => exact (ih.fires hperiod hfires).1
      | other hstep hleaves hcome => exact ih.other hstep hleaves hcome
      | tick hnow => exact ih.tick hnow

/-- The actions that have been invoked are those that were planned. -/
theorem OnSchedule.invokes (h : OnSchedule emptyFunction i origin request σ) :
    σ.Invokes i request := by
  have hprogress := h.progress
  unfold Invokes TimerService.Armed
  generalize σ.service.timers i = timer at hprogress
  generalize σ.invoked = invoked at hprogress
  generalize σ.members = members at hprogress
  cases hprogress with
  | repeating hall => exact ⟨rfl, hall⟩
  | @limitedRepeating howMany done left duration action next hdone =>
      refine ⟨List.replicate (left + 1) action, ?_, by simp⟩
      rw [← hdone, List.replicate_append_replicate]
  | limitedEnds => exact ⟨[], by simp, by simp⟩
  | @withClosingAction howMany done left duration action closingAction next hdone =>
      refine ⟨List.replicate left action ++ [closingAction], ?_, by simp⟩
      rw [← hdone, ← List.append_assoc, List.replicate_append_replicate]
  | closingEnds => exact ⟨[], by simp, by simp⟩

/-! ## The start -/

section Start

variable {σ : PeriodicSystem α ε} {resolution : Duration}

theorem Startable.come' (h : Startable changed σ) {time : TimePoint}
    (htime : σ.phase = .scanning time ∨ ∃ action, σ.phase = .acting time action) : time ≤ σ.now := by
  rcases htime with hscanning | ⟨action, hacting⟩
  · have hoperates := h.operates
    rw [hscanning] at hoperates
    exact hoperates.elim
  · exact h.come time action hacting

/-- What the timer has computed when it has been started. -/
structure Started (changed : TimePoint → ε → ε) (emptyFunction : α) (i : TimerId) (resolution : Duration)
    (request : Start α) (σ : PeriodicSystem α ε) (s : TimerService α ε) (r : Recomputation α) : Prop where
  wellFormed : s.WellFormed
  walks : ∃ rest, s.Walks rest
  service : (σ.start changed emptyFunction i resolution request).service = s.perform changed (r.operation i)
  phase : (σ.start changed emptyFunction i resolution request).phase = σ.phase
  now : (σ.start changed emptyFunction i resolution request).now = σ.now
  progress : Progress emptyFunction (σ.now + resolution) request
    (σ.start changed emptyFunction i resolution request).members (timerAfter r)
    (σ.start changed emptyFunction i resolution request).invoked
  acts : (timerAfter r).action.isSome ↔ request.Acts
  next : (timerAfter r).action.isSome →
    (timerAfter r).nextTriggerTime = request.nextTime (σ.now + resolution) σ.now (σ.now + resolution)

theorem Startable.started (h : Startable changed σ) (resolution : Duration) (request : Start α) :
    ∃ s r, Started changed emptyFunction i resolution request σ s r := by
  have hwf := h.reaches.wellFormed
  rcases request with ⟨duration, action⟩ | ⟨howMany, duration, action⟩ | ⟨howMany, duration, action, closingAction⟩
  · have htimer : (σ.service.setNextTriggerTime changed i (σ.now + resolution) action).timers i =
        { action := some action, nextTriggerTime := σ.now + resolution } :=
      perform_timers changed i σ.service (.setNextTriggerTime (σ.now + resolution) action)
    have htime : (σ.service.setNextTriggerTime changed i (σ.now + resolution) action).triggerTime i =
        σ.now + resolution := congrArg Timer.nextTriggerTime htimer
    have hservice : (σ.start changed emptyFunction i resolution (.repeating duration action)).service =
        (σ.service.setNextTriggerTime changed i (σ.now + resolution) action).setNextTriggerTime changed i
          (TimerService.repeatingTriggerTime σ.now
            ((σ.service.setNextTriggerTime changed i (σ.now + resolution) action).triggerTime i) duration) action := rfl
    rw [htime] at hservice
    refine ⟨σ.service.setNextTriggerTime changed i (σ.now + resolution) action, .setNextTriggerTime
      (TimerService.repeatingTriggerTime σ.now (σ.now + resolution) duration) action, ?_⟩
    constructor
    · exact hwf.setNextTriggerTime changed i _ action
    · rcases h.reaches.walks with ⟨rest, hrest⟩
      exact ⟨rest, hrest.setNextTriggerTime changed i _ action⟩
    · exact hservice
    · rfl
    · rfl
    · exact .repeating (by simp [start, compute])
    · simp [timerAfter, Start.Acts]
    · exact fun _ => rfl
  · cases howMany with
    | zero =>
        refine ⟨σ.service, .cancel, hwf, h.reaches.walks, rfl, rfl, rfl, ?_, ?_, ?_⟩
        · exact .limitedEnds
        · simp [timerAfter, Start.Acts]
        · simp [timerAfter]
    | succ n =>
        have hn : ((n + 1 : Nat) : Int) ≠ 0 := by omega
        have hminus : ((n + 1 : Nat) : Int) - 1 = n := by omega
        have hcomputed : PeriodicTimer.computeNextTriggerTime emptyFunction σ.now (σ.service.triggerTime i) action
            (.limitedRepeating { triggerStart := σ.now + resolution, triggerPeriod := duration
                                 howMany := (n + 1 : Nat), action := action }) =
            (.setNextTriggerTime (limitedTriggerTime σ.now (σ.now + resolution) duration) action,
              .limitedRepeating { triggerStart := σ.now + resolution, triggerPeriod := duration, howMany := n
                                  action := action }) := by
          simp only [PeriodicTimer.computeNextTriggerTime, if_pos hn, hminus]
        refine ⟨σ.service, .setNextTriggerTime (limitedTriggerTime σ.now (σ.now + resolution) duration) action, hwf,
          h.reaches.walks, ?_, rfl, rfl, ?_, ?_, fun _ => rfl⟩
        · simp only [start, compute, hcomputed]
        · simp only [start, compute, hcomputed]
          exact @Progress.limitedRepeating _ _ _ _ 0 _ _ _ _ (by omega)
        · simp [timerAfter, Start.Acts]
  · have hn : (howMany : Int) ≥ 0 := Int.natCast_nonneg howMany
    have hcomputed : PeriodicTimer.computeNextTriggerTime emptyFunction σ.now (σ.service.triggerTime i) action
        (.withClosingAction { triggerStart := σ.now + resolution, triggerPeriod := duration, howMany := howMany
                              action := action, closingAction := closingAction }) =
        (.setNextTriggerTime (limitedTriggerTime σ.now (σ.now + resolution) duration) emptyFunction,
          .withClosingAction { triggerStart := σ.now + resolution, triggerPeriod := duration
                               howMany := (howMany : Int) - 1, action := action
                               closingAction := closingAction }) := by
      simp only [PeriodicTimer.computeNextTriggerTime, if_pos hn]
    refine ⟨σ.service, .setNextTriggerTime (limitedTriggerTime σ.now (σ.now + resolution) duration) emptyFunction,
      hwf, h.reaches.walks, ?_, rfl, rfl, ?_, ?_, fun _ => rfl⟩
    · simp only [start, compute, hcomputed]
    · simp only [start, compute, hcomputed]
      exact @Progress.withClosingAction _ _ _ _ 0 _ _ _ _ _ (by omega)
    · simp [timerAfter, Start.Acts]

/-- The first trigger time is one period behind the origin when the timer and the resolution agree. -/
theorem nextTime_first_iff (request : Start α) (hresolution : 0 ≤ resolution) (hperiod : 0 < request.period)
    (hacts : request.Acts) (s : TimePoint) :
    request.nextTime (s + resolution) s (s + resolution) = s + resolution + request.period ↔
      request.Conforms resolution := by
  rcases request with ⟨duration, action⟩ | ⟨howMany, duration, action⟩ | ⟨howMany, duration, action, closingAction⟩
  · have hmax : max s (s + resolution) = s + resolution := max_eq_right (by linarith)
    simp [Start.nextTime, TimerService.repeatingTriggerTime, Start.Conforms, Start.period, hmax]
  · calc limitedTriggerTime s (s + resolution) duration = s + resolution + duration
        ↔ resolution = 0 ∨ duration ≤ resolution ∧ resolution < 2 * duration :=
          limitedTriggerTime_first hresolution hperiod
      _ ↔ howMany = 0 ∨ resolution = 0 ∨ duration ≤ resolution ∧ resolution < 2 * duration :=
          (or_iff_right hacts).symm
  · exact limitedTriggerTime_first hresolution hperiod

theorem Started.armed_iff {request : Start α}
    (h : Started changed emptyFunction i resolution request σ s r) :
    (σ.start changed emptyFunction i resolution request).service.Armed i ↔ request.Acts := by
  unfold TimerService.Armed
  rw [h.service, perform_timers]
  exact h.acts

theorem Started.triggerTime {request : Start α}
    (h : Started changed emptyFunction i resolution request σ s r) (hacts : request.Acts) :
    (σ.start changed emptyFunction i resolution request).service.triggerTime i =
      request.nextTime (σ.now + resolution) σ.now (σ.now + resolution) := by
  unfold TimerService.triggerTime
  rw [h.service, perform_timers]
  exact h.next (h.acts.mpr hacts)

theorem Started.onSchedule {request : Start α}
    (h : Started changed emptyFunction i resolution request σ s r) (hstartable : Startable changed σ)
    (hresolution : 0 ≤ resolution) (hperiod : 0 < request.period) (hconforms : request.Conforms resolution) :
    OnSchedule emptyFunction i (σ.now + resolution) request (σ.start changed emptyFunction i resolution request) := by
  refine OnSchedule.of_perform h.wellFormed h.walks h.service ?_ h.progress ?_
  · rw [h.phase, h.now]
    exact fun time htime => hstartable.come' htime
  · intro hsome
    have hfirst := (nextTime_first_iff request hresolution hperiod (h.acts.mp hsome) σ.now).mpr hconforms
    rw [h.next hsome, hfirst]
    exact ⟨⟨1, by ring⟩, by linarith⟩

/-- **Periodic timers keep their phase exactly when the resolution of the service does not get in their way**:
the first trigger time is one period behind the moment at which the timer was to start, each later one is the
next multiple of the period that lies ahead, and the planned actions are invoked, each once. -/
theorem keepsPhase_iff (hstartable : Startable changed σ) (request : Start α) (hresolution : 0 ≤ resolution)
    (hperiod : 0 < request.period) :
    KeepsPhase changed emptyFunction i resolution request σ ↔ request.Conforms resolution := by
  obtain ⟨s, r, hstarted⟩ := hstartable.started (i := i) resolution request
  constructor
  · intro hkeeps
    by_cases hacts : request.Acts
    · have hfirst := hkeeps.first (hstarted.armed_iff.mpr hacts)
      rw [hstarted.triggerTime hacts] at hfirst
      exact (nextTime_first_iff request hresolution hperiod hacts σ.now).mp hfirst
    · -- a limited timer without any actions
      rcases request with _ | ⟨howMany, duration, action⟩ | _
      · exact trivial
      · exact Or.inl (not_not.mp hacts)
      · exact absurd trivial hacts
  · intro hconforms
    have hschedule := hstarted.onSchedule hstartable hresolution hperiod hconforms
    constructor
    · intro harmed
      have hacts := hstarted.armed_iff.mp harmed
      rw [hstarted.triggerTime hacts]
      exact (nextTime_first_iff request hresolution hperiod hacts σ.now).mpr hconforms
    · intro m hrun σ' hfires
      exact ((hschedule.run hperiod hrun).fires hperiod hfires).2
    · exact fun m hrun => (hschedule.run hperiod hrun).invokes

/-- The program has just started. -/
def idle (members : PeriodicTimer α) (e : ε) : PeriodicSystem α ε :=
  { service := { members := e }, phase := .outside, now := 0, members := members, invoked := [] }

theorem idle_startable (members : PeriodicTimer α) (e : ε) : Startable changed (idle members e) where
  reaches := .construction e
  operates := trivial
  come := fun _ _ h => by cases h

/-- Two actions, one each ten ticks, and a closing action. -/
theorem keepsPhase_two_and_closing :
    KeepsPhase (fun _ => id) 0 0 0 (.withClosingAction 2 10 1 2)
      (idle (.repeating 10) () : PeriodicSystem Nat Unit) :=
  (keepsPhase_iff (idle_startable (.repeating 10) ()) (.withClosingAction 2 10 1 2) le_rfl (by decide)).mpr
    (Or.inl rfl)

/-- On a service with a resolution of one tick the first of the actions comes a period too late. -/
theorem first_trigger_too_late :
    Startable (fun _ => id) (idle (.repeating 10) () : PeriodicSystem Nat Unit) ∧
      ¬ KeepsPhase (fun _ => id) 0 0 1 (.limitedRepeating 3 10 1)
        (idle (.repeating 10) () : PeriodicSystem Nat Unit) := by
  refine ⟨idle_startable (.repeating 10) (), fun h => ?_⟩
  have hfirst := h.first (by decide)
  exact absurd hfirst (by decide)

end Start

end PeriodicSystem

end EmbeddedInfra.Timers
