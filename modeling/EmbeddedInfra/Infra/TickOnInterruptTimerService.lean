import EmbeddedInfra.Infra.TimerServiceProgress

set_option autoImplicit false

/-! # The timer service that is driven by a tick interrupt

`TickOnInterruptTimerService` counts the ticks of a hardware timer in an interrupt. When the number
of ticks has come to `ticksNextNotification`, the interrupt schedules an event, and this event,
`ProcessTicks`, turns the ticks into time and lets `Progressed` fire the timers. Three members are
shared with the interrupt, and each access to one of them is atomic. The interrupt is one step; the
main code is cut at its accesses to the shared members, and an interrupt may come in between.
-/

namespace EmbeddedInfra.Timers.TickOnInterruptTimerService

/-! ## The service -/

/-- The members of the service. -/
structure Ticks where
  systemTime : TimePoint := 0
  resolution : Duration
  ticksNextNotification : UInt32 := 0
  ticksProgressed : UInt32 := 0
  notificationScheduled : Bool := false

/-- `std::numeric_limits<uint32_t>::max() / 2` -/
def maxTicks : UInt32 := 0x7fffffff

/-- `NextTriggerChanged`. The number of ticks is cast to 32 bits before it is limited. -/
def nextTriggerChanged (nextTrigger : TimePoint) (m : Ticks) : Ticks :=
  if nextTrigger ≠ TimePoint.max then
    let durationToNextNotification := max (nextTrigger - m.systemTime) 0
    { m with
      ticksNextNotification := min
        (UInt32.ofInt ((durationToNextNotification + m.resolution - 1).tdiv m.resolution)) maxTicks }
  else
    { m with ticksNextNotification := maxTicks }

def now (m : Ticks) : TimePoint := m.systemTime + m.ticksProgressed.toNat * m.resolution

/-! ## The service, the interrupt and the event dispatcher -/

/-- Where the main code is in `ProcessTicks`. -/
inductive ProcessTicks where
  | outside
  /-- `ticksProgressed` has been exchanged for zero -/
  | exchanged (ticks : UInt32)
  /-- `Progressed` is executing -/
  | progressing
  /-- `Progressed` has returned -/
  | progressed
  /-- `NextTriggerChanged` has returned -/
  | updated
  /-- `ticksProgressed` has been compared with `ticksNextNotification`; the interrupt does not change
  the latter, so that it does not matter which of the two is read first -/
  | compared (reschedule : Bool)
  /-- `notificationScheduled` has been assigned -/
  | assigned (reschedule : Bool)
  deriving DecidableEq

/-- `ProcessTicks` goes on when `Progressed` returns. -/
def ProcessTicks.after {α : Type} (main : ProcessTicks) : Event α → ProcessTicks
  | .progressedReturns => .progressed
  | _ => main

structure System (α : Type) where
  service : TimerService α Ticks
  phase : Phase α := .outside
  main : ProcessTicks := .outside
  /-- the number of events that the dispatcher has not yet begun to execute -/
  scheduled : Nat := 0
  /-- the sum of the resolutions in force at the ticks so far; the source has no such member -/
  elapsed : Duration := 0

inductive Action (α : Type) where
  /-- `SystemTickInterrupt` -/
  | tick
  | setResolution (resolution : Duration)
  /-- operations on timers, and the loop of `Progressed` -/
  | service (e : Event α)
  /-- the dispatcher executes the event -/
  | processTicks
  /-- `systemTime` is increased, and `Progressed` called -/
  | timeProgressed
  | nextTriggerChanged
  | compare
  | assign
  /-- the event is scheduled again if need be, and `ProcessTicks` returns -/
  | finish

namespace System

variable {α : Type} {s : TimerService α Ticks} {m : Ticks} {scheduled : Nat}
  {main : ProcessTicks} {σ : System α}

def members (σ : System α) : Ticks := σ.service.members

def setMembers (σ : System α) (m : Ticks) : System α :=
  { σ with service := { σ.service with members := m } }

/-- The main code that is not part of the service is running. -/
def Operates (σ : System α) : Prop :=
  σ.main = .outside ∨ σ.main = .progressing ∧ σ.phase.Operates

def systemTickInterrupt (σ : System α) : System α :=
  let m := { σ.members with ticksProgressed := σ.members.ticksProgressed + 1 }
  let σ := { σ with elapsed := σ.elapsed + m.resolution }
  if m.ticksNextNotification ≤ m.ticksProgressed then
    -- `notificationScheduled.exchange(true)`
    { σ.setMembers { m with notificationScheduled := true } with
      scheduled := if m.notificationScheduled then σ.scheduled else σ.scheduled + 1 }
  else
    σ.setMembers m

inductive Step : System α → Action α → System α → Prop where
  | tick {σ : System α} : Step σ .tick σ.systemTickInterrupt
  | setResolution {σ : System α} (resolution : Duration) (hop : σ.Operates) :
      Step σ (.setResolution resolution) (σ.setMembers (nextTriggerChanged σ.service.nextTrigger
        { σ.members with resolution := resolution }))
  | service {σ : System α} {e : Event α} {s : TimerService α Ticks} {p : Phase α}
      (hstep : TimerService.Step nextTriggerChanged σ.service σ.phase e s p)
      (hprogressed : ∀ time, e ≠ .progressed time)
      (hoperation : ∀ op, e = .operation op → σ.Operates) :
      Step σ (.service e)
        { σ with
          service := s
          phase := p
          main := σ.main.after e }
  | processTicks {σ : System α} (hmain : σ.main = .outside) (hscheduled : 0 < σ.scheduled) :
      Step σ .processTicks
        { σ.setMembers { σ.members with ticksProgressed := 0 } with
          main := .exchanged σ.members.ticksProgressed
          scheduled := σ.scheduled - 1 }
  | timeProgressed {σ : System α} {ticks : UInt32} {time : TimePoint}
      (hmain : σ.main = .exchanged ticks)
      (htime : time = σ.members.systemTime + ticks.toNat * σ.members.resolution) :
      Step σ .timeProgressed
        { σ with
          service := { σ.service with
            members := { σ.members with systemTime := time } }.beginProgressed
          phase := .scanning time
          main := .progressing }
  | nextTriggerChanged {σ : System α} (hmain : σ.main = .progressed) :
      Step σ .nextTriggerChanged
        { σ.setMembers (nextTriggerChanged σ.service.nextTrigger σ.members) with main := .updated }
  | compare {σ : System α} (hmain : σ.main = .updated) :
      Step σ .compare
        { σ with
          main := .compared (σ.members.ticksNextNotification ≤ σ.members.ticksProgressed) }
  | assign {σ : System α} {reschedule : Bool} (hmain : σ.main = .compared reschedule) :
      Step σ .assign
        { σ.setMembers { σ.members with notificationScheduled := reschedule } with
          main := .assigned reschedule }
  | finish {σ : System α} {reschedule : Bool} (hmain : σ.main = .assigned reschedule) :
      Step σ .finish
        { σ with
          main := .outside
          scheduled := if reschedule then σ.scheduled + 1 else σ.scheduled }

/-- The service after its construction. -/
def construct (resolution : Duration) : System α where
  service := { members := nextTriggerChanged TimePoint.max { resolution := resolution } }

inductive Reaches (P : System α → Action α → Prop) : System α → Prop where
  | construction (resolution : Duration) (h : 0 < resolution) : Reaches P (construct resolution)
  | step {σ σ' : System α} {a : Action α} (h : Reaches P σ) (hP : P σ a) (hstep : Step σ a σ') :
      Reaches P σ'

/-! ## What holds in every run -/

/-- The members after `NextTriggerChanged`: only `ticksNextNotification` is assigned. -/
structure Keeps (m m' : Ticks) : Prop where
  systemTime : m'.systemTime = m.systemTime
  resolution : m'.resolution = m.resolution
  ticksProgressed : m'.ticksProgressed = m.ticksProgressed
  notificationScheduled : m'.notificationScheduled = m.notificationScheduled

theorem nextTriggerChanged_keeps (nextTrigger : TimePoint) (m : Ticks) :
    Keeps m (nextTriggerChanged nextTrigger m) := by
  unfold TickOnInterruptTimerService.nextTriggerChanged
  split
  · exact ⟨rfl, rfl, rfl, rfl⟩
  · exact ⟨rfl, rfl, rfl, rfl⟩

theorem Keeps.of_notifies {s' : TimerService α Ticks}
    (h : TimerService.Notifies TickOnInterruptTimerService.nextTriggerChanged s s') :
    Keeps s.members s'.members := by
  rcases h with ⟨hmembers, -⟩ | hcalled
  · rw [hmembers]
    exact ⟨rfl, rfl, rfl, rfl⟩
  · rw [hcalled]
    exact nextTriggerChanged_keeps _ _

/-- The ticks that have been taken from `ticksProgressed` but not yet added to `systemTime`. -/
def taken : ProcessTicks → Nat
  | .exchanged ticks => ticks.toNat
  | _ => 0

/-- The flag `notificationScheduled` and the events of the dispatcher. From the beginning of
`ProcessTicks` to the assignment the flag is set without an event. -/
def Consistent (m : Ticks) (scheduled : Nat) : ProcessTicks → Prop
  | .outside => scheduled = m.notificationScheduled.toNat
  | .assigned false => scheduled = m.notificationScheduled.toNat ∧
      (m.ticksNextNotification ≤ m.ticksProgressed → m.notificationScheduled = true)
  | .compared false => m.notificationScheduled = true ∧ scheduled = 0 ∧
      m.ticksProgressed < m.ticksNextNotification
  | _ => m.notificationScheduled = true ∧ scheduled = 0

structure Sound (σ : System α) : Prop where
  wellFormed : σ.service.WellFormed
  resolution_pos : 0 < σ.members.resolution
  accounts : now σ.members + taken σ.main * σ.members.resolution = σ.elapsed
  consistent : Consistent σ.members σ.scheduled σ.main
  outside : σ.main ≠ .progressing → σ.phase = .outside
  scanning : ∀ time, σ.phase = .scanning time → time = σ.members.systemTime
  acting : ∀ time action, σ.phase = .acting time action → time = σ.members.systemTime

/-- The steps that keep the account. The resolution is positive, and is changed when no ticks are
waiting to be processed; the count of ticks does not overflow; and no tick brings it to
`ticksNextNotification` between the comparison in `ProcessTicks` and the assignment of its result. -/
def Orderly (σ : System α) : Action α → Prop
  | .tick => σ.members.ticksProgressed.toNat + 1 < 2 ^ 32 ∧
      (σ.main = .compared false →
        σ.members.ticksProgressed + 1 < σ.members.ticksNextNotification)
  | .setResolution resolution => 0 < resolution ∧
      (σ.members.ticksProgressed = 0 ∨ resolution = σ.members.resolution)
  | _ => True

theorem Sound.construction {resolution : Duration} (h : 0 < resolution) :
    Sound (construct resolution : System α) := by
  refine ⟨⟨fun i => ?_, List.nodup_nil⟩, h, ?_, rfl, fun _ => rfl, ?_, ?_⟩
  · simp [construct, TimerService.Armed]
  · simp [construct, members, now, taken, TickOnInterruptTimerService.nextTriggerChanged]
  · intro time hc
    cases hc
  · intro time action hc
    cases hc

/-- The interrupt finds the flag set, or sets it and schedules the event. -/
theorem Consistent.notified
    (h : Consistent m scheduled main) (hmain : main ≠ .compared false) (ticks : UInt32) :
    Consistent { m with ticksProgressed := ticks, notificationScheduled := true }
      (if m.notificationScheduled then scheduled else scheduled + 1) main := by
  have hset : m.notificationScheduled = true ∧ scheduled = 0 →
      true = true ∧ (if m.notificationScheduled then scheduled else scheduled + 1) = 0 := by
    rintro ⟨hflag, hscheduled⟩
    rw [if_pos hflag]
    exact ⟨rfl, hscheduled⟩
  have hcount : scheduled = m.notificationScheduled.toNat →
      (if m.notificationScheduled then scheduled else scheduled + 1) = 1 := by
    intro hscheduled
    cases hflag : m.notificationScheduled with
    | true => simp [hscheduled, hflag]
    | false => simp [hscheduled, hflag]
  cases main with
  | outside => exact hcount h
  | exchanged ticks => exact hset h
  | progressing => exact hset h
  | progressed => exact hset h
  | updated => exact hset h
  | compared reschedule =>
      cases reschedule with
      | true => exact hset h
      | false => exact absurd rfl hmain
  | assigned reschedule =>
      cases reschedule with
      | true => exact hset h
      | false => exact ⟨hcount h.1, fun _ => rfl⟩

/-- The interrupt does not come to the number of ticks for a notification. -/
theorem Consistent.counted
    (h : Consistent m scheduled main) {ticks : UInt32} (hticks : ticks < m.ticksNextNotification) :
    Consistent { m with ticksProgressed := ticks } scheduled main := by
  cases main with
  | outside => exact h
  | exchanged ticks => exact h
  | progressing => exact h
  | progressed => exact h
  | updated => exact h
  | compared reschedule =>
      cases reschedule with
      | true => exact h
      | false => exact ⟨h.1, h.2.1, hticks⟩
  | assigned reschedule =>
      cases reschedule with
      | true => exact h
      | false => exact ⟨h.1, fun hc => absurd hc (UInt32.not_le.mpr hticks)⟩

theorem Sound.tick (h : Sound σ) (ho : Orderly σ .tick) : Sound σ.systemTickInterrupt := by
  obtain ⟨hfits, hwindow⟩ := ho
  have hticks : (σ.members.ticksProgressed + 1).toNat = σ.members.ticksProgressed.toNat + 1 := by
    rw [UInt32.toNat_add]
    exact Nat.mod_eq_of_lt hfits
  have haccounts : ∀ flag, now { σ.members with
        ticksProgressed := σ.members.ticksProgressed + 1, notificationScheduled := flag } +
      taken σ.main * σ.members.resolution = σ.elapsed + σ.members.resolution := by
    intro flag
    rw [← h.accounts]
    unfold now
    rw [hticks]
    push_cast
    ring
  unfold systemTickInterrupt
  dsimp only
  split
  · rename_i hle
    have hmain : σ.main ≠ .compared false := fun hc => absurd hle (UInt32.not_le.mpr (hwindow hc))
    exact ⟨h.wellFormed.congr rfl rfl, h.resolution_pos, haccounts true,
      h.consistent.notified hmain _, h.outside, h.scanning, h.acting⟩
  · rename_i hlt
    exact ⟨h.wellFormed.congr rfl rfl, h.resolution_pos, haccounts σ.members.notificationScheduled,
      h.consistent.counted (UInt32.not_le.mp hlt), h.outside, h.scanning, h.acting⟩

/-- Before the comparison in `ProcessTicks` only the flag is of importance. -/
theorem Consistent.of_flag {m' : Ticks} (h : Consistent m scheduled main)
    (hflag : m'.notificationScheduled = m.notificationScheduled) (hcompared : main ≠ .compared false) (hassigned : main ≠ .assigned false) :
    Consistent m' scheduled main := by
  cases main with
  | outside => exact h.trans (congrArg Bool.toNat hflag.symm)
  | exchanged ticks => exact ⟨hflag.trans h.1, h.2⟩
  | progressing => exact ⟨hflag.trans h.1, h.2⟩
  | progressed => exact ⟨hflag.trans h.1, h.2⟩
  | updated => exact ⟨hflag.trans h.1, h.2⟩
  | compared reschedule =>
      cases reschedule with
      | true => exact ⟨hflag.trans h.1, h.2⟩
      | false => exact absurd rfl hcompared
  | assigned reschedule =>
      cases reschedule with
      | true => exact ⟨hflag.trans h.1, h.2⟩
      | false => exact absurd rfl hassigned

/-- Members that differ in `ticksNextNotification` alone. -/
theorem Sound.of_keeps {σ' : System α} (h : Sound σ) (hwf : σ'.service.WellFormed)
    (hkeeps : Keeps σ.members σ'.members) (htaken : taken σ'.main = taken σ.main)
    (helapsed : σ'.elapsed = σ.elapsed) (hconsistent : Consistent σ'.members σ'.scheduled σ'.main)
    (houtside : σ'.main ≠ .progressing → σ'.phase = .outside)
    (hscanning : ∀ time, σ'.phase = .scanning time → time = σ.members.systemTime)
    (hacting : ∀ time action, σ'.phase = .acting time action → time = σ.members.systemTime) :
    Sound σ' := by
  refine ⟨hwf, ?_, ?_, hconsistent, houtside, ?_, ?_⟩
  · rw [hkeeps.resolution]
    exact h.resolution_pos
  · rw [helapsed, ← h.accounts, htaken, now, hkeeps.systemTime, hkeeps.ticksProgressed,
      hkeeps.resolution]
    rfl
  · rw [hkeeps.systemTime]
    exact hscanning
  · rw [hkeeps.systemTime]
    exact hacting

/-- Where the main code is when the service takes a step: a timer is operated on, or `Progressed` is
executing. -/
theorem Sound.main_service {e : Event α} {p : Phase α} (h : Sound σ)
    (hstep : TimerService.Step TickOnInterruptTimerService.nextTriggerChanged σ.service σ.phase e s p)
    (hprogressed : ∀ time, e ≠ .progressed time)
    (hoperation : ∀ op, e = .operation op → σ.Operates) :
    σ.main = .outside ∨ σ.main = .progressing := by
  by_cases hmain : σ.main = .progressing
  · exact Or.inr hmain
  · have hphase := h.outside hmain
    rw [hphase] at hstep
    cases hstep with
    | operation op hop hp =>
        rcases hoperation op rfl with hc | ⟨hc, -⟩
        · exact Or.inl hc
        · exact Or.inr hc
    | progressed time => exact absurd rfl (hprogressed time)

theorem Sound.service {e : Event α} {p : Phase α} (h : Sound σ)
    (hstep : TimerService.Step TickOnInterruptTimerService.nextTriggerChanged σ.service σ.phase e s p)
    (hprogressed : ∀ time, e ≠ .progressed time)
    (hoperation : ∀ op, e = .operation op → σ.Operates) :
    Sound
      { σ with
        service := s
        phase := p
        main := σ.main.after e } := by
  have hkeeps : Keeps σ.members s.members := .of_notifies (hstep.notifies _ h.wellFormed)
  have hwf := h.wellFormed.step _ hstep
  have hmain := h.main_service hstep hprogressed hoperation
  have hconsistent : Consistent s.members σ.scheduled σ.main := by
    refine h.consistent.of_flag hkeeps.notificationScheduled ?_ ?_
    · rcases hmain with hc | hc <;> simp [hc]
    · rcases hmain with hc | hc <;> simp [hc]
  have houtside := h.outside
  have hscanning := h.scanning
  have hacting := h.acting
  generalize hphase : σ.phase = q at hstep houtside hscanning hacting
  cases hstep with
  | operation op hop hp =>
      exact h.of_keeps hwf hkeeps rfl rfl hconsistent houtside hscanning hacting
  | progressed time => exact absurd rfl (hprogressed time)
  | skip hi hlate => exact h.of_keeps hwf hkeeps rfl rfl hconsistent houtside hscanning hacting
  | fire hi hdue r hr action =>
      refine h.of_keeps hwf hkeeps rfl rfl hconsistent (fun hc => ?_) (fun t ht => ?_)
        (fun t action ht => ?_)
      · exact absurd (houtside hc) (by simp)
      · cases ht
      · cases ht
        exact hscanning _ rfl
  | actionReturns =>
      refine h.of_keeps hwf hkeeps rfl rfl hconsistent (fun hc => ?_) (fun t ht => ?_)
        (fun t action ht => ?_)
      · exact absurd (houtside hc) (by simp)
      · cases ht
        exact hacting _ _ rfl
      · cases ht
  | progressedReturns hi =>
      have hprogressing : σ.main = .progressing := by
        by_contra hc
        exact absurd (houtside hc) (by simp)
      rw [hprogressing] at hconsistent
      refine h.of_keeps hwf hkeeps ?_ rfl hconsistent (fun _ => rfl) (fun t ht => ?_)
        (fun t action ht => ?_)
      · rw [hprogressing]
        rfl
      · cases ht
      · cases ht

theorem Sound.step {σ' : System α} {a : Action α} (h : Sound σ) (ho : Orderly σ a)
    (hstep : Step σ a σ') : Sound σ' := by
  have hconsistent := h.consistent
  have haccounts := h.accounts
  cases hstep with
  | tick => exact h.tick ho
  | setResolution resolution hop =>
      obtain ⟨hpos, hticks⟩ := ho
      have hkeeps := nextTriggerChanged_keeps σ.service.nextTrigger
        { σ.members with resolution := resolution }
      have hmain : σ.main = .outside ∨ σ.main = .progressing := hop.imp id And.left
      refine ⟨h.wellFormed.congr rfl rfl, ?_, ?_, ?_, h.outside, ?_, ?_⟩
      · exact hpos.trans_eq hkeeps.resolution.symm
      · have hnow : now (nextTriggerChanged σ.service.nextTrigger
            { σ.members with resolution := resolution }) = now σ.members := by
          rw [now, hkeeps.systemTime, hkeeps.resolution, hkeeps.ticksProgressed]
          rcases hticks with hzero | hsame
          · simp [now, hzero]
          · simp [now, hsame]
        have htaken : taken σ.main = 0 := by
          rcases hmain with hc | hc <;> simp [hc, taken]
        show now (nextTriggerChanged σ.service.nextTrigger
          { σ.members with resolution := resolution }) + (taken σ.main : Int) * _ = σ.elapsed
        rw [hnow, ← haccounts, htaken]
        simp
      · refine hconsistent.of_flag hkeeps.notificationScheduled ?_ ?_
        · rcases hmain with hc | hc <;> simp [hc]
        · rcases hmain with hc | hc <;> simp [hc]
      · intro t ht
        exact (h.scanning t ht).trans hkeeps.systemTime.symm
      · intro t action ht
        exact (h.acting t action ht).trans hkeeps.systemTime.symm
  | service hstep hprogressed hoperation => exact h.service hstep hprogressed hoperation
  | processTicks hmain hscheduled =>
      rw [hmain] at hconsistent haccounts
      refine ⟨h.wellFormed.congr rfl rfl, h.resolution_pos, ?_, ?_,
        fun _ => h.outside (by simp [hmain]), h.scanning, h.acting⟩
      · show now { σ.members with ticksProgressed := 0 } +
          (σ.members.ticksProgressed.toNat : Int) * σ.members.resolution = σ.elapsed
        rw [← haccounts]
        simp [now, taken]
      · show σ.members.notificationScheduled = true ∧ σ.scheduled - 1 = 0
        cases hflag : σ.members.notificationScheduled with
        | true => simp_all [Consistent]
        | false => simp_all [Consistent]
  | timeProgressed hmain htime =>
      rename_i ticks time
      rw [hmain] at hconsistent haccounts
      refine ⟨h.wellFormed.congr rfl rfl, h.resolution_pos, ?_, hconsistent, fun hc => absurd rfl hc,
        fun t ht => ?_, fun t action ht => ?_⟩
      · show now { σ.members with systemTime := time } + ((0 : Nat) : Int) * σ.members.resolution =
          σ.elapsed
        rw [← haccounts, htime]
        simp only [now, taken]
        ring
      · cases ht
        rfl
      · cases ht
  | nextTriggerChanged hmain =>
      have hkeeps := nextTriggerChanged_keeps σ.service.nextTrigger σ.members
      rw [hmain] at hconsistent
      refine h.of_keeps (h.wellFormed.congr rfl rfl) hkeeps ?_ rfl ?_
        (fun _ => h.outside (by simp [hmain])) h.scanning h.acting
      · rw [hmain]
        rfl
      · exact ⟨hkeeps.notificationScheduled.trans hconsistent.1, hconsistent.2⟩
  | compare hmain =>
      rw [hmain] at hconsistent haccounts
      refine { h with accounts := haccounts, consistent := ?_, outside := fun _ => h.outside (by simp [hmain]) }
      show Consistent σ.members σ.scheduled (.compared (decide _))
      by_cases hle : σ.members.ticksNextNotification ≤ σ.members.ticksProgressed
      · rw [decide_eq_true hle]
        exact hconsistent
      · rw [decide_eq_false hle]
        exact ⟨hconsistent.1, hconsistent.2, UInt32.not_le.mp hle⟩
  | assign hmain =>
      rename_i reschedule
      rw [hmain] at hconsistent haccounts
      refine ⟨h.wellFormed.congr rfl rfl, h.resolution_pos, haccounts, ?_,
        fun _ => h.outside (by simp [hmain]), h.scanning, h.acting⟩
      cases reschedule with
      | true => exact ⟨rfl, hconsistent.2⟩
      | false => exact ⟨hconsistent.2.1, fun hc => absurd hc (UInt32.not_le.mpr hconsistent.2.2)⟩
  | finish hmain =>
      rename_i reschedule
      rw [hmain] at hconsistent haccounts
      refine { h with accounts := haccounts, consistent := ?_, outside := fun _ => h.outside (by simp [hmain]) }
      cases reschedule with
      | true =>
          show σ.scheduled + 1 = σ.members.notificationScheduled.toNat
          rw [hconsistent.1, hconsistent.2]
          rfl
      | false => exact hconsistent.1

theorem Reaches.sound (h : Reaches Orderly σ) : Sound σ := by
  induction h with
  | construction resolution hpos => exact Sound.construction hpos
  | step _ hP hstep ih => exact ih.step hP hstep

/-! ## The ticks are accounted for -/

/-- An event has been scheduled and `ProcessTicks` has not yet returned from executing it. -/
def Outstanding (σ : System α) : Prop := 0 < σ.scheduled ∨ σ.main ≠ .outside

instance (σ : System α) : Decidable σ.Outstanding :=
  inferInstanceAs (Decidable (_ ∨ _))

/-- The ticks so far have come to the number at which the main code is to be notified. -/
def Due (σ : System α) : Prop := σ.members.ticksNextNotification ≤ σ.members.ticksProgressed

instance (σ : System α) : Decidable σ.Due := inferInstanceAs (Decidable (_ ≤ _))

theorem Sound.outstanding (h : Sound σ)
    (hflag : σ.members.notificationScheduled = true) : Outstanding σ := by
  by_cases hmain : σ.main = .outside
  · have hconsistent := h.consistent
    rw [hmain] at hconsistent
    refine Or.inl ?_
    rw [hconsistent, hflag]
    decide
  · exact Or.inr hmain

theorem systemTickInterrupt_flag (h : σ.systemTickInterrupt.Due) :
    σ.systemTickInterrupt.members.notificationScheduled = true := by
  unfold Due systemTickInterrupt at *
  dsimp only at h ⊢
  split at h
  · rename_i hle
    rw [if_pos hle]
    rfl
  · rename_i hlt
    exact absurd h hlt

theorem Sound.scheduled_le (h : Sound σ) : σ.scheduled ≤ 1 := by
  have hconsistent := h.consistent
  have htoNat := Bool.toNat_le σ.members.notificationScheduled
  generalize σ.main = main at hconsistent
  cases main with
  | outside => exact hconsistent.trans_le htoNat
  | exchanged ticks => simp [hconsistent.2]
  | progressing => simp [hconsistent.2]
  | progressed => simp [hconsistent.2]
  | updated => simp [hconsistent.2]
  | compared reschedule =>
      cases reschedule with
      | true => simp [hconsistent.2]
      | false => simp [hconsistent.2.1]
  | assigned reschedule =>
      cases reschedule with
      | true => simp [hconsistent.2]
      | false => exact hconsistent.1.trans_le htoNat

/-- `Now()` is the time of the ticks, at most one event is scheduled, a timer fires no earlier than
its time, and after a tick and when `ProcessTicks` has returned, an event is outstanding if the main
code is to be notified. -/
structure AccountsForTicks (σ : System α) : Prop where
  now_eq : (∀ ticks, σ.main ≠ .exchanged ticks) → now σ.members = 0 + σ.elapsed
  scheduled_le : σ.scheduled ≤ 1
  fires_on_time : ∀ i r action σ', Step σ (.service (.fire i r action)) σ' →
    σ.service.triggerTime i ≤ now σ.members
  notified : ∀ a σ', a = .tick ∨ a = .finish → Orderly σ a → Step σ a σ' → σ'.Due → σ'.Outstanding

theorem Sound.accountsForTicks (h : Sound σ) : AccountsForTicks σ := by
  refine ⟨fun hmain => ?_, h.scheduled_le, ?_, ?_⟩
  · have htaken : taken σ.main = 0 := by
      unfold taken
      split
      · rename_i ticks hc
        exact absurd hc (hmain ticks)
      · rfl
    rw [← h.accounts, htaken]
    simp
  · intro i r action σ' hstep
    cases hstep with
    | service hstep hprogressed hoperation =>
        have hscanning := h.scanning
        generalize σ.phase = q at hstep hscanning
        cases hstep with
        | fire hi hdue r hr action =>
            rename_i time
            have htime := hscanning time rfl
            have hticks : 0 ≤ (σ.members.ticksProgressed.toNat : Int) * σ.members.resolution :=
              mul_nonneg (Int.natCast_nonneg _) h.resolution_pos.le
            unfold now
            linarith
  · intro a σ' ha ho hstep hdue
    rcases ha with rfl | rfl
    · have hsound := h.step ho hstep
      cases hstep with
      | tick => exact hsound.outstanding (systemTickInterrupt_flag hdue)
    · cases hstep with
      | finish hmain =>
          rename_i reschedule
          have hconsistent := h.consistent
          rw [hmain] at hconsistent
          refine Or.inl ?_
          cases reschedule with
          | true => exact Nat.succ_pos _
          | false =>
              show 0 < σ.scheduled
              rw [hconsistent.1, hconsistent.2 hdue]
              decide

/-- **Every tick is accounted for**, in every interleaving of ticks with the main code in which the
resolution is changed only when no ticks are waiting, the count of ticks does not overflow, and no
tick reaches the number for a notification while `ProcessTicks` is between its comparison and the
assignment of the result. -/
theorem ticks_accounted_for {σ : System α} (h : Reaches Orderly σ) : AccountsForTicks σ :=
  h.sound.accountsForTicks

/-- A timer is started for the time of the first tick, and the tick comes. -/
theorem ticks_accounted_for_first_tick : ∃ σ : System Unit,
    Reaches Orderly σ ∧ σ.scheduled = 1 ∧ σ.elapsed = 1 ∧ AccountsForTicks σ := by
  obtain ⟨σ, h, hscheduled, helapsed⟩ : ∃ σ : System Unit, Reaches Orderly σ ∧ σ.scheduled = 1 ∧ σ.elapsed = 1 := by
    refine ⟨_, .step (.step (.construction 1 (by decide)) ?_
      (.service (.operation (.setNextTriggerTime 0 1 ()) (by decide) trivial) (by simp)
        (fun _ _ => Or.inl rfl))) ?_ .tick, by decide, by decide⟩
    · trivial
    · exact ⟨by decide, fun hc => absurd hc (by decide)⟩
  exact ⟨σ, h, hscheduled, helapsed, ticks_accounted_for h⟩

/-- A repeating timer: the second tick comes in `ProcessTicks` after the comparison and before the
assignment, and is not noticed. Or a tick comes, and the resolution is changed before it is
processed: it counts with the new resolution. -/
theorem ticks_not_accounted_for :
    (∃ σ σ' : System Unit, Reaches (fun _ _ => True) σ ∧ Step σ .finish σ' ∧ σ'.Due ∧
      ¬ σ'.Outstanding) ∧
    (∃ σ : System Unit, Reaches (fun _ _ => True) σ ∧ σ.main = .outside ∧
      now σ.members ≠ 0 + σ.elapsed) := by
  constructor
  · refine ⟨_, _, .step (.step (.step (.step (.step (.step (.step (.step (.step (.step (.step
      (.construction 1 (by decide))
      trivial (.service (.operation (.setNextTriggerTime 0 1 ()) (by decide) trivial) (by simp)
        (fun _ _ => Or.inl rfl)))
      trivial .tick)
      trivial (.processTicks rfl (by decide)))
      trivial (.timeProgressed rfl rfl))
      trivial (.service (.fire rfl (by decide) (.setNextTriggerTime 2 ()) (by decide) ()) (by simp)
        (by simp)))
      trivial (.service .actionReturns (by simp) (by simp)))
      trivial (.service (.progressedReturns rfl) (by simp) (by simp)))
      trivial (.nextTriggerChanged rfl))
      trivial (.compare rfl))
      trivial .tick)
      trivial (.assign rfl), .finish rfl, ?_, ?_⟩
    · decide
    · decide
  · refine ⟨_, .step (.step (.construction 1 (by decide)) trivial .tick)
      trivial (.setResolution 2 (Or.inl rfl)), rfl, ?_⟩
    decide

end System

end EmbeddedInfra.Timers.TickOnInterruptTimerService
