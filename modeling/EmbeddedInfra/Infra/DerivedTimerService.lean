import EmbeddedInfra.Infra.TimerServiceProgress

set_option autoImplicit false

/-! # Derived timer services

`DerivedTimerService` and `ScalableDerivedTimerService` are timer services whose time is computed
from the time of a base timer service: shifted, and for the latter also scaled. Each time that
`NextTriggerChanged` is called, a single shot timer of the base service is set to the moment at
which the derived service has to fire, and its action is `Progressed` of the derived service.

They differ in the conversion of times, which is the parameter `Conversion`. Two calls of
`Progressed` are nested into each other: that of the base service and, in the action of the internal
timer, that of the derived one.
-/

namespace EmbeddedInfra.Timers

open TimerService

/-! ## The services -/

/-- The conversion of times of a derived service: `C` are its settings, `Q` the requests to change
them. A request is carried out at a time of the base service. -/
structure Conversion (Q C : Type) where
  initial : C
  toBase : C → TimePoint → TimePoint
  fromBase : C → TimePoint → TimePoint
  adjust : Q → TimePoint → C → C

namespace DerivedTimerService

/-- The times of a `DerivedTimerService`, whose setting is `shift`; a request is a `Shift`. -/
def conversion : Conversion Duration Duration where
  initial := 0
  toBase shift time := time - shift
  fromBase shift time := time + shift
  adjust shift _ _ := shift

end DerivedTimerService

namespace ScalableDerivedTimerService

structure Settings where
  shift : Duration := 0
  factor : UInt32 := 1
  startPointForFactor : TimePoint := 0

inductive Request where
  | shift (shift : Duration)
  | scale (factor : UInt32)

def scaleTime (c : Settings) (time : TimePoint) : TimePoint :=
  c.startPointForFactor + (time - c.startPointForFactor + c.shift) * c.factor.toNat

/-- The division of the source is towards zero. -/
def unscaleTime (c : Settings) (time : TimePoint) : TimePoint :=
  (time - c.startPointForFactor).tdiv c.factor.toNat - c.shift + c.startPointForFactor

/-- `Scale`, where `baseNow` is the time of the base service; `Now()` is evaluated once before and
once after the assignments to `startPointForFactor` and `factor`. -/
def scale (factor : UInt32) (baseNow : TimePoint) (c : Settings) : Settings :=
  let c' := { c with startPointForFactor := scaleTime c baseNow, factor := factor }
  { c' with shift := c'.shift + (c'.startPointForFactor - scaleTime c' baseNow) }

def adjust : Request → TimePoint → Settings → Settings
  | .shift shift, _, c => { c with shift := shift }
  | .scale factor, baseNow, c => scale factor baseNow c

def conversion : Conversion Request Settings where
  initial := {}
  toBase := unscaleTime
  fromBase := scaleTime
  adjust := adjust

end ScalableDerivedTimerService

/-- The actions of the timers of the base service: that of the internal timer, and others. -/
inductive BaseAction (β : Type) where
  | other (action : β)
  | derivedProgressed

/-- The virtual functions of the base service, on its members `ε`. -/
structure BaseService (ε : Type) where
  nextTriggerChanged : TimePoint → ε → ε
  now : ε → TimePoint
  resolution : ε → Duration

/-- The members of a derived service, with the service that it refers to. -/
structure Derived (β ε C : Type) where
  baseTimerService : TimerService (BaseAction β) ε
  timer : TimerId
  nextTrigger : TimePoint := 0
  settings : C

namespace Derived

variable {β ε Q C : Type} (B : BaseService ε) (K : Conversion Q C)

/-- `TimerSingleShot::Start` of the internal timer. -/
def startTimer (m : Derived β ε C) (time : TimePoint) : Derived β ε C :=
  { m with
    baseTimerService := m.baseTimerService.setNextTriggerTime B.nextTriggerChanged m.timer
      (time + B.resolution m.baseTimerService.members) .derivedProgressed }

/-- `Cancel` of the internal timer. -/
def cancelTimer (m : Derived β ε C) : Derived β ε C :=
  { m with baseTimerService := m.baseTimerService.cancel B.nextTriggerChanged m.timer }

/-- `NextTriggerChanged` of a derived service. -/
def nextTriggerChanged (nextTrigger : TimePoint) (m : Derived β ε C) : Derived β ε C :=
  let m := { m with nextTrigger := K.toBase m.settings nextTrigger }
  if nextTrigger ≠ TimePoint.max then m.startTimer B m.nextTrigger else m.cancelTimer B

/-- The internal timer is armed. -/
def TimerArmed (m : Derived β ε C) : Prop := m.baseTimerService.Armed m.timer

instance (m : Derived β ε C) : Decidable m.TimerArmed :=
  inferInstanceAs (Decidable (m.baseTimerService.Armed m.timer))

end Derived

open Derived

/-! ## The two services together -/

/-- A derived service with its base service, and where the calls of `Progressed` of the two are. -/
structure System (α β ε C : Type) where
  derived : TimerService α (Derived β ε C)
  derivedPhase : Phase α
  basePhase : Phase (BaseAction β)
  /-- the internal timer has fired, but no timer of the derived service since; the source has no
  such member -/
  owed : Bool := false

/-- An event of the base service that is not about the timer `i`. -/
def Event.Spares {β : Type} (i : TimerId) : Event (BaseAction β) → Prop
  | .operation op => op.timer ≠ i
  | .fire j _ action => j ≠ i ∧ action ≠ .derivedProgressed
  | _ => True

/-- A timer of the derived service that fires settles what the internal timer owes. -/
def Event.owed {α : Type} (owed : Bool) : Event α → Bool
  | .fire _ _ _ => false
  | _ => owed

/-- The steps of the system. -/
inductive SystemEvent (α β Q ε : Type) where
  | derived (e : Event α)
  | adjust (q : Q)
  | base (e : Event (BaseAction β))
  | baseTimerFires
  /-- time passes for the base service -/
  | baseMembers (members : ε)

theorem Recomputation.operation_timer {α : Type} (r : Recomputation α) (i : TimerId) :
    (r.operation i).timer = i := by
  cases r with
  | cancel => rfl
  | setNextTriggerTime time action => rfl

namespace System

variable {α β ε Q C : Type} (B : BaseService ε) (K : Conversion Q C)
  {d d' : TimerService α (Derived β ε C)} {time : TimePoint} {p : Phase α} {i : TimerId}
  {owed : Bool} {σ : System α β ε C} {b : TimerService (BaseAction β) ε}

/-- The base service, which is known to the derived service. -/
def base (σ : System α β ε C) : TimerService (BaseAction β) ε := σ.derived.members.baseTimerService

def setBase (σ : System α β ε C) (b : TimerService (BaseAction β) ε) : System α β ε C :=
  { σ with
    derived := { σ.derived with
      members := { σ.derived.members with baseTimerService := b } } }

/-- `Shift` or `Scale` of the derived service. -/
def adjust (σ : System α β ε C) (q : Q) : System α β ε C :=
  let m := σ.derived.members
  let d := { σ.derived with
    members := { m with
      settings := K.adjust q (B.now m.baseTimerService.members) m.settings } }
  { σ with derived := d.nextTriggerChanged (nextTriggerChanged B K) }

/-- The internal timer fires: it is cancelled, and its action begins with `Progressed` of the derived
service. -/
def fireBaseTimer (σ : System α β ε C) : System α β ε C :=
  let m := σ.derived.members
  let σ := σ.setBase ((m.baseTimerService.passTimer m.timer).cancel B.nextTriggerChanged m.timer)
  { σ with derived := σ.derived.beginProgressed }

/-- The code of the program is running: outside of both services, or in an action of one of them. -/
def Operates (σ : System α β ε C) : Prop := σ.derivedPhase.Operates ∧ σ.basePhase.Operates

inductive Step : System α β ε C → SystemEvent α β Q ε → System α β ε C → Prop where
  | derived {σ : System α β ε C} {e : Event α} {d : TimerService α (Derived β ε C)} {p : Phase α}
      (hstep : TimerService.Step (nextTriggerChanged B K) σ.derived σ.derivedPhase e d p)
      -- `Progressed` of the derived service is only called by the internal timer
      (hprogressed : ∀ time, e ≠ .progressed time)
      (hoperation : ∀ op, e = .operation op → σ.Operates) :
      Step σ (.derived e)
        { σ with
          derived := d
          derivedPhase := p
          owed := e.owed σ.owed }
  | adjust {σ : System α β ε C} (q : Q) (hop : σ.Operates) : Step σ (.adjust q) (σ.adjust B K q)
  | base {σ : System α β ε C} {e : Event (BaseAction β)} {b : TimerService (BaseAction β) ε}
      {p : Phase (BaseAction β)}
      (hstep : TimerService.Step B.nextTriggerChanged σ.base σ.basePhase e b p)
      (hspares : e.Spares σ.derived.members.timer) (hoperation : ∀ op, e = .operation op → σ.Operates)
      -- an action of the base service returns when the call of the derived service has returned
      (hreturns : e = .actionReturns → σ.derivedPhase = .outside) :
      Step σ (.base e) { σ.setBase b with basePhase := p }
  | baseTimerFires {σ : System α β ε C} {time : TimePoint} (hphase : σ.basePhase = .scanning time)
      (hi : σ.base.timerIterator = some σ.derived.members.timer)
      (hdue : σ.base.triggerTime σ.derived.members.timer ≤ time) :
      Step σ .baseTimerFires
        { σ.fireBaseTimer B with
          basePhase := .acting time .derivedProgressed
          derivedPhase := .scanning
            (K.fromBase σ.derived.members.settings σ.derived.members.nextTrigger)
          owed := true }
  | baseMembers {σ : System α β ε C} (members : ε) :
      Step σ (.baseMembers members) (σ.setBase { σ.base with members := members })

/-- The states that the system comes to from the construction of the derived service, when every
step meets `P`. The base service is in use already. -/
inductive Reaches (P : System α β ε C → SystemEvent α β Q ε → Prop) : System α β ε C → Prop where
  | construction (b : TimerService (BaseAction β) ε) (hwf : b.WellFormed)
      (hiterator : b.timerIterator = none) (timer : TimerId) (hnew : ¬ b.Armed timer) :
      Reaches P
        { derived := { members := { baseTimerService := b, timer := timer, settings := K.initial } }
          derivedPhase := .outside
          basePhase := .outside }
  | step {σ σ' : System α β ε C} {e : SystemEvent α β Q ε} (h : Reaches P σ) (hP : P σ e)
      (hstep : Step B K σ e σ') : Reaches P σ'

/-! ## The internal timer -/

/-- The internal timer is set for `NextTrigger()`. -/
def Synced (d : TimerService α (Derived β ε C)) : Prop :=
  (d.nextTrigger ≠ TimePoint.max → d.members.TimerArmed ∧
    d.members.nextTrigger = K.toBase d.members.settings d.nextTrigger) ∧
  (d.nextTrigger = TimePoint.max → ¬ d.members.TimerArmed)

/-- The internal timer has fired and is not set again, but `Progressed` has noted that
`NextTrigger()` is to be recomputed, or will come to one of the timers `l` that stand there. -/
structure Unattended (d : TimerService α (Derived β ε C)) (time : TimePoint) (l : List TimerId) :
    Prop where
  unarmed : ¬ d.members.TimerArmed
  due : d.nextTrigger ≤ time
  noted : d.updateNeeded = true ∨ ∃ i ∈ l, d.Armed i ∧ d.triggerTime i = d.nextTrigger

theorem timerArmed_startTimer (m : Derived β ε C) (time : TimePoint) :
    (m.startTimer B time).TimerArmed := by
  unfold Derived.TimerArmed startTimer
  rw [armed_setNextTriggerTime]
  exact Or.inl rfl

theorem not_timerArmed_cancelTimer (m : Derived β ε C) : ¬ (m.cancelTimer B).TimerArmed := by
  unfold Derived.TimerArmed cancelTimer
  rw [armed_cancel]
  exact fun h => h.1 rfl

/-- `NextTriggerChanged` sets the internal timer for `NextTrigger()`. -/
theorem Synced.of_called {m : Derived β ε C}
    (h : d.members = nextTriggerChanged B K d.nextTrigger m) : Synced K d := by
  unfold Synced
  rw [h]
  unfold Derived.nextTriggerChanged
  constructor
  · intro hne
    rw [if_pos hne]
    exact ⟨timerArmed_startTimer B _ _, rfl⟩
  · intro heq
    rw [if_neg (not_not_intro heq)]
    exact not_timerArmed_cancelTimer B _

theorem Synced.of_notifies (h : Synced K d)
    (hn : TimerService.Notifies (nextTriggerChanged B K) d d') : Synced K d' := by
  rcases hn with ⟨hmembers, hnext⟩ | hcalled
  · unfold Synced
    rw [hmembers, hnext]
    exact h
  · exact Synced.of_called B K hcalled

/-- An operation on the timers while `Progressed` is executing. -/
theorem Unattended.perform {l l' : List TimerId} (h : Unattended d time l) (hwf : d.WellFormed)
    (hhold : d.holdUpdate = true) (op : Operation α) (hl : ∀ j ∈ l, j ≠ op.timer → j ∈ l') :
    Synced K (d.perform (nextTriggerChanged B K) op) ∨
      Unattended (d.perform (nextTriggerChanged B K) op) time l' := by
  cases TimerService.Effect.perform (nextTriggerChanged B K) d hwf op with
  | recomputed hfree => exact absurd (hhold.symm.trans hfree) (by simp)
  | deferred _ hnext hneeded hmembers =>
      refine Or.inr ⟨?_, ?_, Or.inl hneeded⟩
      · rw [hmembers]
        exact h.unarmed
      · rw [hnext]
        exact h.due
  | lowered _ _ hmembers => exact Or.inl (Synced.of_called B K hmembers)
  | kept hnext hneeded hmembers hother _ =>
      refine Or.inr ⟨?_, ?_, ?_⟩
      · rw [hmembers]
        exact h.unarmed
      · rw [hnext]
        exact h.due
      · rw [hneeded, hnext]
        rcases h.noted with hn | ⟨i, hi, harmed, htime⟩
        · exact Or.inl hn
        · have hne : i ≠ op.timer := by
            rintro rfl
            exact hother harmed htime
          refine Or.inr ⟨i, hl i hi hne, ?_, ?_⟩
          · exact (armed_perform_of_ne _ d op hne).mpr harmed
          · rw [triggerTime_perform_of_ne _ d op hne]
            exact htime

/-- How the internal timer stands, by what the derived service is executing. -/
inductive Attention (d : TimerService α (Derived β ε C)) : Phase α → Bool → Prop where
  | outside (h : Synced K d) : Attention d .outside false
  | scanning {time : TimePoint} {owed : Bool} {rest : List TimerId} (hwalks : d.Walks rest)
      (h : Synced K d ∨ Unattended d time rest)
      (howed : owed = true → ∃ i ∈ rest, d.Armed i ∧ d.triggerTime i ≤ time) :
      Attention d (.scanning time) owed
  | acting {time : TimePoint} {action : α} {rest : List TimerId} (hwalks : d.Walks rest)
      (h : Synced K d ∨ Unattended d time rest) : Attention d (.acting time action) false

/-- What holds of the timers of the derived service. -/
structure DerivedSound (d : TimerService α (Derived β ε C)) (p : Phase α) : Prop where
  wellFormed : d.WellFormed
  beforeMax : d.TimesBeforeMax
  attained : d.Attained
  held : d.holdUpdate = false ↔ p = .outside

/-- No timer of the derived service is set to `TimePoint::max()`; and when its `Progressed` returns
without having set the internal timer anew, the earliest timer does not stand at the time at which
`NextTrigger()` was before. -/
def Undisturbed (σ : System α β ε C) : SystemEvent α β Q ε → Prop
  | .derived (.operation op) => op.BeforeMax
  | .derived (.fire i r _) => (r.operation i).BeforeMax
  | .derived .progressedReturns =>
      σ.derived.members.TimerArmed ∨ σ.derived.earliest ≠ σ.derived.nextTrigger
  | _ => True

/-- The events that keep the internal timer attended to. When it fires, the time that it was set
for has to be `NextTrigger()` or later after the conversion back. -/
def Attends (σ : System α β ε C) (e : SystemEvent α β Q ε) : Prop :=
  Undisturbed σ e ∧
    (e = .baseTimerFires → σ.derived.nextTrigger ≤ K.fromBase σ.derived.members.settings
      (K.toBase σ.derived.members.settings σ.derived.nextTrigger))

theorem DerivedSound.perform {p' : Phase α}
    (h : DerivedSound d p) {op : Operation α} (hop : op.BeforeMax)
    (hp : p = .outside ↔ p' = .outside) :
    DerivedSound (d.perform (nextTriggerChanged B K) op) p' := by
  refine ⟨h.wellFormed.perform _ op, h.beforeMax.perform _ hop,
    h.attained.perform _ h.wellFormed h.beforeMax hop, ?_⟩
  rw [perform_holdUpdate, h.held, hp]

theorem held_true (h : DerivedSound d p) (hp : p ≠ .outside) : d.holdUpdate = true := by
  cases hhold : d.holdUpdate with
  | true => rfl
  | false => exact absurd (h.held.mp hhold) hp

/-- The first of the timers that are left. -/
theorem walks_cons {γ δ : Type} {s : TimerService γ δ} {rest : List TimerId} (h : s.Walks rest)
    (hi : s.timerIterator = some i) : ∃ rest', rest = i :: rest' := by
  cases rest with
  | nil => exact absurd (hi.symm.trans h.iterator) (by simp)
  | cons j rest' =>
      have hj : i = j := by simpa using hi.symm.trans h.iterator
      exact ⟨rest', by rw [hj]⟩

/-- The code of the program sets the internal timer anew. -/
theorem Attention.of_synced (h : Attention K d p owed) (hsynced : Synced K d')
    (hlist : d'.scheduledTimers = d.scheduledTimers) (hiterator : d'.timerIterator = d.timerIterator)
    (hp : p.Operates) : Attention K d' p owed := by
  cases h with
  | outside _ => exact .outside hsynced
  | scanning _ _ _ => exact absurd hp (by simp [Phase.Operates])
  | acting hwalks _ => exact .acting (hwalks.congr hlist hiterator) (Or.inl hsynced)

/-- The loop passes a timer that is not due. -/
theorem Attention.skip (h : Attention K d (.scanning time) owed) (hwf : d.WellFormed)
    (hi : d.timerIterator = some i) (hlate : time < d.triggerTime i) :
    Attention K (d.passTimer i) (.scanning time) owed := by
  cases h with
  | scanning hwalks hs howed =>
      obtain ⟨rest', rfl⟩ := walks_cons hwalks hi
      refine .scanning (hwalks.passTimer hwf.nodup) ?_ (fun ho => ?_)
      · rcases hs with hsynced | hunattended
        · exact Or.inl hsynced
        · refine Or.inr { hunattended with noted := ?_ }
          rcases hunattended.noted with hn | ⟨j, hj, harmed, htime⟩
          · exact Or.inl hn
          · have hji : j ≠ i := by
              rintro rfl
              exact absurd (htime.le.trans hunattended.due) (not_le.mpr hlate)
            exact Or.inr ⟨j, (List.mem_cons.mp hj).resolve_left hji, harmed, htime⟩
      · obtain ⟨j, hj, harmed, hdue⟩ := howed ho
        have hji : j ≠ i := by
          rintro rfl
          exact absurd hdue (not_le.mpr hlate)
        exact ⟨j, (List.mem_cons.mp hj).resolve_left hji, harmed, hdue⟩

/-- The loop comes to a timer that is due. -/
theorem Attention.fire (h : Attention K d (.scanning time) owed) (hwf : d.WellFormed)
    (hhold : d.holdUpdate = true) (hi : d.timerIterator = some i) (r : Recomputation α)
    (action : α) :
    Attention K ((d.passTimer i).perform (nextTriggerChanged B K) (r.operation i))
      (.acting time action) false := by
  have htimer := r.operation_timer i
  have hwf' : (d.passTimer i).WellFormed := hwf.congr rfl rfl
  cases h with
  | scanning hwalks hs _ =>
      obtain ⟨rest', rfl⟩ := walks_cons hwalks hi
      obtain ⟨rest'', hwalks', hrest⟩ := (hwalks.passTimer hwf.nodup).perform
        (nextTriggerChanged B K) hwf' (r.operation i)
      refine .acting hwalks' ?_
      rcases hs with hsynced | hunattended
      · have hsynced' : Synced K (d.passTimer i) := hsynced
        exact Or.inl (hsynced'.of_notifies B K
          (TimerService.Effect.perform _ _ hwf' (r.operation i)).notifies)
      · have hpassed : Unattended (d.passTimer i) time (i :: rest') :=
          { hunattended with }
        refine hpassed.perform B K hwf' hhold (r.operation i) (fun j hj hji => ?_)
        have hne : j ≠ i := fun hc => hji (hc.trans htimer.symm)
        exact hrest j ((List.mem_cons.mp hj).resolve_left hne) hji

/-- `Progressed` of the derived service returns: all the timers that were due have fired, and the
internal timer is set again. -/
theorem Attention.progressedReturns
    (h : Attention K d (.scanning time) owed) (hi : d.timerIterator = none)
    (hreturns : d.members.TimerArmed ∨ d.earliest ≠ d.nextTrigger) :
    Attention K (d.endProgressed (nextTriggerChanged B K)) .outside owed := by
  cases h with
  | @scanning _ _ rest hwalks hs howed =>
      have hrest : rest = [] := by
        rw [← List.head?_eq_none_iff, ← hwalks.iterator]
        exact hi
      subst hrest
      have howed' : owed = false := by
        cases owed with
        | false => rfl
        | true =>
            obtain ⟨i, hi, -⟩ := howed rfl
            exact absurd hi List.not_mem_nil
      subst howed'
      have hnotifies := endProgressed_notifies (nextTriggerChanged B K) d
      refine .outside ?_
      rcases hs with hsynced | hunattended
      · exact hsynced.of_notifies B K hnotifies
      · have hneeded : d.updateNeeded = true := by
          rcases hunattended.noted with hn | ⟨i, hi, -⟩
          · exact hn
          · exact absurd hi List.not_mem_nil
        obtain ⟨hnext, -⟩ :=
          endProgressed_needed (nextTriggerChanged B K) hneeded
        have hne := hreturns.resolve_left hunattended.unarmed
        rcases hnotifies with ⟨-, hsame⟩ | hcalled
        · exact absurd (hnext.symm.trans hsame) hne
        · exact Synced.of_called B K hcalled

/-- **The steps of the derived service.** -/
theorem Attention.derived_step {e : Event α} (hd : DerivedSound σ.derived σ.derivedPhase)
    (h : Attention K σ.derived σ.derivedPhase σ.owed) (he : Undisturbed (Q := Q) σ (.derived e))
    (hprogressed : ∀ time, e ≠ .progressed time)
    (hstep : TimerService.Step (nextTriggerChanged B K) σ.derived σ.derivedPhase e d p) :
    DerivedSound d p ∧ Attention K d p (e.owed σ.owed) := by
  obtain ⟨s, q, bp, owed⟩ := σ
  dsimp only at *
  cases hstep with
  | operation op hop hp =>
      refine ⟨hd.perform B K he Iff.rfl, ?_⟩
      cases h with
      | outside hsynced =>
          exact .outside (hsynced.of_notifies B K
            (TimerService.Effect.perform _ s hd.wellFormed op).notifies)
      | scanning => exact absurd hp (by simp [Phase.Operates])
      | acting hwalks hs =>
          obtain ⟨rest', hwalks', hrest⟩ :=
            hwalks.perform (nextTriggerChanged B K) hd.wellFormed op
          refine .acting hwalks' ?_
          rcases hs with hsynced | hunattended
          · exact Or.inl (hsynced.of_notifies B K
              (TimerService.Effect.perform _ s hd.wellFormed op).notifies)
          · exact hunattended.perform B K hd.wellFormed (held_true hd (by simp)) op hrest
  | progressed time => exact absurd rfl (hprogressed time)
  | skip hi hlate =>
      refine ⟨⟨hd.wellFormed.congr rfl rfl, hd.beforeMax.congr rfl,
        { hd.attained with }, hd.held⟩, ?_⟩
      exact h.skip K hd.wellFormed hi hlate
  | fire hi hdue r hr action =>
      rename_i time i
      have hpassed : DerivedSound (s.passTimer i) (.scanning time) :=
        ⟨hd.wellFormed.congr rfl rfl, hd.beforeMax.congr rfl,
          { hd.attained with }, hd.held⟩
      refine ⟨hpassed.perform B K he (by simp), ?_⟩
      exact h.fire B K hd.wellFormed (held_true hd (by simp)) hi r action
  | actionReturns =>
      refine ⟨{ hd with held := hd.held.trans (by simp) }, ?_⟩
      cases h with
      | acting hwalks hs => exact .scanning hwalks hs (fun hc => Bool.noConfusion hc)
  | progressedReturns hi =>
      obtain ⟨htimers, hlist, -, hhold⟩ :=
        endProgressed_keeps (nextTriggerChanged B K) s
      refine ⟨⟨hd.wellFormed.congr htimers hlist, hd.beforeMax.congr htimers,
        hd.attained.endProgressed _ hd.wellFormed hd.beforeMax, ?_⟩, ?_⟩
      · simp [hhold]
      · exact h.progressedReturns B K hi he

/-- The base service keeps its list, and its iterator stands at one of the timers in it. -/
structure BaseSound (b : TimerService (BaseAction β) ε) : Prop where
  wellFormed : b.WellFormed
  walks : ∃ rest, b.Walks rest

theorem BaseSound.perform (h : BaseSound b)
    (op : Operation (BaseAction β)) : BaseSound (b.perform B.nextTriggerChanged op) := by
  obtain ⟨rest, hwalks⟩ := h.walks
  obtain ⟨rest', hwalks', -⟩ := hwalks.perform B.nextTriggerChanged h.wellFormed op
  exact ⟨h.wellFormed.perform _ op, rest', hwalks'⟩

theorem BaseSound.passTimer (h : BaseSound b)
    (hi : b.timerIterator = some i) : BaseSound (b.passTimer i) := by
  obtain ⟨rest, hwalks⟩ := h.walks
  obtain ⟨rest', rfl⟩ := walks_cons hwalks hi
  exact ⟨h.wellFormed.congr rfl rfl, rest', hwalks.passTimer h.wellFormed.nodup⟩

theorem BaseSound.step {b' : TimerService (BaseAction β) ε} {p p' : Phase (BaseAction β)}
    {e : Event (BaseAction β)} (h : BaseSound b)
    (hstep : TimerService.Step B.nextTriggerChanged b p e b' p') : BaseSound b' := by
  cases hstep with
  | operation op _ _ => exact h.perform B op
  | progressed time => exact ⟨h.wellFormed.congr rfl rfl, _, TimerService.Walks.beginProgressed b⟩
  | skip hi _ => exact h.passTimer hi
  | fire hi _ r _ _ => exact (h.passTimer hi).perform B _
  | actionReturns => exact h
  | progressedReturns hi =>
      obtain ⟨htimers, hlist, hiterator, -⟩ :=
        endProgressed_keeps B.nextTriggerChanged b
      exact ⟨h.wellFormed.congr htimers hlist, [], .of_none (hiterator.trans hi)⟩

/-- The members of a derived service after its `NextTriggerChanged` has been called. -/
theorem BaseSound.nextTriggerChanged {m : Derived β ε C} (h : BaseSound m.baseTimerService)
    (nextTrigger : TimePoint) :
    BaseSound (m.nextTriggerChanged B K nextTrigger).baseTimerService := by
  unfold Derived.nextTriggerChanged
  dsimp only
  split
  · exact h.perform B (.setNextTriggerTime m.timer _ .derivedProgressed)
  · exact h.perform B (.cancel m.timer)

theorem BaseSound.of_notifies (h : BaseSound d.members.baseTimerService)
    (hn : TimerService.Notifies (Derived.nextTriggerChanged B K) d d') :
    BaseSound d'.members.baseTimerService := by
  rcases hn with ⟨hmembers, -⟩ | hcalled
  · rw [hmembers]
    exact h
  · rw [hcalled]
    exact h.nextTriggerChanged B K _

/-- The invariant of the system. -/
structure Sound (σ : System α β ε C) : Prop where
  derived : DerivedSound σ.derived σ.derivedPhase
  base : BaseSound σ.base
  attention : Attention K σ.derived σ.derivedPhase σ.owed
  nested : σ.derivedPhase ≠ .outside → ∃ time, σ.basePhase = .acting time .derivedProgressed

/-- Another state of the base service with the internal timer as it was. -/
theorem Attention.setBase (h : Attention K σ.derived σ.derivedPhase σ.owed)
    (hb : b.Armed σ.derived.members.timer ↔ σ.base.Armed σ.derived.members.timer) :
    Attention K (σ.setBase b).derived σ.derivedPhase σ.owed := by
  have hsynced : Synced K σ.derived → Synced K (σ.setBase b).derived := by
    intro hs
    refine ⟨fun hne => ⟨hb.mpr (hs.1 hne).1, (hs.1 hne).2⟩, fun heq hc => hs.2 heq (hb.mp hc)⟩
  have hunattended : ∀ time l, Unattended σ.derived time l →
      Unattended (σ.setBase b).derived time l := by
    intro time l hu
    exact ⟨fun hc => hu.unarmed (hb.mp hc), hu.due, hu.noted⟩
  generalize σ.derivedPhase = p, σ.owed = owed at h
  cases h with
  | outside hs => exact .outside (hsynced hs)
  | scanning hwalks hs howed =>
      exact .scanning (hwalks.congr rfl rfl) (hs.imp hsynced (hunattended _ _)) howed
  | acting hwalks hs => exact .acting (hwalks.congr rfl rfl) (hs.imp hsynced (hunattended _ _))

theorem DerivedSound.setBase (h : DerivedSound σ.derived σ.derivedPhase)
    (b : TimerService (BaseAction β) ε) : DerivedSound (σ.setBase b).derived σ.derivedPhase :=
  ⟨h.wellFormed.congr rfl rfl, h.beforeMax.congr rfl, { h.attained with }, h.held⟩

/-- An event of the base service that is not about the internal timer. -/
theorem armed_of_spares {b' : TimerService (BaseAction β) ε} {p p' : Phase (BaseAction β)}
    {e : Event (BaseAction β)} (he : e.Spares i)
    (hstep : TimerService.Step B.nextTriggerChanged b p e b' p') : b'.Armed i ↔ b.Armed i := by
  cases hstep with
  | operation op _ _ => exact armed_perform_of_ne _ b op (Ne.symm he)
  | progressed time => exact Iff.rfl
  | skip _ _ => exact Iff.rfl
  | fire hi hdue r hr action =>
      rename_i time j
      have hne : i ≠ (r.operation j).timer := by
        rw [r.operation_timer]
        exact Ne.symm he.1
      exact armed_perform_of_ne _ (b.passTimer j) _ hne
  | actionReturns => exact Iff.rfl
  | progressedReturns _ =>
      unfold TimerService.Armed
      rw [(endProgressed_keeps B.nextTriggerChanged b).1]

/-- The internal timer fires. -/
theorem Sound.baseTimerFires (h : Sound K σ) (hphase : σ.basePhase = .scanning time)
    (hi : σ.base.timerIterator = some σ.derived.members.timer)
    (hconversion : σ.derived.nextTrigger ≤ K.fromBase σ.derived.members.settings
      (K.toBase σ.derived.members.settings σ.derived.nextTrigger)) :
    Sound K
      { σ.fireBaseTimer B with
        basePhase := .acting time .derivedProgressed
        derivedPhase := .scanning
          (K.fromBase σ.derived.members.settings σ.derived.members.nextTrigger)
        owed := true } := by
  -- the derived service is not executing anything, as the base service is not in an action
  have houtside : σ.derivedPhase = .outside := by
    by_contra hc
    obtain ⟨t, ht⟩ := h.nested hc
    rw [hphase] at ht
    cases ht
  have hd := h.derived
  have hattention := h.attention
  rw [houtside] at hd hattention
  generalize σ.owed = owed at hattention
  cases hattention with
  | outside hsynced =>
      -- the timer is in the list of the base service, so that it was set
      have harmed : σ.derived.members.TimerArmed := by
        obtain ⟨rest, hwalks⟩ := h.base.walks
        obtain ⟨rest', rfl⟩ := walks_cons hwalks hi
        exact (h.base.wellFormed.scheduled _).mp (hwalks.subset List.mem_cons_self)
      have hne : σ.derived.nextTrigger ≠ TimePoint.max := fun hc => hsynced.2 hc harmed
      have hnext := (hsynced.1 hne).2
      -- and a timer of the derived service stands at `NextTrigger()`
      obtain ⟨i, hiarmed, hitime⟩ : ∃ i, σ.derived.Armed i ∧
          σ.derived.triggerTime i = σ.derived.nextTrigger := by
        have hneeded := hd.attained.idle (hd.held.mpr rfl)
        rcases hd.attained.attained hneeded with ⟨-, hmax⟩ | hattained
        · exact absurd hmax hne
        · exact hattained
      have hilist := (hd.wellFormed.scheduled i).mpr hiarmed
      refine ⟨⟨hd.wellFormed.congr rfl rfl, hd.beforeMax.congr rfl,
        ⟨hd.attained.attained, fun hc => ?_⟩, ?_⟩, ?_, ?_, fun _ => ⟨time, rfl⟩⟩
      · exact absurd hc (by simp [fireBaseTimer, beginProgressed])
      · simp [fireBaseTimer, beginProgressed]
      · exact (h.base.passTimer hi).perform B (.cancel σ.derived.members.timer)
      · rw [hnext]
        refine .scanning (TimerService.Walks.beginProgressed _) (Or.inr ⟨?_, hconversion, ?_⟩) (fun _ => ?_)
        · exact not_timerArmed_cancelTimer B { σ.derived.members with
            baseTimerService := σ.derived.members.baseTimerService.passTimer σ.derived.members.timer }
        · exact Or.inr ⟨i, hilist, hiarmed, hitime⟩
        · exact ⟨i, hilist, hiarmed, hitime.le.trans hconversion⟩

theorem Sound.step {σ' : System α β ε C} {e : SystemEvent α β Q ε} (h : Sound K σ)
    (he : Attends K σ e) (hstep : Step B K σ e σ') : Sound K σ' := by
  cases hstep with
  | derived hstep hprogressed hoperation =>
      rename_i e d p
      obtain ⟨hd, hattention⟩ := h.attention.derived_step B K h.derived he.1 hprogressed hstep
      refine ⟨hd, h.base.of_notifies B K (hstep.notifies _ h.derived.wellFormed), hattention,
        fun hp => h.nested (fun hc => ?_)⟩
      -- outside of it, only a call of `Progressed` leads into it
      rw [hc] at hstep
      cases hstep with
      | operation op hop hp' => exact hp rfl
      | progressed time => exact hprogressed time rfl
  | adjust q hop =>
      refine ⟨⟨h.derived.wellFormed.congr rfl rfl, h.derived.beforeMax.congr rfl,
        { h.derived.attained with }, h.derived.held⟩, ?_, ?_, h.nested⟩
      · exact BaseSound.nextTriggerChanged B K (m := { σ.derived.members with
          settings := K.adjust q (B.now σ.derived.members.baseTimerService.members)
            σ.derived.members.settings }) h.base σ.derived.nextTrigger
      · exact h.attention.of_synced K (Synced.of_called B K rfl) rfl rfl hop.1
  | base hstep hspares hoperation hreturns =>
      rename_i e b p
      refine ⟨h.derived.setBase b, h.base.step B hstep,
        h.attention.setBase K (armed_of_spares B hspares hstep), fun hp => ?_⟩
      obtain ⟨time, hphase⟩ := h.nested hp
      rw [hphase] at hstep
      cases hstep with
      | operation op hop hp' => exact ⟨time, rfl⟩
      | actionReturns => exact absurd (hreturns rfl) hp
  | baseTimerFires hphase hi hdue => exact h.baseTimerFires B K hphase hi (he.2 rfl)
  | baseMembers members =>
      exact ⟨h.derived.setBase _, ⟨h.base.wellFormed.congr rfl rfl, h.base.walks.imp
        (fun rest hw => hw.congr rfl rfl)⟩, h.attention.setBase K Iff.rfl, h.nested⟩

theorem Reaches.sound (h : Reaches B K (Attends K) σ) : Sound K σ := by
  induction h with
  | construction b hwf hiterator timer hnew =>
      refine ⟨⟨⟨fun i => ?_, List.nodup_nil⟩, fun i hi => ?_, ⟨fun _ => Or.inl ⟨fun i => ?_, rfl⟩,
        fun _ => rfl⟩, ?_⟩, ⟨hwf, [], .of_none hiterator⟩, ?_, fun hc => absurd rfl hc⟩
      · simp [TimerService.Armed]
      · simp [TimerService.Armed] at hi
      · simp [TimerService.Armed]
      · simp
      · exact .outside ⟨fun hc => absurd rfl hc, fun _ => hnew⟩
  | step _ hP hstep ih => exact ih.step B K hP hstep

/-- The internal timer is armed if and only if a timer of the derived service is, whenever neither
service executes `Progressed`; and each time that it has fired, a timer of the derived service has
fired as well before `Progressed` of the derived service returned. -/
structure AttendedTo (σ : System α β ε C) : Prop where
  armed : σ.basePhase = .outside → σ.derivedPhase = .outside →
    (σ.derived.members.TimerArmed ↔ ∃ i, σ.derived.Armed i)
  fired : σ.derivedPhase = .outside → σ.owed = false

theorem Sound.attendedTo (h : Sound K σ) : AttendedTo σ := by
  have hd := h.derived
  have hattention := h.attention
  refine ⟨fun _ hp => ?_, fun hp => ?_⟩
  · rw [hp] at hd hattention
    generalize σ.owed = owed at hattention
    cases hattention with
    | outside hsynced =>
        rcases hd.attained.attained (hd.attained.idle (hd.held.mpr rfl)) with
          ⟨hnone, hmax⟩ | ⟨i, hi, htime⟩
        · exact ⟨fun hc => absurd hc (hsynced.2 hmax), fun ⟨i, hi⟩ => absurd hi (hnone i)⟩
        · have hne : σ.derived.nextTrigger ≠ TimePoint.max := by
            rw [← htime]
            exact (hd.beforeMax i hi).ne
          exact ⟨fun _ => ⟨i, hi⟩, fun _ => (hsynced.1 hne).1⟩
  · rw [hp] at hattention
    generalize σ.owed = owed at hattention
    cases hattention with
    | outside hsynced => rfl

theorem Reaches.mono {P P' : System α β ε C → SystemEvent α β Q ε → Prop}
    (hP : ∀ σ e, P σ e → P' σ e) (h : Reaches B K P σ) :
    Reaches B K P' σ := by
  induction h with
  | construction b hwf hiterator timer hnew => exact .construction b hwf hiterator timer hnew
  | step _ hσ hstep ih => exact .step ih (hP _ _ hσ) hstep

end System

/-! ## The conversion of times -/

/-- The conversion back is the conversion undone. -/
theorem DerivedTimerService.fromBase_toBase (shift : Duration) (time : TimePoint) :
    conversion.fromBase shift (conversion.toBase shift time) = time := by
  simp [conversion]

/-- Scaling back leads to an earlier time when the division has a remainder, unless the time is
before the start point. -/
theorem ScalableDerivedTimerService.le_scaleTime_unscaleTime (c : Settings) (time : TimePoint) :
    time ≤ scaleTime c (unscaleTime c time) ↔
      (c.factor.toNat : Int) ∣ time - c.startPointForFactor ∨ time ≤ c.startPointForFactor := by
  have hscale : scaleTime c (unscaleTime c time) =
      time - (time - c.startPointForFactor).tmod c.factor.toNat := by
    have hdiv := Int.mul_tdiv_add_tmod (time - c.startPointForFactor) c.factor.toNat
    unfold scaleTime unscaleTime
    linear_combination hdiv
  rw [hscale]
  constructor
  · intro h
    rcases le_or_gt time c.startPointForFactor with hle | hlt
    · exact Or.inr hle
    · have hnonneg := Int.tmod_nonneg (c.factor.toNat : Int) (sub_nonneg.mpr hlt.le)
      have hzero : (time - c.startPointForFactor).tmod c.factor.toNat = 0 := by linarith
      exact Or.inl (Int.dvd_of_tmod_eq_zero hzero)
  · rintro (hdvd | hle)
    · rw [Int.tmod_eq_zero_of_dvd hdvd, sub_zero]
    · have hneg : (c.startPointForFactor - time).tmod c.factor.toNat =
          -(time - c.startPointForFactor).tmod c.factor.toNat := by
        rw [← Int.neg_tmod, neg_sub]
      have hnonneg := Int.tmod_nonneg (c.factor.toNat : Int) (sub_nonneg.mpr hle)
      linarith

/-- The factor is not zero; and when the internal timer fires, the division of `UnscaleTime` was
exact, or truncated upwards. -/
def ScalableDerivedTimerService.Exact {α β ε : Type} (σ : System α β ε Settings) :
    SystemEvent α β Request ε → Prop
  | .adjust (.scale factor) => 1 ≤ factor
  | .baseTimerFires =>
      (σ.derived.members.settings.factor.toNat : Int) ∣
          σ.derived.nextTrigger - σ.derived.members.settings.startPointForFactor ∨
        σ.derived.nextTrigger ≤ σ.derived.members.settings.startPointForFactor
  | _ => True

namespace System

variable {α β ε : Type} (B : BaseService ε)

/-- **A derived timer service does not lose a timer**, in every run of a `DerivedTimerService` in
which no timer is set to `TimePoint::max()` and no action leaves the earliest timer at the time at
which the internal timer has just fired, and in every such run of a `ScalableDerivedTimerService` in
which the internal timer fires for a time that the factor divides, counted from the start point. -/
theorem internal_timer_attendedTo :
    (∀ σ : System α β ε Duration,
      Reaches B DerivedTimerService.conversion Undisturbed σ → AttendedTo σ) ∧
    (∀ σ : System α β ε ScalableDerivedTimerService.Settings,
      Reaches B ScalableDerivedTimerService.conversion
        (fun σ e => Undisturbed σ e ∧ ScalableDerivedTimerService.Exact σ e) σ → AttendedTo σ) := by
  constructor
  · intro σ h
    refine (Reaches.sound B _ (h.mono B _ (fun σ e he => ⟨he, fun _ => ?_⟩))).attendedTo
    rw [DerivedTimerService.fromBase_toBase]
  · intro σ h
    refine (Reaches.sound B _ (h.mono B _ (fun σ e he => ⟨he.1, fun hfires => ?_⟩))).attendedTo
    obtain ⟨-, hexact⟩ := he
    rw [hfires] at hexact
    exact (ScalableDerivedTimerService.le_scaleTime_unscaleTime _ _).mpr hexact

/-- A base service whose clock stands still, with a resolution of one tick. -/
def stoppedService : BaseService Unit where
  nextTriggerChanged _ _ := ()
  now _ := 0
  resolution _ := 1

/-- The time is scaled by two, and a timer that is started for an even time fires. -/
theorem internal_timer_attendedTo_even :
    ∃ σ : System Unit Unit Unit ScalableDerivedTimerService.Settings,
      Reaches stoppedService ScalableDerivedTimerService.conversion
        (fun σ e => Undisturbed σ e ∧ ScalableDerivedTimerService.Exact σ e) σ ∧
      σ.basePhase = .outside ∧ σ.derivedPhase = .outside ∧ ¬ σ.derived.Armed 7 ∧ AttendedTo σ := by
  suffices h : ∃ σ : System Unit Unit Unit ScalableDerivedTimerService.Settings,
      Reaches stoppedService ScalableDerivedTimerService.conversion
        (fun σ e => Undisturbed σ e ∧ ScalableDerivedTimerService.Exact σ e) σ ∧
      σ.basePhase = .outside ∧ σ.derivedPhase = .outside ∧ ¬ σ.derived.Armed 7 by
    obtain ⟨σ, hreaches, hbase, hderived, harmed⟩ := h
    exact ⟨σ, hreaches, hbase, hderived, harmed, (internal_timer_attendedTo stoppedService).2 σ hreaches⟩
  refine ⟨_, .step (.step (.step (.step (.step (.step (.step (.step (.step
    (.construction { members := () } ⟨by simp [TimerService.Armed], List.nodup_nil⟩ rfl 0 (by decide))
    ?scale (.adjust (.scale 2) ⟨trivial, trivial⟩))
    ?start (.derived (.operation (.setNextTriggerTime 7 4 ()) (by decide) trivial) (by simp)
        (fun _ _ => ⟨trivial, trivial⟩)))
    ⟨?_, ?_⟩ (.base (.progressed 3) trivial (by simp) (by simp)))
    ?fires (.baseTimerFires rfl rfl (by decide)))
    ⟨?_, ?_⟩ (.derived (.fire rfl (by decide) .cancel trivial ()) (by simp) (by simp)))
    ⟨?_, ?_⟩ (.derived .actionReturns (by simp) (by simp)))
    ?returns (.derived (.progressedReturns rfl) (by simp) (by simp)))
    ⟨?_, ?_⟩ (.base .actionReturns trivial (by simp) (fun _ => rfl)))
    ⟨?_, ?_⟩ (.base (.progressedReturns rfl) trivial (by simp) (by simp)), ?_, ?_, ?_⟩
  case scale => exact ⟨trivial, show (1 : UInt32) ≤ 2 by decide⟩
  case start => exact ⟨show (4 : Int) < TimePoint.max by decide, trivial⟩
  case fires => exact ⟨trivial, Or.inl (by decide)⟩
  case returns => exact ⟨Or.inr (by decide), trivial⟩
  all_goals trivial

/-- The time is scaled by two and a timer is started for an odd time: when the internal timer fires,
it is one tick too early for the timer, and it is not set again. -/
theorem internal_timer_lost : ∃ σ : System Unit Unit Unit ScalableDerivedTimerService.Settings,
    Reaches stoppedService ScalableDerivedTimerService.conversion (fun _ _ => True) σ ∧
      σ.basePhase = .outside ∧ σ.derivedPhase = .outside ∧ σ.derived.Armed 7 ∧
      ¬ σ.derived.members.TimerArmed := by
  refine ⟨_, .step (.step (.step (.step (.step (.step (.step (.step
    (.construction { members := () } ⟨by simp [TimerService.Armed], List.nodup_nil⟩ rfl 0 (by decide))
    trivial (.adjust (.scale 2) ⟨trivial, trivial⟩))
    trivial (.derived (.operation (.setNextTriggerTime 7 5 ()) (by decide) trivial) (by simp)
      (fun _ _ => ⟨trivial, trivial⟩)))
    trivial (.base (.progressed 3) trivial (by simp) (by simp)))
    trivial (.baseTimerFires rfl rfl (by decide)))
    trivial (.derived (.skip rfl (by decide)) (by simp) (by simp)))
    trivial (.derived (.progressedReturns rfl) (by simp) (by simp)))
    trivial (.base .actionReturns trivial (by simp) (fun _ => rfl)))
    trivial (.base (.progressedReturns rfl) trivial (by simp) (by simp)), rfl, rfl, by decide,
    by decide⟩

end System

end EmbeddedInfra.Timers
