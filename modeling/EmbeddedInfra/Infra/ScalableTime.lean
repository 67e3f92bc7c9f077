import EmbeddedInfra.Infra.DerivedTimerService

set_option autoImplicit false

/-! # The time of a scalable timer service

The time of a `ScalableDerivedTimerService` is an affine function of the time of its base service.
`Scale` rewrites its origin, its shift and its factor, each from old and new values of the others, so
that the time does not jump at the call. It corrects the shift by a number of scaled ticks, although
`ScaleTime` multiplies the shift by the factor: the correction is right as long as it is zero, or is
multiplied by one.
-/

namespace EmbeddedInfra.Timers.ScalableDerivedTimerService

/-- A call of `Shift` or `Scale` at a time of the base service. -/
structure Call where
  baseNow : TimePoint
  request : Request

/-- A factor is at least one. -/
def Call.Admissible (call : Call) : Prop := ∀ factor, call.request = .scale factor → 1 ≤ factor.toNat

/-- The settings after a number of calls on a new service. -/
def settingsAfter (calls : List Call) : Settings :=
  calls.foldl (fun c call => adjust call.request call.baseNow c) {}

/-- What is promised after a number of calls: the time has not jumped when the last one was a `Scale`,
it advances by the factor, and it can be converted back. -/
structure Continuous (calls : List Call) : Prop where
  unchanged : ∀ earlier baseNow factor, calls = earlier ++ [⟨baseNow, .scale factor⟩] →
    scaleTime (settingsAfter calls) baseNow = scaleTime (settingsAfter earlier) baseNow
  advances : ∀ time advance : TimePoint,
    scaleTime (settingsAfter calls) (time + advance) =
      scaleTime (settingsAfter calls) time + advance * (settingsAfter calls).factor.toNat
  unscales : ∀ time, unscaleTime (settingsAfter calls) (scaleTime (settingsAfter calls) time) = time

/-- `Scale` is called at the origin of the scaled time, or the old or the new factor is one. -/
def Scalable (c : Settings) (baseNow : TimePoint) (factor : UInt32) : Prop :=
  c.factor = 1 ∨ factor = 1 ∨ baseNow + c.shift = c.startPointForFactor

variable {c : Settings}

/-! ## Conversions -/

theorem scaleTime_add (c : Settings) (time advance : TimePoint) :
    scaleTime c (time + advance) = scaleTime c time + advance * c.factor.toNat := by
  unfold scaleTime
  ring

/-- A time that has been scaled is divided without a remainder. -/
theorem unscaleTime_scaleTime (hfactor : 1 ≤ c.factor.toNat) (time : TimePoint) :
    unscaleTime c (scaleTime c time) = time := by
  have hne : (c.factor.toNat : Int) ≠ 0 := by omega
  calc unscaleTime c (scaleTime c time)
      = ((time - c.startPointForFactor + c.shift) * c.factor.toNat).tdiv c.factor.toNat - c.shift +
          c.startPointForFactor := by
        unfold unscaleTime scaleTime
        rw [add_sub_cancel_left]
    _ = (time - c.startPointForFactor + c.shift) - c.shift + c.startPointForFactor := by
        rw [Int.mul_tdiv_cancel _ hne]
    _ = time := by ring

/-- How far `Scale` moves the time at the moment of its call. -/
theorem scaleTime_scale (c : Settings) (baseNow : TimePoint) (factor : UInt32) :
    scaleTime (scale factor baseNow c) baseNow = scaleTime c baseNow +
      (baseNow + c.shift - c.startPointForFactor) * (1 - c.factor.toNat) * (1 - factor.toNat) * factor.toNat := by
  unfold scale scaleTime
  ring

theorem toNat_eq_one {factor : UInt32} : (1 - (factor.toNat : Int)) = 0 ↔ factor = 1 := by
  rw [← UInt32.toNat_inj]
  change _ ↔ factor.toNat = 1
  omega

theorem scaleTime_scale_eq_iff {baseNow : TimePoint} {factor : UInt32} (hfactor : 1 ≤ factor.toNat) :
    scaleTime (scale factor baseNow c) baseNow = scaleTime c baseNow ↔ Scalable c baseNow factor := by
  have hne : (factor.toNat : Int) ≠ 0 := by omega
  rw [scaleTime_scale, add_eq_left, mul_eq_zero, or_iff_left hne, mul_eq_zero, mul_eq_zero, toNat_eq_one,
    toNat_eq_one, sub_eq_zero]
  unfold Scalable
  tauto

/-! ## Sequences of calls -/

theorem settingsAfter_concat (earlier : List Call) (call : Call) :
    settingsAfter (earlier ++ [call]) = adjust call.request call.baseNow (settingsAfter earlier) := by
  simp [settingsAfter]

theorem factor_settingsAfter {calls : List Call} (hcalls : ∀ call ∈ calls, call.Admissible) :
    1 ≤ (settingsAfter calls).factor.toNat := by
  induction calls using List.reverseRecOn with
  | nil => decide
  | append_singleton earlier call ih =>
      have hcall := hcalls call (by simp)
      have hearlier := ih fun c hc => hcalls c (List.mem_append_left _ hc)
      rw [settingsAfter_concat]
      rcases call with ⟨baseNow, shift | factor⟩
      · exact hearlier
      · exact hcall factor rfl

/-- **The time does not jump** in a sequence of calls of `Shift` and `Scale` if and only if `Scale` is
only called at the origin of the scaled time, or from or to the factor one. That the time advances by the
factor and can be converted back holds after all calls. -/
theorem scale_continuous_iff (calls : List Call) (hcalls : ∀ call ∈ calls, call.Admissible) :
    (∀ done, done <+: calls → Continuous done) ↔
      ∀ earlier baseNow factor, earlier ++ [⟨baseNow, .scale factor⟩] <+: calls →
        Scalable (settingsAfter earlier) baseNow factor := by
  have hjump (earlier : List Call) (baseNow : TimePoint) (factor : UInt32)
      (hp : earlier ++ [⟨baseNow, .scale factor⟩] <+: calls) :
      scaleTime (settingsAfter (earlier ++ [⟨baseNow, .scale factor⟩])) baseNow =
        scaleTime (settingsAfter earlier) baseNow ↔ Scalable (settingsAfter earlier) baseNow factor := by
    have hcall := hcalls ⟨baseNow, .scale factor⟩ (hp.subset (by simp))
    rw [settingsAfter_concat]
    exact scaleTime_scale_eq_iff (hcall factor rfl)
  constructor
  · intro hall earlier baseNow factor hp
    exact (hjump earlier baseNow factor hp).mp ((hall _ hp).unchanged earlier baseNow factor rfl)
  · intro hall done hp
    constructor
    · rintro earlier baseNow factor rfl
      exact (hjump earlier baseNow factor hp).mpr (hall earlier baseNow factor hp)
    · exact scaleTime_add _
    · exact unscaleTime_scaleTime (factor_settingsAfter fun call hcall => hcalls call (hp.subset hcall))

/-- A factor of two, and ten ticks later a factor of three: the time jumps from twenty to eighty. -/
theorem scale_jumps : ¬ ∀ calls : List Call, (∀ call ∈ calls, call.Admissible) →
    ∀ done, done <+: calls → Continuous done := by
  intro hall
  have hcalls : ∀ call ∈ [(⟨0, .scale 2⟩ : Call), ⟨10, .scale 3⟩], call.Admissible := by
    intro call hcall factor hfactor
    rcases List.mem_cons.mp hcall with rfl | hlast
    · cases hfactor
      decide
    · cases List.mem_singleton.mp hlast
      cases hfactor
      decide
  have h := (hall _ hcalls _ List.prefix_rfl).unchanged [⟨0, .scale 2⟩] 10 3 rfl
  revert h
  decide

/-- A shift, a factor of two, and back to a factor of one. -/
theorem scale_continuous_iff_back : Continuous [⟨0, .shift 3⟩, ⟨5, .scale 2⟩, ⟨10, .scale 1⟩] := by
  refine (scale_continuous_iff _ ?_).mpr ?_ _ (List.prefix_refl _)
  · intro call hcall factor hfactor
    fin_cases hcall <;> cases hfactor <;> decide
  · intro earlier baseNow factor hp
    rcases earlier with _ | ⟨first, _ | ⟨second, _ | ⟨third, more⟩⟩⟩
    · simp at hp
    · simp only [List.cons_append, List.nil_append, List.cons_prefix_cons] at hp
      obtain ⟨rfl, heq, -⟩ := hp
      exact Or.inl rfl
    · simp only [List.cons_append, List.nil_append, List.cons_prefix_cons] at hp
      obtain ⟨-, -, heq, -⟩ := hp
      cases heq
      exact Or.inr (Or.inl rfl)
    · exact absurd hp.length_le (by simp)

end EmbeddedInfra.Timers.ScalableDerivedTimerService
