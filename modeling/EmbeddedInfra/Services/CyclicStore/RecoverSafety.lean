import EmbeddedInfra.Services.CyclicStore.Clearing

set_option autoImplicit false

/-! # Recovering from any contents

The constructor of the store does not know who has written the flash. The statuses of the sectors are checked against
the patterns that the store itself leaves. The lengths of the blocks in the newest sector are not: `RecoverEndAddress`
follows them, and can leave the flash with them.
-/

namespace EmbeddedInfra.CyclicStore

open NorMemory Sequencer BlockStatus Ensures FlashHomogeneous

variable {D : Device} {m : Memory} {s t u : Store} {v : RecoverPhase × Nat × Nat} {e g k a b : Nat} {h : BlockHeader}

/-! ## The patterns of statuses -/

/-- The status byte of a sector. -/
def statusOf (D : Device) (m : Memory) (e : Nat) : UInt8 := D.readStatus m (e * D.sizeOfEachSector)

/-- Sector `g` is the first erased one: the sectors before it are in use since sector zero, and the ones behind it are
erased; or all other sectors are in use, and the start of the cycle is not marked. -/
def EndsBefore (D : Device) (m : Memory) (g : Nat) : Prop :=
  g < D.numberOfSectors ∧
    ((0 < g ∧ statusOf D m 0 = SectorStatus.firstInCycle ∧
      (∀ i, 0 < i → i < g → statusOf D m i = SectorStatus.used) ∧
      ∀ i, g ≤ i → i < D.numberOfSectors → statusOf D m i = SectorStatus.empty) ∨
    (statusOf D m g = SectorStatus.empty ∧
      ∀ i < D.numberOfSectors, i ≠ g → statusOf D m i = SectorStatus.used))

/-- `classifySector`, on the verdict alone. -/
def judge (D : Device) (e : Nat) (status : UInt8) (v : RecoverPhase × Nat × Nat) : RecoverPhase × Nat × Nat :=
  if status = SectorStatus.firstInCycle then
    if v.1 = .searchingStartOrEmpty then
      (if e = 0 then .checkingUsedFollowedByEmpty else .checkingAllUsed, e * D.sizeOfEachSector,
        e * D.sizeOfEachSector)
    else (.corrupt, v.2)
  else if status = SectorStatus.used then
    match v.1 with
    | .checkingAllUsedOrAllEmpty => (.checkingAllUsed, v.2)
    | .checkingUsedFollowedByEmpty | .searchingStartOrEmpty | .checkingAllUsed => v
    | _ => (.corrupt, v.2)
  else if status = SectorStatus.empty then
    match v.1 with
    | .searchingStartOrEmpty =>
        (.checkingAllUsedOrAllEmpty, D.nextSector e * D.sizeOfEachSector, e * D.sizeOfEachSector)
    | .checkingAllUsedOrAllEmpty => (.checkingAllEmpty, 0, 0)
    | .checkingUsedFollowedByEmpty => (.checkingAllEmpty, v.2.1, e * D.sizeOfEachSector)
    | .checkingAllEmpty => v
    | _ => (.corrupt, v.2)
  else (.corrupt, v.2)

theorem verdict_classifySector (he : e < D.numberOfSectors) (hi : s.sectorIndex = UInt32.ofNat e) :
    verdict (classifySector D s) = judge D e s.sectorStatus (verdict s) := by
  have hzero : UInt32.ofNat e = 0 ↔ e = 0 := by
    rw [← UInt32.toNat_inj, toNat_index (Nat.le_of_lt he)]
    rfl
  have hnext := FlashHomogeneous.startOfNextSectorCyclical_eq (f := D.toFlashHomogeneous) he D.size_pos
  rw [Nat.add_zero] at hnext
  unfold classifySector judge
  rw [hi, toNat_index (Nat.le_of_lt he), FlashHomogeneous.addressOfSector_eq (Nat.le_of_lt he)]
  simp only [verdict, hnext]
  by_cases hfirst : s.sectorStatus = SectorStatus.firstInCycle
  · rw [if_pos hfirst, if_pos hfirst]
    by_cases hp : s.recoverPhase = .searchingStartOrEmpty
    · simp [hp, hzero]
    · simp [hp]
  rw [if_neg hfirst, if_neg hfirst]
  by_cases hused : s.sectorStatus = SectorStatus.used
  · rw [if_pos hused, if_pos hused]
    cases hp : s.recoverPhase
    all_goals simp [hp]
  rw [if_neg hused, if_neg hused]
  by_cases hempty : s.sectorStatus = SectorStatus.empty
  · rw [if_pos hempty, if_pos hempty]
    cases hp : s.recoverPhase
    all_goals simp [hp]
  rw [if_neg hempty, if_neg hempty]

/-- What the verdict says about the statuses of the first `k` sectors. -/
def Judged (D : Device) (m : Memory) (k : Nat) : RecoverPhase × Nat × Nat → Prop
  | (.searchingStartOrEmpty, _, _) => ∀ i < k, statusOf D m i = SectorStatus.used
  | (.checkingAllUsedOrAllEmpty, a, b) => ∃ g, k = g + 1 ∧ statusOf D m g = SectorStatus.empty ∧
      (∀ i < g, statusOf D m i = SectorStatus.used) ∧ a = D.nextSector g * D.sizeOfEachSector ∧
      b = g * D.sizeOfEachSector
  | (.checkingAllUsed, a, b) => (a = b ∧ ∃ f < D.numberOfSectors, a = f * D.sizeOfEachSector) ∨
      ∃ g < k, statusOf D m g = SectorStatus.empty ∧ (∀ i < k, i ≠ g → statusOf D m i = SectorStatus.used) ∧
        a = D.nextSector g * D.sizeOfEachSector ∧ b = g * D.sizeOfEachSector
  | (.checkingUsedFollowedByEmpty, a, b) => 0 < k ∧ statusOf D m 0 = SectorStatus.firstInCycle ∧
      (∀ i, 0 < i → i < k → statusOf D m i = SectorStatus.used) ∧ a = 0 ∧ b = 0
  | (.checkingAllEmpty, a, b) => a = 0 ∧ (b = 0 ∨ ∃ g, 0 < g ∧ g < k ∧
      statusOf D m 0 = SectorStatus.firstInCycle ∧ (∀ i, 0 < i → i < g → statusOf D m i = SectorStatus.used) ∧
      (∀ i, g ≤ i → i < k → statusOf D m i = SectorStatus.empty) ∧ b = g * D.sizeOfEachSector)
  | (.corrupt, _, _) => True
  | (.done, _, _) => False

/-- One more sector. -/
theorem Judged.step (hj : Judged D m k v) (hk : k < D.numberOfSectors) :
    Judged D m (k + 1) (judge D k (statusOf D m k) v) := by
  obtain ⟨phase, a, b⟩ := v
  have hsucc : ∀ {P : Nat → Prop}, (∀ i < k, P i) → P k → ∀ i < k + 1, P i := by
    intro P hP hlast i hi
    rcases Nat.lt_succ_iff_lt_or_eq.mp hi with hlt | rfl
    · exact hP i hlt
    · exact hlast
  by_cases hfirst : statusOf D m k = SectorStatus.firstInCycle
  · rw [judge, if_pos hfirst]
    by_cases hp : phase = .searchingStartOrEmpty
    · rw [if_pos hp]
      by_cases h0 : k = 0
      · subst h0
        rw [if_pos rfl]
        exact ⟨Nat.zero_lt_one, hfirst, fun i hpos hlt => absurd hpos (Nat.not_lt.mpr (Nat.le_of_lt_succ hlt)),
          Nat.zero_mul _, Nat.zero_mul _⟩
      · rw [if_neg h0]
        exact Or.inl ⟨rfl, k, hk, rfl⟩
    · rw [if_neg hp]
      exact trivial
  rw [judge, if_neg hfirst]
  by_cases hused : statusOf D m k = SectorStatus.used
  · rw [if_pos hused]
    cases phase with
    | searchingStartOrEmpty => exact hsucc hj hused
    | checkingAllUsedOrAllEmpty =>
        obtain ⟨g, rfl, hempty, hbefore, ha, hb⟩ := hj
        have hothers : ∀ i < g + 1, i ≠ g → statusOf D m i = SectorStatus.used :=
          fun i hi hne => hbefore i (by omega)
        exact Or.inr ⟨g, by omega, hempty, hsucc hothers fun _ => hused, ha, hb⟩
    | checkingUsedFollowedByEmpty =>
        obtain ⟨hpos, hzero, hbefore, ha, hb⟩ := hj
        exact ⟨Nat.succ_pos k, hzero, fun i h0 hi => hsucc (fun i hi h0 => hbefore i h0 hi) (fun _ => hused) i hi h0,
          ha, hb⟩
    | checkingAllUsed =>
        refine hj.imp_right ?_
        rintro ⟨g, hg, hempty, hothers, ha, hb⟩
        exact ⟨g, by omega, hempty, hsucc hothers fun _ => hused, ha, hb⟩
    | checkingAllEmpty => exact trivial
    | corrupt => exact trivial
    | done => exact hj.elim
  rw [if_neg hused]
  by_cases hempty : statusOf D m k = SectorStatus.empty
  · rw [if_pos hempty]
    cases phase with
    | searchingStartOrEmpty => exact ⟨k, rfl, hempty, hj, rfl, rfl⟩
    | checkingAllUsedOrAllEmpty => exact ⟨rfl, Or.inl rfl⟩
    | checkingUsedFollowedByEmpty =>
        obtain ⟨hpos, hzero, hbefore, ha, -⟩ := hj
        refine ⟨ha, Or.inr ⟨k, hpos, Nat.lt_succ_self k, hzero, hbefore, fun i hi hlt => ?_, rfl⟩⟩
        obtain rfl : i = k := by omega
        exact hempty
    | checkingAllEmpty =>
        obtain ⟨ha, hb⟩ := hj
        refine ⟨ha, hb.imp_right ?_⟩
        rintro ⟨g, hpos, hg, hzero, hbefore, hrest, hb⟩
        exact ⟨g, hpos, by omega, hzero, hbefore,
          fun i hi hlt => hsucc (fun i hlt hi => hrest i hi hlt) (fun _ => hempty) i hlt hi, hb⟩
    | checkingAllUsed => exact trivial
    | corrupt => exact trivial
    | done => exact hj.elim
  · rw [if_neg hempty]
    exact trivial

theorem sector_start_lt (he : e < D.numberOfSectors) : e * D.sizeOfEachSector < D.totalSize := by
  have hmul := mul_lt (f := D.toFlashHomogeneous) he
  have hpos := D.size_pos
  rw [totalSize_eq]
  omega

/-- An accepted verdict: both addresses are in the flash, and where they differ the pattern is known. -/
theorem Judged.accepted (hj : Judged D m D.numberOfSectors v) (hv : Accepted v.1) :
    v.2.1 < D.totalSize ∧ v.2.2 < D.totalSize ∧
      (v.2.2 ≠ v.2.1 → ∃ g, EndsBefore D m g ∧ v.2.2 = g * D.sizeOfEachSector) := by
  obtain ⟨phase, a, b⟩ := v
  have hzero : 0 < D.totalSize := by
    have h := sector_start_lt D.sectors_pos
    rwa [Nat.zero_mul] at h
  have hnext : ∀ g, D.nextSector g * D.sizeOfEachSector < D.totalSize :=
    fun g => sector_start_lt (nextSector_lt _ g)
  cases phase with
  | searchingStartOrEmpty => exact absurd rfl hv.2
  | checkingAllUsedOrAllEmpty =>
      obtain ⟨g, hg, hempty, hbefore, rfl, rfl⟩ := hj
      refine ⟨hnext g, sector_start_lt (by omega), fun _ => ⟨g, ⟨by omega, Or.inr ⟨hempty, ?_⟩⟩, rfl⟩⟩
      exact fun i hi hne => hbefore i (by omega)
  | checkingAllUsed =>
      rcases hj with ⟨hab, f, hf, ha⟩ | ⟨g, hg, hempty, hothers, ha, hb⟩
      · have hlt : a < D.totalSize := ha ▸ sector_start_lt hf
        exact ⟨hlt, hab ▸ hlt, fun hne => absurd hab.symm hne⟩
      · exact ⟨ha ▸ hnext g, hb ▸ sector_start_lt hg, fun _ => ⟨g, ⟨hg, Or.inr ⟨hempty, hothers⟩⟩, hb⟩⟩
  | checkingUsedFollowedByEmpty =>
      obtain ⟨-, -, -, ha, hb⟩ := hj
      exact ⟨ha ▸ hzero, hb ▸ hzero, fun hne => absurd (hb.trans ha.symm) hne⟩
  | checkingAllEmpty =>
      obtain ⟨ha, hb | ⟨g, hpos, hg, hfirst, hbefore, hrest, hb⟩⟩ := hj
      · exact ⟨ha ▸ hzero, hb ▸ hzero, fun hne => absurd (hb.trans ha.symm) hne⟩
      · exact ⟨ha ▸ hzero, hb ▸ sector_start_lt hg,
          fun _ => ⟨g, ⟨hg, Or.inl ⟨hpos, hfirst, hbefore, hrest⟩⟩, hb⟩⟩
  | corrupt => exact absurd rfl hv.1
  | done => exact hj.elim

theorem statusOf_eq (D : Device) (m : Memory) :
    ∀ e < D.numberOfSectors, D.readStatus m (e * D.sizeOfEachSector) = statusOf D m e := fun _ _ => rfl

/-- The scan of any contents -/
theorem scan_judged (D : Device) (m : Memory) :
    ∃ t, EndsIn (Scanning D m) [.forEach sectorIndexVariable 0 (UInt32.ofNat D.numberOfSectors) (recoverSector D)]
        { flash := m } t ∧
      Fresh m t ∧ t.sectorIndex = UInt32.ofNat D.numberOfSectors ∧ Judged D m D.numberOfSectors (verdict t) := by
  obtain ⟨t, hends, hfresh, hindex, hj⟩ := scan_spec (statusOf_eq D m) (Judged D m)
    (fun e he s hi hs hj => by
      rw [verdict_classifySector he hi, hs]
      exact hj.step he)
    D.numberOfSectors 0 (Nat.zero_add _) { flash := m } ⟨rfl, rfl, rfl, rfl, rfl, rfl⟩ rfl
    (fun i hi => absurd hi (Nat.not_lt_zero i))
  exact ⟨t, .forEach hends, hfresh, hindex, hj⟩

/-- The scan of a pattern that leaves the end of the ring open -/
theorem EndsBefore.scans (hg : EndsBefore D m g) :
    ∃ phase a, Accepted phase ∧ g * D.sizeOfEachSector ≠ a ∧ Scans D m (phase, a, g * D.sizeOfEachSector) := by
  obtain ⟨hlt, ⟨hpos, hfirst, hused, hempty⟩ | ⟨hempty, hused⟩⟩ := hg
  · have hscan := scans_prefix (statusOf_eq D m) hpos hfirst hused hempty
    rw [if_neg (Nat.not_le.mpr hlt)] at hscan
    refine ⟨_, 0, ⟨by decide, by decide⟩, ?_, hscan⟩
    exact Nat.ne_of_gt (Nat.mul_pos hpos D.size_pos)
  · obtain ⟨phase, hphase, hscan⟩ := scans_gap (statusOf_eq D m) hlt hempty hused
    refine ⟨phase, _, ?_, ?_, hscan⟩
    · rcases hphase with rfl | rfl
      all_goals exact ⟨by decide, by decide⟩
    · intro heq
      have htwo := D.two_le
      have hsame : g = D.nextSector g := Nat.eq_of_mul_eq_mul_right D.size_pos heq
      unfold nextSector at hsame
      by_cases hlast : g + 1 = D.numberOfSectors
      · rw [hlast, Nat.mod_self] at hsame
        omega
      · rw [Nat.mod_eq_of_lt (by omega)] at hsame
        omega

/-! ## The walk over the blocks -/

/-- Where the next header is read after the header `h` at an address; none, when the rest of the sector is skipped. -/
def nextHeader (D : Device) (a : Nat) (h : BlockHeader) : Option Nat :=
  if h.status = dataReady then
    let b := add32 a sizeofBlockHeader
    if add32 b h.blockLength ≤ D.totalSize ∧ D.sectorOfAddress b = D.sectorOfAddress (add32 b h.blockLength) then
      some (add32 b h.blockLength)
    else none
  else if h.status = writingLength then some (add32 a sizeofBlockHeader)
  else if h.status = writingData then
    let b := add32 a (sizeofBlockHeader + h.blockLength)
    if D.addressOffsetInSector b ≤ D.sizeOfSector (D.sectorOfAddress b) then some b else none
  else none

/-- The address from which the rest of the sector is skipped. -/
def skipsFrom (a : Nat) (h : BlockHeader) : Nat :=
  if h.status = dataReady then add32 a sizeofBlockHeader
  else if h.status = writingData then add32 a (sizeofBlockHeader + h.blockLength)
  else a

/-- A turn of the loop: another header is read, or the rest of the sector is skipped. -/
theorem recoverBlock_turn (s : Store) (a : Nat) (h : BlockHeader) :
    (∀ b, nextHeader D a h = some b → Runs (recoverBlock D) (s.at a h) [s.at b (D.readHeader s.flash b)]
      (s.at b (D.readHeader s.flash b))) ∧
    (nextHeader D a h = none → Runs (recoverBlock D) (s.at a h) []
      (s.at (D.startOfNextSectorCyclical (skipsFrom a h)) h)) := by
  unfold nextHeader skipsFrom
  dsimp only
  by_cases hready : h.status = dataReady
  · rw [if_pos hready, if_pos hready]
    by_cases hfit : add32 (add32 a sizeofBlockHeader) h.blockLength ≤ D.totalSize ∧
        D.sectorOfAddress (add32 a sizeofBlockHeader) =
          D.sectorOfAddress (add32 (add32 a sizeofBlockHeader) h.blockLength)
    · rw [if_pos hfit]
      refine ⟨fun b hb => ?_, fun hn => absurd hn (Option.some_ne_none _)⟩
      obtain rfl := Option.some.inj hb
      refine Runs.ifTrue (beq_iff_eq.mpr hready) (.execute (.ifTrue ?_ (.step (.nil _))))
      exact Bool.and_eq_true_iff.mpr ⟨decide_eq_true hfit.1, beq_iff_eq.mpr hfit.2⟩
    · rw [if_neg hfit]
      refine ⟨fun b hb => absurd hb.symm (Option.some_ne_none b), fun _ => ?_⟩
      refine Runs.ifTrue (beq_iff_eq.mpr hready) (.execute (.ifFalse ?_ (.execute (.nil _))))
      refine Bool.eq_false_iff.mpr fun hc => hfit ?_
      obtain ⟨hle, hsec⟩ := Bool.and_eq_true_iff.mp hc
      exact ⟨of_decide_eq_true hle, beq_iff_eq.mp hsec⟩
  rw [if_neg hready, if_neg hready]
  by_cases hlength : h.status = writingLength
  · rw [if_pos hlength]
    refine ⟨fun b hb => ?_, fun hn => absurd hn (Option.some_ne_none _)⟩
    obtain rfl := Option.some.inj hb
    exact Runs.ifFalse (beq_eq_false_iff_ne.mpr hready) (Runs.ifTrue (beq_iff_eq.mpr hlength) (.step (.nil _)))
  rw [if_neg hlength]
  by_cases hdata : h.status = writingData
  · rw [if_pos hdata, if_pos hdata]
    by_cases hfit : D.addressOffsetInSector (add32 a (sizeofBlockHeader + h.blockLength)) ≤
        D.sizeOfSector (D.sectorOfAddress (add32 a (sizeofBlockHeader + h.blockLength)))
    · rw [if_pos hfit]
      refine ⟨fun b hb => ?_, fun hn => absurd hn (Option.some_ne_none _)⟩
      obtain rfl := Option.some.inj hb
      exact Runs.ifFalse (beq_eq_false_iff_ne.mpr hready) (Runs.ifFalse (beq_eq_false_iff_ne.mpr hlength) (.ifTrue (beq_iff_eq.mpr hdata)
        (.execute (.ifTrue (decide_eq_true hfit) (.step (.nil _))))))
    · rw [if_neg hfit]
      refine ⟨fun b hb => absurd hb.symm (Option.some_ne_none b), fun _ => ?_⟩
      exact Runs.ifFalse (beq_eq_false_iff_ne.mpr hready) (Runs.ifFalse (beq_eq_false_iff_ne.mpr hlength) (.ifTrue (beq_iff_eq.mpr hdata)
        (.execute (.ifFalse (decide_eq_false hfit) (.execute (.nil _))))))
  rw [if_neg hdata, if_neg hdata]
  refine ⟨fun b hb => absurd hb.symm (Option.some_ne_none b), fun _ => ?_⟩
  refine Runs.ifFalse (beq_eq_false_iff_ne.mpr hready) (Runs.ifFalse (beq_eq_false_iff_ne.mpr hlength) (.ifFalse (beq_eq_false_iff_ne.mpr hdata) ?_))
  by_cases hfilled : h.status = emptyUntilEnd
  · exact Runs.ifTrue (beq_iff_eq.mpr hfilled) (.execute (.nil _))
  · exact Runs.ifFalse (beq_eq_false_iff_ne.mpr hfilled) (.execute (.nil _))

/-! ## Blocks that run over the end of the flash -/

/-- The walk that begins with the header at `start` comes to the header at an address. -/
inductive Visits (D : Device) (m : Memory) (start : Nat) : Nat → Prop where
  | first : Visits D m start start
  | next {a b : Nat} (h : Visits D m start a) (hblock : D.atStartOfSector a = false)
      (hb : nextHeader D a (D.readHeader m a) = some b) : Visits D m start b

/-- The block at an address does not end before the flash does: a header does not, or the data that is being written
behind it. -/
def RunsOver (D : Device) (m : Memory) (a : Nat) : Prop :=
  let h := D.readHeader m a
  (h.status = dataReady ∨ h.status = writingLength) ∧ D.totalSize ≤ a + sizeofBlockHeader ∨
    h.status = writingData ∧ D.totalSize ≤ a + (sizeofBlockHeader + h.blockLength)

theorem totalSize_lt (D : Device) : D.totalSize < 2 ^ 32 := by
  rw [totalSize_eq]
  exact D.fits

theorem address_split (ha : a < D.totalSize) :
    ∃ e o, e < D.numberOfSectors ∧ o < D.sizeOfEachSector ∧ a = e * D.sizeOfEachSector + o := by
  rw [totalSize_eq] at ha
  refine ⟨a / D.sizeOfEachSector, a % D.sizeOfEachSector, (Nat.div_lt_iff_lt_mul D.size_pos).mpr ha,
    Nat.mod_lt a D.size_pos, ?_⟩
  rw [Nat.mul_comm]
  exact (Nat.div_add_mod a D.sizeOfEachSector).symm

theorem atStart_sector (he : e < D.numberOfSectors) : D.atStartOfSector (e * D.sizeOfEachSector) = true := by
  have h := atStartOfSector_eq (f := D.toFlashHomogeneous) he D.size_pos
  rw [Nat.add_zero] at h
  rw [h]
  rfl

/-- From inside of the flash a sector is skipped to the start of a sector. -/
theorem skip_inside (ha : a < D.totalSize) :
    D.startOfNextSectorCyclical a < D.totalSize ∧ D.atStartOfSector (D.startOfNextSectorCyclical a) = true := by
  obtain ⟨e, o, he, ho, rfl⟩ := address_split ha
  have hnext := nextSector_lt D.toFlashHomogeneous e
  rw [startOfNextSectorCyclical_eq he ho]
  exact ⟨sector_start_lt hnext, atStart_sector hnext⟩

theorem add32_cases (a b : Nat) (ha : a < 2 ^ 32) (hb : b < 2 ^ 32) :
    add32 a b = a + b ∨ add32 a b + 2 ^ 32 = a + b := by
  unfold add32 u32
  omega

/-- A record that ends in the sector of its first byte ends in the flash; the addition does not wrap. -/
theorem record_inside (ha : a < D.totalSize) (hb : b < 65536)
    (hsame : D.sectorOfAddress a = D.sectorOfAddress (add32 a b)) :
    add32 a b = a + b ∧ a + b < D.totalSize := by
  have hfits := totalSize_lt D
  have hhalf : 2 * D.sizeOfEachSector < 2 ^ 32 :=
    Nat.lt_of_le_of_lt (Nat.mul_le_mul_right D.sizeOfEachSector D.two_le) D.fits
  unfold sectorOfAddress at hsame
  rcases add32_cases a b (by omega) (by omega) with hadd | hadd
  · refine ⟨hadd, ?_⟩
    rw [totalSize_eq] at ha ⊢
    have hsector : a / D.sizeOfEachSector < D.numberOfSectors := (Nat.div_lt_iff_lt_mul D.size_pos).mpr ha
    rw [hsame, hadd] at hsector
    exact (Nat.div_lt_iff_lt_mul D.size_pos).mp hsector
  · -- the end would be at least a sector before the first byte
    have hback : add32 a b + D.sizeOfEachSector ≤ a := by omega
    have hdiv := Nat.div_le_div_right (c := D.sizeOfEachSector) hback
    rw [Nat.add_div_right _ D.size_pos] at hdiv
    omega

/-- A header is read behind another in one of three ways. -/
theorem nextHeader_cases (hb : nextHeader D a h = some b) :
    (h.status = dataReady ∧ b = add32 (add32 a sizeofBlockHeader) h.blockLength ∧
        D.sectorOfAddress (add32 a sizeofBlockHeader) = D.sectorOfAddress b) ∨
      (h.status = writingLength ∧ b = add32 a sizeofBlockHeader) ∨
      (h.status = writingData ∧ b = add32 a (sizeofBlockHeader + h.blockLength)) := by
  unfold nextHeader at hb
  dsimp only at hb
  split_ifs at hb with hready hfit hlength hwriting <;> obtain rfl := Option.some.inj hb
  · exact .inl ⟨hready, rfl, hfit.2⟩
  · exact .inr (.inl ⟨hlength, rfl⟩)
  · exact .inr (.inr ⟨hwriting, rfl⟩)

/-- A block that ends before the flash leads to a header behind it. -/
theorem nextHeader_inside (hover : ¬ RunsOver D m a) (hb : nextHeader D a (D.readHeader m a) = some b) :
    a < b ∧ b < D.totalSize := by
  have hfits := totalSize_lt D
  have hlen := blockLength_lt (D.readHeader m a)
  obtain ⟨hheader, hdata⟩ := not_or.mp hover
  obtain ⟨hready, rfl, hsector⟩ | ⟨hlength, rfl⟩ | ⟨hwriting, rfl⟩ := nextHeader_cases hb
  · have hin : a + sizeofBlockHeader < D.totalSize := Nat.lt_of_not_le fun hc => hheader ⟨Or.inl hready, hc⟩
    rw [add32_of_lt (hin.trans hfits)] at hsector ⊢
    obtain ⟨hadd, hend⟩ := record_inside hin hlen hsector
    rw [hadd]
    exact ⟨by unfold sizeofBlockHeader; omega, hend⟩
  · have hin : a + sizeofBlockHeader < D.totalSize := Nat.lt_of_not_le fun hc => hheader ⟨Or.inr hlength, hc⟩
    rw [add32_of_lt (hin.trans hfits)]
    exact ⟨by unfold sizeofBlockHeader; omega, hin⟩
  · have hin : a + (sizeofBlockHeader + (D.readHeader m a).blockLength) < D.totalSize :=
      Nat.lt_of_not_le fun hc => hdata ⟨hwriting, hc⟩
    rw [add32_of_lt (hin.trans hfits)]
    exact ⟨by unfold sizeofBlockHeader; omega, hin⟩

theorem skipsFrom_inside (ha : a < D.totalSize) (hover : ¬ RunsOver D m a) :
    skipsFrom a (D.readHeader m a) < D.totalSize := by
  have hfits := totalSize_lt D
  obtain ⟨hheader, hdata⟩ := not_or.mp hover
  unfold skipsFrom
  by_cases hready : (D.readHeader m a).status = dataReady
  · have hin : a + sizeofBlockHeader < D.totalSize := Nat.lt_of_not_le fun hc => hheader ⟨Or.inl hready, hc⟩
    rw [if_pos hready, add32_of_lt (hin.trans hfits)]
    exact hin
  rw [if_neg hready]
  by_cases hwriting : (D.readHeader m a).status = writingData
  · have hin : a + (sizeofBlockHeader + (D.readHeader m a).blockLength) < D.totalSize :=
      Nat.lt_of_not_le fun hc => hdata ⟨hwriting, hc⟩
    rw [if_pos hwriting, add32_of_lt (hin.trans hfits)]
    exact hin
  · rw [if_neg hwriting]
    exact ha

theorem blocksLeft_start (hat : D.atStartOfSector a = true) : blocksLeft D (s.at a h) = false := by
  show (_ && !D.atStartOfSector a) = false
  rw [hat, Bool.not_true, Bool.and_false]

theorem blocksLeft_block (hblock : D.atStartOfSector a = false) (hstatus : h.status ≠ BlockStatus.empty) :
    blocksLeft D (s.at a h) = true := by
  show ((h.status != BlockStatus.empty) && !D.atStartOfSector a) = true
  rw [hblock, Bool.not_false, Bool.and_true]
  exact bne_iff_ne.mpr hstatus

theorem status_of_nextHeader (hn : nextHeader D a h = some b) : h.status ≠ BlockStatus.empty := by
  obtain ⟨hs, -⟩ | ⟨hs, -⟩ | ⟨hs, -⟩ := nextHeader_cases hn <;> rw [hs] <;> decide

theorem RunsOver.status (hover : RunsOver D m a) : (D.readHeader m a).status ≠ BlockStatus.empty := by
  obtain ⟨hs | hs, -⟩ | ⟨hs, -⟩ := hover <;> rw [hs] <;> decide

/-- **The walk**: while no block runs over the end of the flash, it stays inside of the flash and comes to its end. -/
theorem recoverLoop_inside {I : Store → Prop} {start : Nat} (hs : s.flash = m)
    (hover : ∀ a, Visits D m start a → D.atStartOfSector a = false → ¬ RunsOver D m a)
    (hI : ∀ b h, b < D.totalSize → I (s.at b h)) (hstart : start < D.totalSize) :
    ∃ b h, b < D.totalSize ∧ EndsIn I (recoverLoop D) (s.at start (D.readHeader m start)) (s.at b h) := by
  suffices hwalk : ∀ left a, D.totalSize - a ≤ left → a < D.totalSize → Visits D m start a →
      ∃ b h, b < D.totalSize ∧ EndsIn I (recoverLoop D) (s.at a (D.readHeader m a)) (s.at b h) from
    hwalk _ start (le_refl _) hstart Visits.first
  -- the induction is on the bytes that are left behind the header
  intro left
  induction left with
  | zero => exact fun a hleft ha => absurd ha (by omega)
  | succ left ih =>
      intro a hleft ha hvisits
      cases hc : blocksLeft D (s.at a (D.readHeader m a)) with
      | false => exact ⟨a, _, ha, .whileFalse hc (.nil _)⟩
      | true =>
          have hblock : D.atStartOfSector a = false := by
            have hboth := Bool.and_eq_true_iff.mp hc
            exact (Bool.not_eq_true' _).mp hboth.2
          have hnot := hover a hvisits hblock
          obtain ⟨hread, hskip⟩ := recoverBlock_turn (D := D) s a (D.readHeader m a)
          cases hn : nextHeader D a (D.readHeader m a) with
          | some b =>
              obtain ⟨hlt, hb⟩ := nextHeader_inside hnot hn
              obtain ⟨e, h, he, hends⟩ := ih b (by omega) hb (Visits.next hvisits hblock hn)
              have hturn : EndsIn I (recoverBlock D) (s.at a (D.readHeader m a)) (s.at b (D.readHeader m b)) := by
                refine ⟨_, hs ▸ hread b hn, fun x hx => ?_⟩
                rw [List.mem_singleton.mp hx]
                exact hI b _ hb
              exact ⟨e, h, he, .whileTrue hc hturn hends⟩
          | none =>
              obtain ⟨hlt, hat⟩ := skip_inside (skipsFrom_inside ha hnot)
              refine ⟨_, _, hlt, .whileTrue hc ⟨[], hskip hn, fun x hx => absurd hx List.not_mem_nil⟩
                (.whileFalse (blocksLeft_start hat) (.nil _))⟩

/-! ## Following a block that runs over the end -/

section

variable (hwide : D.totalSize + D.sizeOfEachSector + 65538 ≤ 2 ^ 32)
include hwide

/-- Behind the flash there is no next sector in it. -/
theorem skip_outside (ha : D.totalSize ≤ a) (ha' : a < D.totalSize + 65538) :
    D.totalSize ≤ D.startOfNextSectorCyclical a ∧ D.atStartOfSector (D.startOfNextSectorCyclical a) = true := by
  have hpos := D.size_pos
  have hsector : D.numberOfSectors ≤ a / D.sizeOfEachSector := by
    rw [totalSize_eq] at ha
    exact (Nat.le_div_iff_mul_le hpos).mpr ha
  have hmul := Nat.div_mul_le_self a D.sizeOfEachSector
  have hle : a / D.sizeOfEachSector ≤ a := Nat.div_le_self a _
  have hnext : D.startOfNextSectorCyclical a = (a / D.sizeOfEachSector + 1) * D.sizeOfEachSector := by
    unfold startOfNextSectorCyclical sectorOfAddress
    rw [add32_of_lt (by omega)]
    have hne : ((a / D.sizeOfEachSector + 1 == D.numberOfSectors) = true) = False := by
      rw [beq_iff_eq, eq_iff_iff, iff_false]
      omega
    simp only [hne, if_false]
    unfold addressOfSector
    refine u32_of_lt ?_
    rw [Nat.succ_mul]
    omega
  have hlt : (a / D.sizeOfEachSector + 1) * D.sizeOfEachSector < 2 ^ 32 := by
    rw [Nat.succ_mul]
    omega
  rw [hnext]
  constructor
  · rw [totalSize_eq]
    exact Nat.mul_le_mul_right D.sizeOfEachSector (Nat.le_succ_of_le hsector)
  · unfold atStartOfSector startOfSector sectorOfAddress
      addressOfSector
    rw [Nat.mul_div_cancel _ hpos, u32_of_lt hlt]
    exact beq_self_eq_true _

/-- After a block that runs over the end, a header is read behind the flash. -/
theorem nextHeader_outside (ha : a < D.totalSize) (hover : RunsOver D m a)
    (hb : nextHeader D a (D.readHeader m a) = some b) : D.totalSize ≤ b := by
  have hlen := blockLength_lt (D.readHeader m a)
  have hheader : add32 a sizeofBlockHeader = a + sizeofBlockHeader :=
    add32_of_lt (by unfold sizeofBlockHeader; omega)
  obtain ⟨hready, rfl, -⟩ | ⟨hlength, rfl⟩ | ⟨hwriting, rfl⟩ := nextHeader_cases hb
  · have hle := (hover.resolve_right fun h => absurd (hready.symm.trans h.1) (by decide)).2
    rw [hheader, add32_of_lt (by unfold sizeofBlockHeader; omega)]
    exact hle.trans (Nat.le_add_right _ _)
  · have hle := (hover.resolve_right fun h => absurd (hlength.symm.trans h.1) (by decide)).2
    rwa [hheader]
  · have hle := (hover.resolve_left fun h => by
      rw [hwriting] at h
      exact absurd h.1 (by decide)).2
    rwa [add32_of_lt (by unfold sizeofBlockHeader; omega)]

/-- Or the rest of a sector behind the flash is skipped. -/
theorem skipsFrom_outside (ha : a < D.totalSize) (hover : RunsOver D m a)
    (hn : nextHeader D a (D.readHeader m a) = none) :
    D.totalSize ≤ skipsFrom a (D.readHeader m a) ∧ skipsFrom a (D.readHeader m a) < D.totalSize + 65538 := by
  have hlen := blockLength_lt (D.readHeader m a)
  have hheader : add32 a sizeofBlockHeader = a + sizeofBlockHeader :=
    add32_of_lt (by unfold sizeofBlockHeader; omega)
  unfold skipsFrom
  rcases hover with ⟨hready | hlength, hle⟩ | ⟨hwriting, hle⟩
  · rw [if_pos hready, hheader]
    exact ⟨hle, by unfold sizeofBlockHeader; omega⟩
  · unfold nextHeader at hn
    dsimp only at hn
    rw [if_neg (by rw [hlength]; decide), if_pos hlength] at hn
    exact absurd hn (Option.some_ne_none _)
  · rw [if_neg (by rw [hwriting]; decide), if_pos hwriting, add32_of_lt (by unfold sizeofBlockHeader; omega)]
    exact ⟨hle, by unfold sizeofBlockHeader; omega⟩

variable {I : Store → Prop} {start : Nat} (hs : s.flash = m) (hI : ∀ b h, I (s.at b h) → b < D.totalSize)
include hs hI

omit hwide in
/-- A walk that only reads inside of the flash does so at every header that it comes to. -/
theorem visited_inside (hstart : start < D.totalSize)
    (hends : EndsIn I (recoverLoop D) (s.at start (D.readHeader m start)) t) (hv : Visits D m start a) :
    a < D.totalSize ∧ EndsIn I (recoverLoop D) (s.at a (D.readHeader m a)) t := by
  induction hv with
  | first => exact ⟨hstart, hends⟩
  | @next a b hv hblock hn ih =>
      obtain ⟨hread, -⟩ := recoverBlock_turn (D := D) s a (D.readHeader m a)
      obtain ⟨u, ⟨pauses, hruns, hall⟩, hrest⟩ := ih.2.turn (blocksLeft_block hblock (status_of_nextHeader hn))
      obtain ⟨rfl, rfl⟩ := Runs.unique hruns (hread b hn)
      exact ⟨hI b _ (hall _ (List.mem_singleton_self _)), hs ▸ hrest⟩

/-- A walk that stays inside of the flash does not come to a block that runs over its end. -/
theorem not_runsOver (hstart : start < D.totalSize) (ht : t.endAddress < D.totalSize)
    (hends : EndsIn I (recoverLoop D) (s.at start (D.readHeader m start)) t) (hv : Visits D m start a)
    (hblock : D.atStartOfSector a = false) : ¬ RunsOver D m a := by
  intro hover
  obtain ⟨ha, hloop⟩ := visited_inside hs hI hstart hends hv
  obtain ⟨hread, hskip⟩ := recoverBlock_turn (D := D) s a (D.readHeader m a)
  obtain ⟨u, ⟨pauses, hruns, hall⟩, hrest⟩ := hloop.turn (blocksLeft_block hblock hover.status)
  cases hn : nextHeader D a (D.readHeader m a) with
  | some b =>
      obtain ⟨rfl, rfl⟩ := Runs.unique hruns (hread b hn)
      have hb : b < D.totalSize := hI b _ (hall _ (List.mem_singleton_self _))
      exact absurd (nextHeader_outside hwide ha hover hn) (Nat.not_le.mpr hb)
  | none =>
      obtain ⟨-, rfl⟩ := Runs.unique hruns (hskip hn)
      obtain ⟨hle, hlt⟩ := skipsFrom_outside hwide ha hover hn
      obtain ⟨hout, hat⟩ := skip_outside hwide hle hlt
      rw [hrest.stopped (blocksLeft_start hat)] at ht
      exact absurd hout (Nat.not_le.mpr ht)

end

/-! ## The next addition -/

/-- Between two records: the next one is added at offset `o` of sector `e`, and behind the flash nothing has changed. -/
structure Standing (D : Device) (m : Memory) (e o : Nat) (s : Store) : Prop where
  endAddress : s.endAddress = e * D.sizeOfEachSector + o
  sector_lt : e < D.numberOfSectors
  offset_lt : o < D.sizeOfEachSector
  remainingPartialSize : s.remainingPartialSize = 0
  partialSizeWritten : s.partialSizeWritten = 0
  partialAddStarted : s.partialAddStarted = false
  outside : ∀ a, D.totalSize ≤ a → s.flash a = m a

/-- There is room for a record of `n` bytes at the place, or the sector will be started. -/
def Ready (D : Device) (m : Memory) (n : Nat) (s : Store) : Prop :=
  ∃ e o, Standing D m e o s ∧ (o = 0 ∨ o + 3 + n ≤ D.sizeOfEachSector)

/-- There is room for a record of `n` bytes at the place. -/
def HasPlace (D : Device) (m : Memory) (n : Nat) (s : Store) : Prop :=
  ∃ e o, Standing D m e o s ∧ o + 3 + n ≤ D.sizeOfEachSector

theorem program_outside {a : Nat} {d : List UInt8} (hend : a + d.length ≤ D.totalSize) {x : Nat}
    (hx : D.totalSize ≤ x) : program m a d x = m x := by
  unfold program
  rw [if_neg (by omega)]

theorem erase_outside (he : e < D.numberOfSectors) {x : Nat} (hx : D.totalSize ≤ x) :
    D.eraseSector m e x = m x := by
  have hmul := mul_lt (f := D.toFlashHomogeneous) he
  rw [totalSize_eq] at hx
  unfold Device.eraseSector erase
  rw [addressOfSector_eq (Nat.le_of_lt he), sizeOfSector_eq, if_neg (by omega)]

/-- A byte in the flash is programmed. -/
theorem programByte_outside (ha : a < D.totalSize) (x : UInt8) {b : Nat} (hb : D.totalSize ≤ b) :
    program m a [x] b = m b := program_outside (by rw [List.length_singleton]; omega) hb

section

variable {n : Nat} {range : List UInt8}

theorem Standing.endAddress_lt {o : Nat} (hs : Standing D m e o s) : s.endAddress < D.totalSize := by
  have hmul := mul_lt (f := D.toFlashHomogeneous) hs.sector_lt
  have ho := hs.offset_lt
  rw [hs.endAddress, totalSize_eq]
  omega

theorem ready_fill (range : List UInt8) : Ensures (fun s => ∃ e o, Standing D m e o s) (Ready D m range.length)
    (fillSectorIfDataDoesNotFit D range) := by
  refine ifBlock (step ?_ ensures_nil) (ensures_nil.weaken ?_ fun _ h => h) ensures_nil
  · rintro s ⟨⟨e, o, hs⟩, -⟩
    have hnext := startOfNextSectorCyclical_eq (f := D.toFlashHomogeneous) hs.sector_lt hs.offset_lt
    refine ⟨D.nextSector e, 0, { hs with endAddress := ?_, sector_lt := nextSector_lt _ e, offset_lt := D.size_pos, outside := fun a ha => ?_ }, Or.inl rfl⟩
    · show D.startOfNextSectorCyclical s.endAddress = _
      rw [hs.endAddress, hnext, Nat.add_zero]
    · exact (programByte_outside hs.endAddress_lt _ ha).trans (hs.outside a ha)
  · rintro s ⟨⟨e, o, hs⟩, hc⟩
    have hfits := of_decide_eq_false hc
    rw [hs.endAddress, addressOffsetInSector_eq hs.sector_lt hs.offset_lt,
      sizeOfSector_eq, hs.remainingPartialSize, Nat.add_zero] at hfits
    exact ⟨e, o, hs, Or.inr (Nat.le_of_not_lt hfits)⟩

/-- A change of the flash inside of it, and of what has been read last. -/
theorem Standing.write {o : Nat} (hs : Standing D m e o s) (hend : t.endAddress = s.endAddress)
    (hremaining : t.remainingPartialSize = s.remainingPartialSize)
    (hwritten : t.partialSizeWritten = s.partialSizeWritten) (hstarted : t.partialAddStarted = s.partialAddStarted)
    (hflash : ∀ a, D.totalSize ≤ a → t.flash a = s.flash a) : Standing D m e o t :=
  ⟨hend.trans hs.endAddress, hs.sector_lt, hs.offset_lt, hremaining.trans hs.remainingPartialSize,
    hwritten.trans hs.partialSizeWritten, hstarted.trans hs.partialAddStarted,
    fun a ha => (hflash a ha).trans (hs.outside a ha)⟩

/-- The status of the next sector is written. -/
theorem Standing.writeNext {o : Nat} (hs : Standing D m e o s) (x : UInt8) {a : Nat} (ha : D.totalSize ≤ a) :
    program s.flash (D.startOfNextSectorCyclical s.endAddress) [x] a = s.flash a :=
  programByte_outside (skip_inside hs.endAddress_lt).1 x ha

theorem ready_erase (n : Nat) : Ensures (Ready D m n) (Ready D m n) (eraseSectorIfAtStart D) := by
  refine ifBlock (step (Q := Ready D m n) ?erase (step (Q := Ready D m n) ?read
    (ifBlock (step ?mark ensures_nil) (ensures_nil.weaken (fun s h => h.1) fun _ h => h)
      ensures_nil))) (ensures_nil.weaken (fun s h => h.1) fun _ h => h) ensures_nil
  case erase =>
    rintro s ⟨⟨e, o, hs, hroom⟩, -⟩
    refine ⟨e, o, hs.write rfl rfl rfl rfl fun a ha => ?_, hroom⟩
    have hsector : D.sectorOfAddress s.endAddress = e := by
      rw [hs.endAddress, sectorOfAddress_eq hs.offset_lt]
    show D.eraseSector s.flash (D.sectorOfAddress s.endAddress) a = s.flash a
    rw [hsector]
    exact erase_outside hs.sector_lt ha
  case read =>
    rintro s ⟨e, o, hs, hroom⟩
    exact ⟨e, o, hs.write rfl rfl rfl rfl fun a ha => rfl, hroom⟩
  case mark =>
    rintro s ⟨⟨e, o, hs, hroom⟩, -⟩
    exact ⟨e, o, hs.write rfl rfl rfl rfl fun a ha => hs.writeNext _ ha, hroom⟩

/-- At the start of a sector its status is written, and the record follows. -/
theorem ready_status {n : Nat} (hfit : n + 4 ≤ D.sizeOfEachSector) : Ensures (Ready D m n) (HasPlace D m n)
    (writeSectorStatusIfAtStartOfSector D) := by
  have hkeep : ∀ s, Ready D m n s ∧ D.atStartOfSector s.endAddress = true → ∃ e, Standing D m e 0 s := by
    rintro s ⟨⟨e, o, hs, -⟩, hat⟩
    rw [hs.endAddress, atStartOfSector_eq hs.sector_lt hs.offset_lt] at hat
    obtain rfl := of_decide_eq_true hat
    exact ⟨e, hs⟩
  refine ifBlock (step (Q := fun s => ∃ e, Standing D m e 0 s) ?read (ifBlock
    (Q := fun s => ∃ e, Standing D m e 0 s) (step ?mark ensures_nil)
    (ensures_nil.weaken (fun s h => h.1) fun _ h => h) (step ?write ensures_nil)))
    (ensures_nil.weaken ?inside fun _ h => h) ensures_nil
  case read =>
    intro s hs
    obtain ⟨e, hs⟩ := hkeep s hs
    exact ⟨e, hs.write rfl rfl rfl rfl fun a ha => rfl⟩
  case mark =>
    rintro s ⟨⟨e, hs⟩, -⟩
    exact ⟨e, hs.write rfl rfl rfl rfl fun a ha => hs.writeNext _ ha⟩
  case write =>
    rintro s ⟨e, hs⟩
    have hone : add32 (e * D.sizeOfEachSector + 0) 1 = e * D.sizeOfEachSector + (0 + 1) :=
      add32_inside hs.sector_lt (by omega)
    have hmul := mul_lt (f := D.toFlashHomogeneous) hs.sector_lt
    refine ⟨e, 1, { hs with endAddress := ?_, offset_lt := by omega, outside := fun a ha => ?_ }, by omega⟩
    · show wrapAddress D (add32 s.endAddress 1) = _
      rw [hs.endAddress, hone, wrapAddress, if_neg (by rw [totalSize_eq]; omega)]
    · exact (programByte_outside hs.endAddress_lt _ ha).trans (hs.outside a ha)
  case inside =>
    rintro s ⟨⟨e, o, hs, hroom⟩, hat⟩
    rw [hs.endAddress, atStartOfSector_eq hs.sector_lt hs.offset_lt] at hat
    exact ⟨e, o, hs, hroom.resolve_left (of_decide_eq_false hat)⟩

/-- The record is written behind the place. -/
theorem standing_range (range : List UInt8) : Ensures (HasPlace D m range.length)
    (fun s => ∀ a, D.totalSize ≤ a → s.flash a = m a) (writeRange D range) := by
  have hend : ∀ s e o, Standing D m e o s → o + 3 + range.length ≤ D.sizeOfEachSector →
      s.endAddress + 3 + range.length ≤ D.totalSize := by
    intro s e o hs hroom
    have hmul := mul_lt (f := D.toFlashHomogeneous) hs.sector_lt
    rw [hs.endAddress, totalSize_eq]
    omega
  have hfits := totalSize_lt D
  refine ifBlock (Q := HasPlace D m range.length) (step (Q := HasPlace D m range.length) ?header
    (step (Q := HasPlace D m range.length) ?length (step ?status ensures_nil)))
    (ensures_nil.weaken (fun s h => h.1) fun _ h => h)
    (step (Q := fun s => s.endAddress < D.totalSize ∧ ∀ a, D.totalSize ≤ a → s.flash a = m a) ?data
      (step ?ready ensures_nil))
  case header =>
    rintro s ⟨⟨e, o, hs, hroom⟩, -⟩
    exact ⟨e, o, hs.write rfl rfl rfl rfl fun a ha => programByte_outside hs.endAddress_lt _ ha, hroom⟩
  case length =>
    rintro s ⟨e, o, hs, hroom⟩
    have hin := hend s e o hs hroom
    refine ⟨e, o, hs.write rfl rfl rfl rfl fun a ha => program_outside ?_ ha, hroom⟩
    rw [add32_of_lt (by omega), List.length_cons, List.length_singleton]
    omega
  case status =>
    rintro s ⟨e, o, hs, hroom⟩
    have hin := hend s e o hs hroom
    refine ⟨e, o, hs.write rfl rfl rfl rfl fun a ha => programByte_outside ?_ _ ha, hroom⟩
    rw [hs.partialSizeWritten, add32_of_lt (by omega)]
    exact hs.endAddress_lt
  case data =>
    rintro s ⟨e, o, hs, hroom⟩
    have hin := hend s e o hs hroom
    refine ⟨hs.endAddress_lt, fun a ha => ?_⟩
    refine (program_outside ?_ ha).trans (hs.outside a ha)
    rw [hs.partialSizeWritten, add32_of_lt (show s.endAddress + 0 < 2 ^ 32 by omega), Nat.add_zero,
      add32_of_lt (by omega)]
    exact hin
  case ready =>
    rintro s ⟨hlt, houtside⟩ a ha
    show (writeReady D s).flash a = m a
    rcases writeReady_flash (D := D) s with hsame | hready
    · rw [hsame]
      exact houtside a ha
    · rw [hready]
      exact (programByte_outside hlt _ ha).trans (houtside a ha)

/-- **Adding** a record, whose assertion holds, to a store that is in the flash leaves everything else as it is. -/
theorem add_outside {pauses : List Store} {o : Nat} (hs : Standing D s.flash e o s)
    (hadd : Adds D range s pauses t) (hok : t.assertionFailed = false) :
    ∀ a, D.totalSize ≤ a → t.flash a = s.flash a := by
  have hfit : range.length + 4 ≤ D.sizeOfEachSector := by
    refine Nat.le_of_not_lt fun hsize => ?_
    rw [add_asserts hs.partialAddStarted hsize hadd] at hok
    exact absurd hok Bool.true_eq_false.mp
  have hprepared : Standing D s.flash e o (prepareAdd range s) := by
    refine hs.write rfl ?_ rfl rfl fun a ha => rfl
    show (if s.partialAddStarted then _ else s.remainingPartialSize) = s.remainingPartialSize
    rw [hs.partialAddStarted]
    rfl
  have hruns := runs_ifBlock.mp hadd
  rw [if_pos (prepareAdd_first hs.partialAddStarted range)] at hruns
  have hfront := (ready_fill (D := D) (m := s.flash) range).append
    ((ready_erase range.length).append (ready_status hfit))
  exact (hfront.append (standing_range range)) _ _ _ ⟨e, o, hprepared⟩ hruns

end

/-! ## Recovering -/

/-- The sector before a sector, cyclically. -/
def prevSector (D : Device) (g : Nat) : Nat := if g = 0 then D.numberOfSectors - 1 else g - 1

theorem prevSector_lt (hg : g < D.numberOfSectors) :
    prevSector D g < D.numberOfSectors ∧ D.nextSector (prevSector D g) = g := by
  unfold prevSector nextSector
  by_cases h0 : g = 0
  · subst h0
    rw [if_pos rfl, Nat.sub_add_cancel D.sectors_pos, Nat.mod_self]
    exact ⟨Nat.sub_lt D.sectors_pos Nat.zero_lt_one, rfl⟩
  · rw [if_neg h0, Nat.sub_add_cancel (Nat.pos_of_ne_zero h0), Nat.mod_eq_of_lt hg]
    exact ⟨by omega, rfl⟩

/-- The place of the first header in the sector before sector `g`. -/
def firstHeader (D : Device) (g : Nat) : Nat := prevSector D g * D.sizeOfEachSector + 1

/-- Where the end of the ring is looked for, the first header is in the flash, and no block that the walk comes to runs
over the end of the flash. -/
def BlocksInside (D : Device) (m : Memory) : Prop :=
  ∀ g, EndsBefore D m g → firstHeader D g < D.totalSize ∧
    ∀ a, Visits D m (firstHeader D g) a → D.atStartOfSector a = false → ¬ RunsOver D m a

/-- Where the flash operation begins that a recovering store waits for: the status of a sector is read, or a block
header at the end of the data (or the flash is erased, from its start). -/
def flashAddress (D : Device) (p : Store) : Nat :=
  if p.sectorIndex.toNat < D.numberOfSectors then D.addressOfSector p.sectorIndex.toNat else p.endAddress

/-- The store has recovered, and has only read inside of the flash; the ring begins and ends in the flash, and the next
record is added in it. -/
structure RecoversSafely (D : Device) (m : Memory) (pauses : List Store) (t : Store) : Prop where
  constructs : Constructs D m pauses t
  flashAddress_lt : ∀ p ∈ pauses, flashAddress D p < D.totalSize
  startAddress_lt : t.startAddress < D.totalSize
  endAddress_lt : t.endAddress < D.totalSize
  adds : ∀ range pauses' u, Adds D range t pauses' u → u.assertionFailed = false →
    ∀ a, D.totalSize ≤ a → u.flash a = t.flash a

/-- A store that has recovered with its addresses in the flash -/
theorem Constructs.safely {pauses : List Store} (hruns : Constructs D m pauses t)
    (hpauses : ∀ p ∈ pauses, flashAddress D p < D.totalSize) (hstart : t.startAddress < D.totalSize)
    (hend : t.endAddress < D.totalSize) (hfresh : Fresh t.flash t) : RecoversSafely D m pauses t := by
  refine ⟨hruns, hpauses, hstart, hend, fun range pauses' u hadd hok => ?_⟩
  obtain ⟨e, o, he, ho, haddress⟩ := address_split hend
  exact add_outside { hfresh with endAddress := haddress, sector_lt := he, offset_lt := ho, outside := fun _ _ => rfl } hadd hok

/-- The first step of `RecoverEndAddress` -/
theorem recoverEndAddress_start (hg : g < D.numberOfSectors) (hs : s.flash = m)
    (hend : s.endAddress = g * D.sizeOfEachSector) :
    loadHeader D { s with endAddress := add32 (D.startOfPreviousSectorCyclical s.endAddress) 1 } =
      s.at (firstHeader D g) (D.readHeader m (firstHeader D g)) := by
  obtain ⟨hprev, hnext⟩ := prevSector_lt hg
  have hstart : D.startOfPreviousSectorCyclical s.endAddress = prevSector D g * D.sizeOfEachSector := by
    have h := startOfPreviousSectorCyclical_eq (f := D.toFlashHomogeneous) hprev
    rw [hnext] at h
    rw [hend, h]
  have hone : add32 (prevSector D g * D.sizeOfEachSector) 1 = firstHeader D g :=
    add32_of_lt (address_lt hprev D.size_pos)
  simp only [loadHeader, Store.at, hstart, hone, hs]

/-- A store that has read the statuses of all sectors -/
theorem flashAddress_behind (hs : s.sectorIndex = UInt32.ofNat D.numberOfSectors) :
    flashAddress D s = s.endAddress := by
  unfold flashAddress
  rw [hs, toNat_index (le_refl _), if_neg (Nat.lt_irrefl _)]

theorem flashAddress_at (hs : s.sectorIndex = UInt32.ofNat D.numberOfSectors) (h : BlockHeader)
    (hb : b < D.totalSize) : flashAddress D (s.at b h) < D.totalSize := by
  have hat : (s.at b h).sectorIndex = UInt32.ofNat D.numberOfSectors := hs
  rwa [flashAddress_behind hat]

theorem Scanning.flashAddress_lt (hs : Scanning D m s) : flashAddress D s < D.totalSize := by
  unfold flashAddress
  rw [if_pos hs.sectorIndex, addressOfSector_eq (Nat.le_of_lt hs.sectorIndex)]
  exact sector_start_lt hs.sectorIndex

/-- What comes after the scan, when the statuses are accepted and the end of the ring is looked for -/
theorem recover_walks {I : Store → Prop} (hp : Accepted s.recoverPhase) (hne : s.endAddress ≠ s.startAddress)
    (hbegin : loadHeader D { s with endAddress := add32 (D.startOfPreviousSectorCyclical s.endAddress) 1 } = t)
    (hI : I t) (hloop : EndsIn I (recoverLoop D) t u) :
    EndsIn I (recover D).tail s { u with recoverPhase := .done } :=
  .ifFalse hp.condition (.ifTrue (bne_iff_ne.mpr hne) (.stepTo hbegin hI (hloop.append (.execute (.nil _)))))

/-- While no block runs over the end of the flash, recovering is safe. -/
theorem BlocksInside.recovers (hm : BlocksInside D m) : ∃ pauses t, RecoversSafely D m pauses t := by
  obtain ⟨s, hscan, hfresh, hindex, hj⟩ := scan_judged D m
  have hscan := hscan.mono fun p (hp : Scanning D m p) => hp.flashAddress_lt
  have hzero : 0 < D.totalSize := totalSize_pos
  by_cases hp : Accepted s.recoverPhase
  · obtain ⟨hstart, hend, hpattern⟩ := hj.accepted hp
    by_cases heq : s.endAddress = s.startAddress
    · have hrest : EndsIn (fun p => flashAddress D p < D.totalSize) (recover D).tail s
          { s with recoverPhase := .done } := by
        refine .ifFalse hp.condition (.ifFalse ?_ (.execute (.nil _)))
        rw [heq]
        exact bne_self_eq_false s.startAddress
      obtain ⟨pauses, hruns, hpauses⟩ := hscan.append hrest
      have hruns : Constructs D m pauses { s with recoverPhase := .done } := hruns
      exact ⟨pauses, _, hruns.safely hpauses hstart hend
        ⟨rfl, hfresh.2, hfresh.3, hfresh.4, hfresh.5, hfresh.6⟩⟩
    · obtain ⟨g, hg, hgend⟩ := hpattern heq
      obtain ⟨hfirst, hover⟩ := hm g hg
      obtain ⟨b, h, hb, hloop⟩ := recoverLoop_inside (I := fun p => flashAddress D p < D.totalSize) hfresh.flash hover
        (fun b h hb => flashAddress_at hindex h hb) hfirst
      have hrest := recover_walks hp heq (recoverEndAddress_start hg.1 hfresh.flash hgend)
        (flashAddress_at hindex _ hfirst) hloop
      obtain ⟨pauses, hruns, hpauses⟩ := hscan.append hrest
      have hruns : Constructs D m pauses { s.at b h with recoverPhase := .done } := hruns
      exact ⟨pauses, _, hruns.safely hpauses hstart hb
        ⟨rfl, hfresh.2, hfresh.3, hfresh.4, hfresh.5, hfresh.6⟩⟩
  · -- the statuses form no pattern of the store: the flash is erased
    obtain ⟨u, hu⟩ : ∃ u : Store, u = { s with startAddress := 0, endAddress := 0, flash := D.eraseAll s.flash } :=
      ⟨_, rfl⟩
    have hurest : u.sectorIndex = UInt32.ofNat D.numberOfSectors ∧ u.startAddress = 0 ∧ u.endAddress = 0 ∧
        Fresh u.flash u := by
      rw [hu]
      exact ⟨hindex, rfl, rfl, rfl, hfresh.2, hfresh.3, hfresh.4, hfresh.5, hfresh.6⟩
    obtain ⟨huindex, hustart, huend, hufresh⟩ := hurest
    have hrest : EndsIn (fun p => flashAddress D p < D.totalSize) (recover D).tail s { u with recoverPhase := .done } := by
      refine .ifTrue ?_ (.stepTo hu.symm ?_ (.execute (.nil _)))
      · cases hphase : s.recoverPhase
        all_goals simp_all [Accepted]
      · rwa [flashAddress_behind huindex, huend]
    obtain ⟨pauses, hruns, hpauses⟩ := hscan.append hrest
    have hruns : Constructs D m pauses { u with recoverPhase := .done } := hruns
    exact ⟨pauses, _, hruns.safely hpauses (hustart.symm ▸ hzero) (huend.symm ▸ hzero)
      ⟨rfl, hufresh.2, hufresh.3, hufresh.4, hufresh.5, hufresh.6⟩⟩

/-- Recovering safely does not come to a block that runs over the end of the flash; where the addresses behind the
flash do not wrap. -/
theorem RecoversSafely.blocksInside {pauses : List Store} (hwide : D.totalSize + D.sizeOfEachSector + 65538 ≤ 2 ^ 32)
    (hsafe : RecoversSafely D m pauses t) : BlocksInside D m := by
  intro g hg
  obtain ⟨phase, a, hp, hne, u, hends, hfresh, hv⟩ := hg.scans
  obtain ⟨first, hscan, -⟩ := hends
  have hconstructs : Runs ([.forEach sectorIndexVariable 0 (UInt32.ofNat D.numberOfSectors) (recoverSector D)] ++
      (recover D).tail) { flash := m } pauses t := hsafe.constructs
  obtain ⟨first', u', rest, hscan', htail, hpauses⟩ := runs_append.mp hconstructs
  obtain ⟨rfl, rfl⟩ := Runs.unique hscan hscan'
  have hindex : u.sectorIndex = UInt32.ofNat D.numberOfSectors := by
    obtain ⟨w, ⟨_, hw, -⟩, -, hwindex, -⟩ := scan_judged D m
    obtain ⟨-, rfl⟩ := Runs.unique hscan hw
    exact hwindex
  simp only [verdict, Prod.mk.injEq] at hv
  obtain ⟨hphase, hstart, hend⟩ := hv
  have haccepted : (u.recoverPhase == .corrupt || u.recoverPhase == .searchingStartOrEmpty) = false := by
    rw [hphase]
    exact hp.condition
  have hdiffers : (u.endAddress != u.startAddress) = true := by
    rw [hstart, hend]
    exact bne_iff_ne.mpr hne
  have htail := runs_ifBlock.mp htail
  rw [haccepted, if_neg Bool.false_ne_true] at htail
  have htail := runs_ifBlock.mp htail
  rw [hdiffers, if_pos rfl] at htail
  obtain ⟨rest', hwalk, hrest⟩ := runs_step.mp htail
  rw [recoverEndAddress_start hg.1 hfresh.flash hend] at hwalk hrest
  obtain ⟨turns, w, last, hloop, hdone, hturns⟩ := runs_append.mp (show Runs (recoverLoop D ++ _) _ rest' t from hwalk)
  obtain ⟨-, rfl⟩ := runs_nil.mp (runs_execute.mp hdone)
  have hall : ∀ p ∈ pauses, flashAddress D p < D.totalSize := hsafe.flashAddress_lt
  have hat : ∀ b h, flashAddress D (u.at b h) < D.totalSize → b < D.totalSize := by
    intro b h hb
    rwa [flashAddress_behind (s := u.at b h) hindex] at hb
  have hfirst : firstHeader D g < D.totalSize := by
    refine hat _ (D.readHeader m (firstHeader D g)) (hall _ ?_)
    rw [hpauses, hrest]
    exact List.mem_append_right _ List.mem_cons_self
  have hends : EndsIn (fun p => flashAddress D p < D.totalSize) (recoverLoop D)
      (u.at (firstHeader D g) (D.readHeader m (firstHeader D g))) w := by
    refine ⟨turns, hloop, fun p hp => hall p ?_⟩
    rw [hpauses, hrest, hturns]
    exact List.mem_append_right _ (List.mem_cons_of_mem _ (List.mem_append_left _ hp))
  have hlast : w.endAddress < D.totalSize := hsafe.endAddress_lt
  exact ⟨hfirst, fun a hv hblock => not_runsOver hwide hfresh.flash hat hfirst hlast hends hv hblock⟩

/-- **Recovering from any contents.** It comes to its end, reads inside of the flash and leaves the ring inside of it,
when no block that the walk comes to runs over the end of the flash; and only then, if the flash leaves room for another
sector and the longest block in the address space. -/
theorem recover_safe_iff (D : Device) (m : Memory) :
    (BlocksInside D m → ∃ pauses t, RecoversSafely D m pauses t) ∧
      (D.totalSize + D.sizeOfEachSector + 65538 ≤ 2 ^ 32 →
        ((∃ pauses t, RecoversSafely D m pauses t) ↔ BlocksInside D m)) := by
  refine ⟨fun hm => hm.recovers, fun hwide => ⟨?_, fun hm => hm.recovers⟩⟩
  rintro ⟨pauses, t, hsafe⟩
  exact hsafe.blocksInside hwide

/-- The first sector has a record of one byte, the second one is erased. -/
def recordOfOne : Memory := fun a =>
  if a = 0 then SectorStatus.firstInCycle else if a = 1 then dataReady
  else if a = 2 then 1 else if a = 3 then 0 else if a = 4 then 7 else 0xff

theorem recover_safe_record : ∃ pauses t, RecoversSafely tinyDevice recordOfOne pauses t := by
  refine ((recover_safe_iff tinyDevice recordOfOne).2 (by decide)).mpr ?_
  rintro g ⟨hg, hpattern⟩
  have hlt : g < 2 := hg
  have hone : g = 1 := by
    rcases hpattern with ⟨hpos, -⟩ | ⟨hempty, -⟩
    · omega
    · by_contra hc
      obtain rfl : g = 0 := by omega
      exact absurd hempty (by decide)
  subst hone
  refine ⟨by decide, ?_⟩
  intro a hv hblock
  clear hblock
  have hvisited : a = 1 ∨ a = 5 := by
    induction hv with
    | first => exact Or.inl rfl
    | next _ _ hb ih =>
        rcases ih with rfl | rfl
        · have hnext : nextHeader tinyDevice 1 (tinyDevice.readHeader recordOfOne 1) = some 5 := by decide
          exact Or.inr (Option.some.inj (hb.symm.trans hnext))
        · have hnext : nextHeader tinyDevice 5 (tinyDevice.readHeader recordOfOne 5) = none := by decide
          exact absurd (hnext.symm.trans hb) (Option.some_ne_none _).symm
  rcases hvisited with rfl | rfl
  all_goals unfold RunsOver; decide

/-- In the second sector data of a length of 100 bytes is being written; the first one is erased. -/
def lengthOfHundred : Memory := fun a =>
  if a = 10 then SectorStatus.used else if a = 11 then writingData
  else if a = 12 then 100 else if a = 13 then 0 else 0xff

/-- The length is followed out of the flash, and the ring ends there. -/
theorem recover_leaves_flash : (∃ pauses t p, Constructs tinyDevice lengthOfHundred pauses t ∧
      p ∈ pauses ∧ flashAddress tinyDevice p = 114 ∧ t.endAddress = 114 ∧ tinyDevice.totalSize = 20) ∧
    ¬ ∃ pauses t, RecoversSafely tinyDevice lengthOfHundred pauses t := by
  obtain ⟨pauses, t, p, hruns, hp, hat, hend⟩ : ∃ pauses t p, Constructs tinyDevice lengthOfHundred pauses t ∧
      p ∈ pauses ∧ flashAddress tinyDevice p = 114 ∧ t.endAddress = 114 :=
    ⟨_, _, _, Runs.of_interpret (n := 40) rfl, List.mem_of_getLast? rfl, rfl, rfl⟩
  refine ⟨⟨pauses, t, p, hruns, hp, hat, hend, by decide⟩, ?_⟩
  rintro ⟨pauses', t', hsafe⟩
  obtain ⟨-, rfl⟩ := Runs.unique hruns hsafe.constructs
  have hlt := hsafe.endAddress_lt
  rw [hend] at hlt
  exact absurd hlt (by decide)

end EmbeddedInfra.CyclicStore
