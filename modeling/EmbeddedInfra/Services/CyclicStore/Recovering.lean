import EmbeddedInfra.Services.CyclicStore.Adding

set_option autoImplicit false

/-! # Recovering the store

The constructor of the store recovers where the ring begins and where it ends. It reads the status
of all sectors in the order of their addresses, and judges the pattern they form; if the pattern
leaves room at the end, the blocks of the newest sector are followed to their end.
-/

namespace EmbeddedInfra.CyclicStore

open NorMemory Sequencer FlashHomogeneous

variable {D : Device} {m : Memory} {F : Nat → Sector}

/-! ## Reading the status of all sectors -/

/-- A store that has not done anything but recovering from the contents `m`. -/
structure Fresh (m : Memory) (s : Store) : Prop where
  flash : s.flash = m
  partialAddStarted : s.partialAddStarted = false
  partialSizeWritten : s.partialSizeWritten = 0
  remainingPartialSize : s.remainingPartialSize = 0
  assertionFailed : s.assertionFailed = false
  iterators : s.iterators = []

/-- What the scan has found out. -/
def verdict (s : Store) : RecoverPhase × Nat × Nat := (s.recoverPhase, s.startAddress, s.endAddress)

/-- Judging a sector changes nothing but the verdict. -/
theorem classifySector_eq (s : Store) : ∃ phase startAddress endAddress, classifySector D s
    = { s with recoverPhase := phase, startAddress := startAddress, endAddress := endAddress } := by
  unfold classifySector
  dsimp only
  split
  · split <;> exact ⟨_, _, _, rfl⟩
  · split
    · split <;> exact ⟨_, _, _, rfl⟩
    · split
      · split <;> exact ⟨_, _, _, rfl⟩
      · exact ⟨_, _, _, rfl⟩

theorem Fresh.classifySector {s : Store} (h : Fresh m s) : Fresh m (classifySector D s) := by
  obtain ⟨phase, startAddress, endAddress, heq⟩ := classifySector_eq (D := D) s
  rw [heq]
  exact { h with }

theorem toNat_index {e : Nat} (he : e ≤ D.numberOfSectors) : (UInt32.ofNat e).toNat = e := by
  have h1 := D.fits
  have h2 := Nat.mul_le_mul_left D.numberOfSectors D.size_pos
  rw [Nat.mul_one] at h2
  rw [UInt32.toNat_ofNat']
  exact Nat.mod_eq_of_lt (by omega)

/-- A store that has read the status of one of the sectors. -/
structure Scanning (D : Device) (m : Memory) (s : Store) : Prop extends Fresh m s where
  sectorIndex : s.sectorIndex.toNat < D.numberOfSectors

/-- The scan, followed with what holds of the verdict after `e` sectors. -/
theorem scan_spec {st : Nat → UInt8} (hst : ∀ e < D.numberOfSectors, D.readStatus m (e * D.sizeOfEachSector) = st e)
    (P : Nat → RecoverPhase × Nat × Nat → Prop)
    (hstep : ∀ e < D.numberOfSectors, ∀ s : Store, s.sectorIndex = UInt32.ofNat e →
      s.sectorStatus = st e → P e (verdict s) → P (e + 1) (verdict (classifySector D s))) (k : Nat) :
    ∀ e, e + k = D.numberOfSectors → ∀ s, Fresh m s → s.sectorIndex = UInt32.ofNat e → P e (verdict s) →
      ∃ t, EndsIn (Scanning D m) [.whileLoop
          (sectorIndexVariable.differs (UInt32.ofNat D.numberOfSectors))
          (recoverSector D ++ [.execute sectorIndexVariable.increment])] s t ∧
        Fresh m t ∧ t.sectorIndex = UInt32.ofNat D.numberOfSectors ∧ P D.numberOfSectors (verdict t) := by
  induction k with
  | zero =>
      intro e he s hs hi hv
      obtain rfl : e = D.numberOfSectors := by omega
      refine ⟨s, .whileFalse ?_ (.nil _), hs, hi, hv⟩
      simp [sectorIndexVariable, hi]
  | succ k ih =>
      intro e he s hs hi hv
      have hlt : e < D.numberOfSectors := by omega
      have hdiff : (sectorIndexVariable.get s != UInt32.ofNat D.numberOfSectors) = true := by
        refine bne_iff_ne.mpr (fun heq => ?_)
        have heq' : (UInt32.ofNat e).toNat = (UInt32.ofNat D.numberOfSectors).toNat := by
          rw [← hi]
          exact congrArg UInt32.toNat heq
        rw [toNat_index (D := D) (by omega), toNat_index (D := D) (Nat.le_refl _)] at heq'
        omega
      have hread : ({ s with
          sectorStatus := D.readStatus s.flash (D.addressOfSector s.sectorIndex.toNat) } : Store)
          = { s with sectorStatus := st e } := by
        rw [hi, toNat_index (D := D) (by omega), addressOfSector_eq (by omega), hs.flash,
          hst e hlt]
      obtain ⟨s', hs'⟩ : ∃ s' : Store, s' = { s with sectorStatus := st e } := ⟨_, rfl⟩
      have hfresh : Fresh m s' := by
        rw [hs']
        exact { hs with }
      have hindex : s'.sectorIndex = UInt32.ofNat e := hs' ▸ hi
      have hscanning : Scanning D m s' := by
        refine ⟨hfresh, ?_⟩
        rw [hindex, toNat_index (D := D) (by omega)]
        exact hlt
      have hfresh' := hfresh.classifySector (D := D)
      have hv' : P (e + 1) (verdict (classifySector D s')) :=
        hstep e hlt s' hindex (by rw [hs']) (by rw [hs']; exact hv)
      have hi' : (classifySector D s').sectorIndex = UInt32.ofNat e := by
        obtain ⟨phase, startAddress, endAddress, heq⟩ := classifySector_eq (D := D) s'
        rw [heq]
        exact hindex
      obtain ⟨t, hends, ht⟩ := ih (e + 1) (by omega)
        (sectorIndexVariable.increment (classifySector D s'))
        { hfresh' with }
        (by
          show (classifySector D s').sectorIndex + 1 = _
          rw [hi', UInt32.ofNat_add]
          rfl) hv'
      refine ⟨t, .whileTrue hdiff ?_ hends, ht⟩
      refine .stepTo (hread.trans hs'.symm) hscanning (.execute (.execute (.nil _)))

/-! ## The patterns of statuses -/

section

variable {s : Store} {e a b : Nat} {phase : RecoverPhase}

theorem verdict_first (he : e < D.numberOfSectors) (hi : s.sectorIndex = UInt32.ofNat e)
    (hs : s.sectorStatus = SectorStatus.firstInCycle)
    (hv : verdict s = (.searchingStartOrEmpty, a, b)) :
    verdict (classifySector D s)
      = (if e = 0 then .checkingUsedFollowedByEmpty else .checkingAllUsed,
          e * D.sizeOfEachSector, e * D.sizeOfEachSector) := by
  have hp : s.recoverPhase = .searchingStartOrEmpty := congrArg Prod.fst hv
  have hzero : UInt32.ofNat e = 0 ↔ e = 0 := by
    rw [← UInt32.toNat_inj, toNat_index (Nat.le_of_lt he)]
    rfl
  unfold classifySector
  rw [hs, hp, hi, toNat_index (Nat.le_of_lt he),
    addressOfSector_eq (Nat.le_of_lt he)]
  simp [verdict, hzero]

/-- A used sector leaves these phases as they are. -/
theorem verdict_used (hs : s.sectorStatus = SectorStatus.used) (hv : verdict s = (phase, a, b))
    (hp : phase = .searchingStartOrEmpty ∨ phase = .checkingUsedFollowedByEmpty ∨
      phase = .checkingAllUsed) : verdict (classifySector D s) = (phase, a, b) := by
  have hphase : s.recoverPhase = phase := congrArg Prod.fst hv
  rw [← hv]
  unfold classifySector
  rcases hp with rfl | rfl | rfl <;>
    simp [verdict, hs, hphase, SectorStatus.used, SectorStatus.firstInCycle]

theorem verdict_used_after_empty (hs : s.sectorStatus = SectorStatus.used)
    (hv : verdict s = (.checkingAllUsedOrAllEmpty, a, b)) :
    verdict (classifySector D s) = (.checkingAllUsed, a, b) := by
  simp only [verdict, Prod.mk.injEq] at hv
  obtain ⟨hp, rfl, rfl⟩ := hv
  unfold classifySector
  simp [verdict, hs, hp, SectorStatus.used, SectorStatus.firstInCycle]

/-- The first empty sector, when no first one has been seen. -/
theorem verdict_empty_searching (he : e < D.numberOfSectors) (hi : s.sectorIndex = UInt32.ofNat e)
    (hs : s.sectorStatus = SectorStatus.empty)
    (hv : verdict s = (.searchingStartOrEmpty, a, b)) :
    verdict (classifySector D s) = (.checkingAllUsedOrAllEmpty,
      D.nextSector e * D.sizeOfEachSector, e * D.sizeOfEachSector) := by
  simp only [verdict, Prod.mk.injEq] at hv
  obtain ⟨hp, -, -⟩ := hv
  have hnext := FlashHomogeneous.startOfNextSectorCyclical_eq (f := D.toFlashHomogeneous) he D.size_pos
  rw [Nat.add_zero] at hnext
  unfold classifySector
  rw [hi, toNat_index (Nat.le_of_lt he), FlashHomogeneous.addressOfSector_eq (Nat.le_of_lt he)]
  simp [verdict, hs, hp, hnext, SectorStatus.used, SectorStatus.firstInCycle, SectorStatus.empty]

/-- The first empty sector after used ones. -/
theorem verdict_empty_after_used (he : e < D.numberOfSectors) (hi : s.sectorIndex = UInt32.ofNat e)
    (hs : s.sectorStatus = SectorStatus.empty)
    (hv : verdict s = (.checkingUsedFollowedByEmpty, a, b)) :
    verdict (classifySector D s) = (.checkingAllEmpty, a, e * D.sizeOfEachSector) := by
  simp only [verdict, Prod.mk.injEq] at hv
  obtain ⟨hp, rfl, -⟩ := hv
  unfold classifySector
  rw [hi, toNat_index (Nat.le_of_lt he), FlashHomogeneous.addressOfSector_eq (Nat.le_of_lt he)]
  simp [verdict, hs, hp, SectorStatus.used, SectorStatus.firstInCycle, SectorStatus.empty]

theorem verdict_empty_again (hs : s.sectorStatus = SectorStatus.empty)
    (hv : verdict s = (.checkingAllUsedOrAllEmpty, a, b)) :
    verdict (classifySector D s) = (.checkingAllEmpty, 0, 0) := by
  simp only [verdict, Prod.mk.injEq] at hv
  obtain ⟨hp, -, -⟩ := hv
  unfold classifySector
  simp [verdict, hs, hp, SectorStatus.used, SectorStatus.firstInCycle, SectorStatus.empty]

theorem verdict_empty_last (hs : s.sectorStatus = SectorStatus.empty)
    (hv : verdict s = (.checkingAllEmpty, a, b)) :
    verdict (classifySector D s) = (.checkingAllEmpty, a, b) := by
  simp only [verdict, Prod.mk.injEq] at hv
  obtain ⟨hp, rfl, rfl⟩ := hv
  unfold classifySector
  simp [verdict, hs, hp, SectorStatus.used, SectorStatus.firstInCycle, SectorStatus.empty]

end

/-- The scan of all sectors, from the beginning. -/
def Scans (D : Device) (m : Memory) (v : RecoverPhase × Nat × Nat) : Prop :=
  ∃ t, EndsIn (Fresh m) [.forEach sectorIndexVariable 0 (UInt32.ofNat D.numberOfSectors)
      (recoverSector D)] { flash := m } t ∧ Fresh m t ∧ verdict t = v

theorem scans_of_expected {st : Nat → UInt8}
    (hst : ∀ e < D.numberOfSectors, D.readStatus m (e * D.sizeOfEachSector) = st e)
    (expected : Nat → RecoverPhase × Nat × Nat)
    (h0 : expected 0 = (.searchingStartOrEmpty, 0, 0))
    (hstep : ∀ e < D.numberOfSectors, ∀ s : Store, s.sectorIndex = UInt32.ofNat e →
      s.sectorStatus = st e → verdict s = expected e →
      verdict (classifySector D s) = expected (e + 1)) :
    Scans D m (expected D.numberOfSectors) := by
  obtain ⟨t, hends, hfresh, -, hv⟩ := scan_spec hst (fun e v => v = expected e) hstep D.numberOfSectors 0 (by omega)
    { flash := m } ⟨rfl, rfl, rfl, rfl, rfl, rfl⟩ rfl h0.symm
  exact ⟨t, .forEach (hends.mono fun s h => h.toFresh), hfresh, hv⟩

section

variable {k f : Nat} {st : Nat → UInt8}

/-- All sectors are erased. -/
theorem scans_erased (hF : Holds D m (fun _ => .erased)) : Scans D m (.checkingAllEmpty, 0, 0) := by
  have h2 := D.two_le
  have h := scans_of_expected (fun e he => readStatus_eq hF he) (fun e => if e = 0 then (.searchingStartOrEmpty, 0, 0) else
    if e = 1 then (.checkingAllUsedOrAllEmpty, D.nextSector 0 * D.sizeOfEachSector, 0) else
    (.checkingAllEmpty, 0, 0)) rfl ?_
  · rwa [if_neg (by omega), if_neg (by omega)] at h
  · intro e he s hi hs hv
    rcases Nat.lt_trichotomy e 1 with h0 | rfl | h1
    · obtain rfl : e = 0 := by omega
      have hj := verdict_empty_searching he hi hs hv
      rw [Nat.zero_mul] at hj
      exact hj
    · exact verdict_empty_again hs hv
    · simp only [if_neg (show e ≠ 0 by omega), if_neg (show e ≠ 1 by omega)] at hv
      simp only [if_neg (show e + 1 ≠ 0 by omega), if_neg (show e + 1 ≠ 1 by omega)]
      exact verdict_empty_last hs hv

section

variable (hst : ∀ e < D.numberOfSectors, D.readStatus m (e * D.sizeOfEachSector) = st e)
include hst

/-- The first `k` sectors are in use, and the cycle begins with the first one. -/
theorem scans_prefix (hk : 0 < k)
    (hfirst : st 0 = SectorStatus.firstInCycle)
    (hused : ∀ e, 0 < e → e < k → st e = SectorStatus.used)
    (hempty : ∀ e, k ≤ e → e < D.numberOfSectors → st e = SectorStatus.empty) :
    Scans D m (if D.numberOfSectors ≤ k then (.checkingUsedFollowedByEmpty, 0, 0)
      else (.checkingAllEmpty, 0, k * D.sizeOfEachSector)) := by
  have hpos := D.sectors_pos
  have h := scans_of_expected hst (fun e => if e = 0 then (.searchingStartOrEmpty, 0, 0) else
    if e ≤ k then (.checkingUsedFollowedByEmpty, 0, 0) else
    (.checkingAllEmpty, 0, k * D.sizeOfEachSector)) rfl ?_
  · rwa [if_neg (by omega)] at h
  · intro e he s hi hs hv
    by_cases h0 : e = 0
    · subst h0
      have hj := verdict_first he hi (hs.trans hfirst) hv
      rw [if_pos rfl, Nat.zero_mul] at hj
      simpa [show 1 ≤ k by omega] using hj
    · simp only [if_neg h0] at hv
      simp only [if_neg (show e + 1 ≠ 0 by omega)]
      by_cases hlt : e < k
      · rw [if_pos (by omega)] at hv ⊢
        exact verdict_used (hs.trans (hused e (by omega) hlt)) hv (.inr (.inl rfl))
      · have hstatus := hs.trans (hempty e (by omega) he)
        by_cases heq : e = k
        · subst heq
          rw [if_pos (by omega)] at hv
          rw [if_neg (by omega)]
          exact verdict_empty_after_used he hi hstatus hv
        · rw [if_neg (by omega)] at hv ⊢
          exact verdict_empty_last hstatus hv

/-- All sectors are in use, and the cycle begins with a later one. -/
theorem scans_all (hf : f < D.numberOfSectors) (hpos : 0 < f)
    (hfirst : st f = SectorStatus.firstInCycle)
    (hused : ∀ e < D.numberOfSectors, e ≠ f → st e = SectorStatus.used) :
    Scans D m (.checkingAllUsed, f * D.sizeOfEachSector, f * D.sizeOfEachSector) := by
  have h := scans_of_expected hst (fun e => if e ≤ f then (.searchingStartOrEmpty, 0, 0) else
    (.checkingAllUsed, f * D.sizeOfEachSector, f * D.sizeOfEachSector)) rfl ?_
  · rwa [if_neg (by omega)] at h
  · intro e he s hi hs hv
    rcases Nat.lt_trichotomy e f with hlt | rfl | hgt
    · simp only [if_pos (show e ≤ f by omega)] at hv
      simp only [if_pos (show e + 1 ≤ f by omega)]
      exact verdict_used (hs.trans (hused e he (by omega))) hv (.inl rfl)
    · simp only [if_pos (Nat.le_refl e)] at hv
      simp only [if_neg (show ¬ e + 1 ≤ e by omega)]
      have hj := verdict_first he hi (hs.trans hfirst) hv
      rwa [if_neg (by omega)] at hj
    · simp only [if_neg (show ¬ e ≤ f by omega)] at hv
      simp only [if_neg (show ¬ e + 1 ≤ f by omega)]
      exact verdict_used (hs.trans (hused e he (by omega))) hv (.inr (.inr rfl))

/-- One sector is erased, and no other one is the first. -/
theorem scans_gap (hf : f < D.numberOfSectors)
    (hempty : st f = SectorStatus.empty)
    (hused : ∀ e < D.numberOfSectors, e ≠ f → st e = SectorStatus.used) :
    ∃ phase, (phase = .checkingAllUsed ∨ phase = .checkingAllUsedOrAllEmpty) ∧
      Scans D m (phase, D.nextSector f * D.sizeOfEachSector, f * D.sizeOfEachSector) := by
  have h := scans_of_expected hst (fun e => if e ≤ f then (.searchingStartOrEmpty, 0, 0) else
    (if e = f + 1 then .checkingAllUsedOrAllEmpty else .checkingAllUsed,
      D.nextSector f * D.sizeOfEachSector, f * D.sizeOfEachSector)) rfl ?_
  · rw [if_neg (by omega)] at h
    refine ⟨_, ?_, h⟩
    by_cases hlast : D.numberOfSectors = f + 1
    · rw [if_pos hlast]
      exact .inr rfl
    · rw [if_neg hlast]
      exact .inl rfl
  · intro e he s hi hs hv
    rcases Nat.lt_trichotomy e f with hlt | rfl | hgt
    · simp only [if_pos (show e ≤ f by omega)] at hv
      simp only [if_pos (show e + 1 ≤ f by omega)]
      exact verdict_used (hs.trans (hused e he (by omega))) hv (.inl rfl)
    · simp only [if_pos (Nat.le_refl e)] at hv
      simp only [if_neg (show ¬ e + 1 ≤ e by omega), if_true]
      exact verdict_empty_searching he hi (hs.trans hempty) hv
    · have hstatus := hs.trans (hused e he (by omega))
      simp only [if_neg (show ¬ e ≤ f by omega)] at hv
      simp only [if_neg (show ¬ e + 1 ≤ f by omega), if_neg (show e + 1 ≠ f + 1 by omega)]
      by_cases heq : e = f + 1
      · rw [if_pos heq] at hv
        exact verdict_used_after_empty hstatus hv
      · rw [if_neg heq] at hv
        exact verdict_used hstatus hv (.inr (.inr rfl))

end

end

/-! ## Following the blocks of the newest sector -/

/-- The store with another end address and block header. -/
def Store.at (s : Store) (address : Nat) (h : BlockHeader) : Store :=
  { s with endAddress := address, blockHeader := h }

section

variable {I : Store → Prop} {s : Store} {e o : Nat} {h : BlockHeader}

/-- The loop of `RecoverEndAddress`. -/
def recoverLoop (D : Device) : List (Stmt Store) := [.whileLoop (test (blocksLeft D)) (recoverBlock D)]

/-- The loop ends at the start of a sector. -/
theorem recoverLoop_start (he : e < D.numberOfSectors) :
    EndsIn I (recoverLoop D) (s.at (e * D.sizeOfEachSector) h) (s.at (e * D.sizeOfEachSector) h) := by
  have hstart := atStartOfSector_eq (f := D.toFlashHomogeneous) he D.size_pos
  rw [Nat.add_zero] at hstart
  refine .whileFalse ?_ (.nil _)
  simp [blocksLeft, Store.at, hstart]

/-- The loop ends at erased bytes. -/
theorem recoverLoop_empty {a : Nat} (hh : h.status = BlockStatus.empty) :
    EndsIn I (recoverLoop D) (s.at a h) (s.at a h) := by
  refine .whileFalse ?_ (.nil _)
  simp [blocksLeft, Store.at, hh]

theorem recoverLoop_more (he : e < D.numberOfSectors) (ho : o < D.sizeOfEachSector) (hpos : 0 < o)
    (hh : h.status ≠ BlockStatus.empty) {t u : Store}
    (hbody : EndsIn I (recoverBlock D) (s.at (e * D.sizeOfEachSector + o) h) t)
    (hloop : EndsIn I (recoverLoop D) t u) :
    EndsIn I (recoverLoop D) (s.at (e * D.sizeOfEachSector + o) h) u := by
  refine .whileTrue ?_ hbody hloop
  have hstart : D.atStartOfSector (e * D.sizeOfEachSector + o) = false := by
    rw [FlashHomogeneous.atStartOfSector_eq he ho]
    exact decide_eq_false (by omega)
  simp [blocksLeft, Store.at, hstart, hh]

/-- The marker, or an invalid status. -/
theorem recoverBlock_other (he : e < D.numberOfSectors) (ho : o < D.sizeOfEachSector)
    (h1 : h.status ≠ BlockStatus.dataReady) (h2 : h.status ≠ BlockStatus.writingLength)
    (h3 : h.status ≠ BlockStatus.writingData) :
    EndsIn I (recoverBlock D) (s.at (e * D.sizeOfEachSector + o) h)
      (s.at (D.nextSector e * D.sizeOfEachSector) h) := by
  have hready : (h.status == BlockStatus.dataReady) = false := beq_eq_false_iff_ne.mpr h1
  have hlength : (h.status == BlockStatus.writingLength) = false := beq_eq_false_iff_ne.mpr h2
  have hdata : (h.status == BlockStatus.writingData) = false := beq_eq_false_iff_ne.mpr h3
  have hskip : skipSector D (s.at (e * D.sizeOfEachSector + o) h)
      = s.at (D.nextSector e * D.sizeOfEachSector) h := by
    simp only [skipSector, Store.at, startOfNextSectorCyclical_eq he ho]
  refine .ifFalse hready (.ifFalse hlength (.ifFalse hdata ?_))
  by_cases h4 : h.status = BlockStatus.emptyUntilEnd
  · refine .ifTrue (beq_iff_eq.mpr h4) (.execute ?_)
    rw [hskip]
    exact .nil _
  · refine .ifFalse (beq_eq_false_iff_ne.mpr h4) (.execute ?_)
    rw [hskip]
    exact .nil _

variable (hI : ∀ a h, I (s.at a h))
include hI

/-- A complete record. -/
theorem recoverBlock_ready (he : e < D.numberOfSectors) (hh : h.status = BlockStatus.dataReady)
    (ho : o + 3 + h.blockLength ≤ D.sizeOfEachSector) (hpos : 0 < h.blockLength) :
    ∃ h', EndsIn I (recoverBlock D) (s.at (e * D.sizeOfEachSector + o) h)
        (s.at (endOf D e (o + 3 + h.blockLength)) h') ∧
      (o + 3 + h.blockLength < D.sizeOfEachSector →
        h' = D.readHeader s.flash (e * D.sizeOfEachSector + (o + 3 + h.blockLength))) := by
  have hready : (h.status == BlockStatus.dataReady) = true := beq_iff_eq.mpr hh
  have hadvance : advance (fun _ => sizeofBlockHeader) (s.at (e * D.sizeOfEachSector + o) h)
      = s.at (e * D.sizeOfEachSector + (o + 3)) h := by
    simp only [advance, Store.at, sizeofBlockHeader, add32_inside he (show o + 3 ≤ _ by omega)]
  have hadd : add32 (e * D.sizeOfEachSector + (o + 3)) h.blockLength
      = e * D.sizeOfEachSector + (o + 3 + h.blockLength) := add32_inside he ho
  have hmul := mul_lt (f := D.toFlashHomogeneous) he
  have hsec := sectorOfAddress_eq (f := D.toFlashHomogeneous) (e := e)
    (show o + 3 < _ by omega)
  by_cases hlt : o + 3 + h.blockLength < D.sizeOfEachSector
  · refine ⟨_, .ifTrue hready (.execute ?_), fun _ => rfl⟩
    rw [hadvance, endOf_of_lt hlt]
    refine .ifTrue ?_ (.stepTo ?_ (hI _ _) (.nil _))
    · simp only [Store.at, hadd, hsec, sectorOfAddress_eq hlt,
        totalSize_eq, beq_self_eq_true, Bool.and_true]
      exact decide_eq_true (by omega)
    · simp only [loadHeader, advance, Store.at, hadd]
  · have hfull : o + 3 + h.blockLength = D.sizeOfEachSector := by omega
    refine ⟨h, .ifTrue hready (.execute ?_), fun hc => absurd hc hlt⟩
    rw [hadvance, hfull, endOf_size]
    refine .ifFalse ?_ (.execute ?_)
    · have hnext : D.sectorOfAddress (e * D.sizeOfEachSector + D.sizeOfEachSector) = e + 1 := by
        have := sectorOfAddress_eq (f := D.toFlashHomogeneous) (e := e + 1) D.size_pos
        rwa [Nat.add_zero, Nat.succ_mul] at this
      simp only [Store.at, hadd, hfull, hsec, hnext]
      simp
    · have hskip := startOfNextSectorCyclical_eq (f := D.toFlashHomogeneous) he
        (show o + 3 < _ by omega)
      simp only [skipSector, Store.at, hskip]
      exact .nil _

/-- A block whose length is being written. -/
theorem recoverBlock_length (hh : h.status = BlockStatus.writingLength)
    (ho : e * D.sizeOfEachSector + (o + 3) < 2 ^ 32) :
    EndsIn I (recoverBlock D) (s.at (e * D.sizeOfEachSector + o) h)
      (s.at (e * D.sizeOfEachSector + (o + 3))
        (D.readHeader s.flash (e * D.sizeOfEachSector + (o + 3)))) := by
  have hready : (h.status == BlockStatus.dataReady) = false := by rw [hh]; rfl
  have hlength : (h.status == BlockStatus.writingLength) = true := beq_iff_eq.mpr hh
  refine .ifFalse hready (.ifTrue hlength (.stepTo ?_ (hI _ _) (.nil _)))
  simp only [loadHeader, advance, Store.at, sizeofBlockHeader]
  rw [add32_of_lt (by omega), Nat.add_assoc]

/-- A record whose data is being written; its end is not after the end of the next sector. -/
theorem recoverBlock_data (he : e + 1 < D.numberOfSectors)
    (hh : h.status = BlockStatus.writingData)
    (ho : o + 3 + h.blockLength < 2 * D.sizeOfEachSector) :
    EndsIn I (recoverBlock D) (s.at (e * D.sizeOfEachSector + o) h)
      (s.at (e * D.sizeOfEachSector + (o + 3 + h.blockLength))
        (D.readHeader s.flash (e * D.sizeOfEachSector + (o + 3 + h.blockLength)))) := by
  have hready : (h.status == BlockStatus.dataReady) = false := by rw [hh]; rfl
  have hlength : (h.status == BlockStatus.writingLength) = false := by rw [hh]; rfl
  have hdata : (h.status == BlockStatus.writingData) = true := beq_iff_eq.mpr hh
  have hmul := mul_lt (f := D.toFlashHomogeneous) he
  have hfits := D.fits
  rw [Nat.succ_mul] at hmul
  have hadd : add32 (e * D.sizeOfEachSector + o) (3 + h.blockLength)
      = e * D.sizeOfEachSector + (o + 3 + h.blockLength) := by
    rw [add32_of_lt (by omega)]
    omega
  have hadvance : advance (fun h => sizeofBlockHeader + h.blockLength)
      (s.at (e * D.sizeOfEachSector + o) h)
      = s.at (e * D.sizeOfEachSector + (o + 3 + h.blockLength)) h := by
    simp only [advance, Store.at, sizeofBlockHeader, hadd]
  refine .ifFalse hready (.ifFalse hlength (.ifTrue hdata (.execute ?_)))
  rw [hadvance]
  refine .ifTrue ?_ (.stepTo ?_ (hI _ _) (.nil _))
  · -- the offset in the sector never exceeds the size of the sector
    have hoff : D.addressOffsetInSector (e * D.sizeOfEachSector + (o + 3 + h.blockLength))
        ≤ D.sizeOfEachSector := by
      by_cases hin : o + 3 + h.blockLength < D.sizeOfEachSector
      · rw [addressOffsetInSector_eq (by omega) hin]
        omega
      · have haddr : e * D.sizeOfEachSector + (o + 3 + h.blockLength)
            = (e + 1) * D.sizeOfEachSector + (o + 3 + h.blockLength - D.sizeOfEachSector) := by
          rw [Nat.succ_mul]
          omega
        rw [haddr, addressOffsetInSector_eq he (by omega)]
        omega
    exact decide_eq_true hoff
  · simp only [loadHeader, Store.at]

/-! ### Well-formed blocks -/

/-- Blocks that lead to the end of the data. -/
def Scannable (D : Device) (e : Nat) : List Block → List Block → Prop
  | _, [] => True
  | done, .ready d :: rest =>
      d ≠ [] ∧ d.length < 65536 ∧ Scannable D e (done ++ [.ready d]) rest
  | done, .lengthPending lsb msb :: rest =>
      1 + size done + 3 < D.sizeOfEachSector ∧
        Scannable D e (done ++ [.lengthPending lsb msb]) rest
  | done, .dataPending d :: rest =>
      d.length < 65536 ∧ e + 1 < D.numberOfSectors ∧ Scannable D e (done ++ [.dataPending d]) rest

omit hI in
theorem Block.header_ne_empty (b : Block) : b.header.status ≠ BlockStatus.empty := by
  cases b with
  | ready d => show BlockStatus.dataReady ≠ BlockStatus.empty; decide
  | lengthPending lsb msb => show BlockStatus.writingLength ≠ BlockStatus.empty; decide
  | dataPending d => show BlockStatus.writingData ≠ BlockStatus.empty; decide

theorem recoverLoop_blocks {first closed : Bool} {done rest : List Block} {a : Nat}
    (hF : Holds D s.flash F) (he : e < D.numberOfSectors)
    (hsec : F e = .inUse first (done ++ rest) closed) (hw : Scannable D e done rest)
    (ha : a = endOf D e (1 + size done))
    (hh : 1 + size done < D.sizeOfEachSector →
      h = D.readHeader s.flash (e * D.sizeOfEachSector + (1 + size done))) :
    ∃ h', EndsIn I (recoverLoop D) (s.at a h) (s.at (endOf D e
      (if closed then D.sizeOfEachSector else 1 + size (done ++ rest))) h') := by
  induction rest generalizing done a h with
  | nil =>
      rw [List.append_nil] at hsec ⊢
      have hle := size_le_sector hF he hsec
      by_cases hlt : 1 + size done < D.sizeOfEachSector
      · have hstatus := readHeader_of_tail hF he hsec hlt
        rw [← hh hlt] at hstatus
        rw [endOf_of_lt hlt] at ha
        rw [ha]
        cases closed with
        | true =>
            rw [if_pos rfl] at hstatus ⊢
            rw [endOf_size]
            refine ⟨h, recoverLoop_more he hlt (by omega) ?_ (recoverBlock_other he hlt ?_ ?_ ?_)
              (recoverLoop_start (nextSector_lt _ _))⟩ <;>
              rw [hstatus] <;> decide
        | false =>
            rw [if_neg (by simp)] at hstatus ⊢
            rw [endOf_of_lt hlt]
            exact ⟨h, recoverLoop_empty hstatus⟩
      · have hfull : 1 + size done = D.sizeOfEachSector := by omega
        rw [ha, hfull, ite_self, endOf_size]
        exact ⟨h, recoverLoop_start (nextSector_lt _ _)⟩
  | cons b rest ih =>
      have hle := size_le hF he hsec
      rw [size_cons] at hle
      have hlt : 1 + size done < D.sizeOfEachSector := by omega
      have hassoc : done ++ b :: rest = (done ++ [b]) ++ rest := by simp
      have hsec' : F e = .inUse first ((done ++ [b]) ++ rest) closed := hassoc ▸ hsec
      have hheader : h = b.header := (hh hlt).trans (readHeader_of_block hF he hsec)
      have hsize : 1 + size (done ++ [b]) = 1 + size done + 3 + b.body.length := by
        rw [size_append, size_cons, size_nil]
        omega
      rw [endOf_of_lt hlt] at ha
      rw [ha, hheader, hassoc]
      cases b with
      | ready d =>
          obtain ⟨hd, hlen, hw⟩ := hw
          have hpos : 0 < d.length := List.length_pos_iff.mpr hd
          have hbl : (Block.ready d).header.blockLength = d.length := blockLength_ofNat hlen
          rw [show (Block.ready d).body = d from rfl] at hle hsize
          obtain ⟨h₁, hblock, hh₁⟩ := recoverBlock_ready (o := 1 + size done)
            (h := (Block.ready d).header) hI he rfl (by omega) (by omega)
          rw [hbl, ← hsize] at hblock hh₁
          obtain ⟨h', hloop⟩ := ih hsec' hw rfl hh₁
          exact ⟨h', recoverLoop_more he hlt (by omega) (Block.header_ne_empty _) hblock hloop⟩
      | lengthPending lsb msb =>
          obtain ⟨hroom, hw⟩ := hw
          rw [show (Block.lengthPending lsb msb).body.length = 0 from rfl, Nat.add_zero] at hsize
          have hblock := recoverBlock_length (o := 1 + size done)
            (h := (Block.lengthPending lsb msb).header) hI rfl
            (address_lt he (by omega))
          rw [← hsize] at hblock hroom
          obtain ⟨h', hloop⟩ := ih hsec' hw (endOf_of_lt hroom).symm (fun _ => rfl)
          exact ⟨h', recoverLoop_more he hlt (by omega) (Block.header_ne_empty _) hblock hloop⟩
      | dataPending d =>
          obtain ⟨hlen, hnext, hw⟩ := hw
          have hbl : (Block.dataPending d).header.blockLength = d.length := blockLength_ofNat hlen
          rw [show (Block.dataPending d).body = d from rfl] at hle hsize
          have hblock := recoverBlock_data (o := 1 + size done)
            (h := (Block.dataPending d).header) hI hnext rfl (by omega)
          rw [hbl, ← hsize] at hblock
          have haddr : e * D.sizeOfEachSector + (1 + size (done ++ [.dataPending d]))
              = endOf D e (1 + size (done ++ [.dataPending d])) := by
            by_cases hfull : 1 + size (done ++ [.dataPending d]) = D.sizeOfEachSector
            · rw [hfull, endOf_size, add_size hnext]
            · rw [endOf_of_lt (by omega)]
          obtain ⟨h', hloop⟩ := ih hsec' hw haddr (fun _ => rfl)
          exact ⟨h', recoverLoop_more he hlt (by omega) (Block.header_ne_empty _) hblock hloop⟩

/-! ### Large records

The length of a record is stored in 16 bits. In a sector that is large enough for a longer record
the loop may be led astray, but not beyond the erased sector that follows. -/

omit hI in
theorem readHeader_of_erased (hF : Holds D s.flash F) (he : e < D.numberOfSectors)
    (hsec : F e = .erased) (ho : o < D.sizeOfEachSector) :
    (D.readHeader s.flash (e * D.sizeOfEachSector + o)).status = BlockStatus.empty := by
  obtain ⟨-, hread⟩ := hF e he
  rw [hsec] at hread
  obtain ⟨k, hk⟩ : ∃ k, D.sizeOfEachSector = o + (k + 1) := ⟨D.sizeOfEachSector - o - 1, by omega⟩
  refine readHeader_status he (p := List.replicate o blank) (r := List.replicate k blank) ?_
    (List.length_replicate ..)
  rw [hread]
  show List.replicate D.sizeOfEachSector blank = _
  rw [hk, List.replicate_add, List.replicate_succ]
  rfl

/-- A complete record, whatever its length. -/
theorem recoverBlock_ready_any (he : e + 1 < D.numberOfSectors)
    (hh : h.status = BlockStatus.dataReady) (ho : o < D.sizeOfEachSector)
    (hS : 65540 ≤ D.sizeOfEachSector) :
    EndsIn I (recoverBlock D) (s.at (e * D.sizeOfEachSector + o) h)
        (s.at (e * D.sizeOfEachSector + (o + 3 + h.blockLength))
          (D.readHeader s.flash (e * D.sizeOfEachSector + (o + 3 + h.blockLength)))) ∨
      ∃ e' < D.numberOfSectors, EndsIn I (recoverBlock D) (s.at (e * D.sizeOfEachSector + o) h)
        (s.at (e' * D.sizeOfEachSector) h) := by
  have hready : (h.status == BlockStatus.dataReady) = true := beq_iff_eq.mpr hh
  have hmul := mul_lt (f := D.toFlashHomogeneous) he
  have hfits := D.fits
  have hbl := blockLength_lt h
  rw [Nat.succ_mul] at hmul
  have hadvance : advance (fun _ => sizeofBlockHeader) (s.at (e * D.sizeOfEachSector + o) h)
      = s.at (e * D.sizeOfEachSector + (o + 3)) h := by
    simp only [advance, Store.at, sizeofBlockHeader]
    rw [add32_of_lt (by omega), Nat.add_assoc]
  have hadd : add32 (e * D.sizeOfEachSector + (o + 3)) h.blockLength
      = e * D.sizeOfEachSector + (o + 3 + h.blockLength) := by
    rw [add32_of_lt (by omega), Nat.add_assoc]
  by_cases hin : (decide (e * D.sizeOfEachSector + (o + 3 + h.blockLength) ≤ D.totalSize)
      && D.sectorOfAddress (e * D.sizeOfEachSector + (o + 3))
        == D.sectorOfAddress (e * D.sizeOfEachSector + (o + 3 + h.blockLength))) = true
  · left
    refine .ifTrue hready (.execute ?_)
    rw [hadvance]
    refine .ifTrue ?_ (.stepTo ?_ (hI _ _) (.nil _))
    · simp only [Store.at, hadd]
      exact hin
    · simp only [loadHeader, advance, Store.at, hadd]
  · right
    -- the next sector, seen from behind the header
    obtain ⟨e', he', hskip⟩ : ∃ e' < D.numberOfSectors,
        D.startOfNextSectorCyclical (e * D.sizeOfEachSector + (o + 3))
          = e' * D.sizeOfEachSector := by
      by_cases hlt : o + 3 < D.sizeOfEachSector
      · exact ⟨_, nextSector_lt _ _,
          startOfNextSectorCyclical_eq (by omega) hlt⟩
      · have haddr : e * D.sizeOfEachSector + (o + 3)
            = (e + 1) * D.sizeOfEachSector + (o + 3 - D.sizeOfEachSector) := by
          rw [Nat.succ_mul]
          omega
        rw [haddr]
        exact ⟨_, nextSector_lt _ _,
          startOfNextSectorCyclical_eq he (by omega)⟩
    refine ⟨e', he', .ifTrue hready (.execute ?_)⟩
    rw [hadvance]
    refine .ifFalse ?_ (.execute ?_)
    · simp only [Store.at, hadd]
      exact Bool.eq_false_iff.mpr hin
    · simp only [skipSector, Store.at, hskip]
      exact .nil _

/-- The loop ends. -/
theorem recoverLoop_ends (hF : Holds D s.flash F) (he : e + 1 < D.numberOfSectors)
    (hnext : F (e + 1) = .erased) (hS : 65540 ≤ D.sizeOfEachSector) (n : Nat) :
    ∀ o, D.sizeOfEachSector ≤ o + n → 0 < o → o < 2 * D.sizeOfEachSector →
      ∃ a h', EndsIn I (recoverLoop D) (s.at (e * D.sizeOfEachSector + o)
        (D.readHeader s.flash (e * D.sizeOfEachSector + o))) (s.at a h') := by
  induction n with
  | zero =>
      intro o hn hpos ho
      have haddr : e * D.sizeOfEachSector + o
          = (e + 1) * D.sizeOfEachSector + (o - D.sizeOfEachSector) := by
        rw [Nat.succ_mul]
        omega
      rw [haddr]
      exact ⟨_, _, recoverLoop_empty (readHeader_of_erased hF he hnext (by omega))⟩
  | succ n ih =>
      intro o hn hpos ho
      by_cases hlt : D.sizeOfEachSector ≤ o + n
      · exact ih o hlt hpos ho
      · have hbl := blockLength_lt (D.readHeader s.flash (e * D.sizeOfEachSector + o))
        generalize hh : D.readHeader s.flash (e * D.sizeOfEachSector + o) = h at hbl
        -- every branch of the body leads further, or to the start of a sector
        have hstart : ∀ e' < D.numberOfSectors, EndsIn I (recoverBlock D)
            (s.at (e * D.sizeOfEachSector + o) h) (s.at (e' * D.sizeOfEachSector) h) →
            h.status ≠ BlockStatus.empty → ∃ a h', EndsIn I (recoverLoop D)
              (s.at (e * D.sizeOfEachSector + o) h) (s.at a h') := by
          intro e' he' hblock hne
          exact ⟨_, _, recoverLoop_more (by omega) (by omega) hpos hne hblock
            (recoverLoop_start he')⟩
        have hmore : ∀ o', o < o' → o' < 2 * D.sizeOfEachSector → EndsIn I (recoverBlock D)
            (s.at (e * D.sizeOfEachSector + o) h) (s.at (e * D.sizeOfEachSector + o')
              (D.readHeader s.flash (e * D.sizeOfEachSector + o'))) →
            h.status ≠ BlockStatus.empty → ∃ a h', EndsIn I (recoverLoop D)
              (s.at (e * D.sizeOfEachSector + o) h) (s.at a h') := by
          intro o' hlt' hle' hblock hne
          obtain ⟨a, h', hloop⟩ := ih o' (by omega) (by omega) hle'
          exact ⟨a, h', recoverLoop_more (by omega) (by omega) hpos hne hblock hloop⟩
        by_cases h0 : h.status = BlockStatus.empty
        · exact ⟨_, _, recoverLoop_empty h0⟩
        by_cases h1 : h.status = BlockStatus.dataReady
        · rcases recoverBlock_ready_any (o := o) hI he h1 (by omega) hS with hblock | ⟨e', he', hblock⟩
          · exact hmore (o + 3 + h.blockLength) (by omega) (by omega) hblock h0
          · exact hstart e' he' hblock h0
        by_cases h2 : h.status = BlockStatus.writingLength
        · have hmul := mul_lt (f := D.toFlashHomogeneous) he
          have hfits := D.fits
          rw [Nat.succ_mul] at hmul
          exact hmore (o + 3) (by omega) (by omega) (recoverBlock_length hI h2 (by omega)) h0
        by_cases h3 : h.status = BlockStatus.writingData
        · exact hmore (o + 3 + h.blockLength) (by omega) (by omega)
            (recoverBlock_data hI he h3 (by omega)) h0
        exact hstart _ (nextSector_lt _ _)
          (recoverBlock_other (by omega) (by omega) h1 h2 h3) h0

end

/-! ## Recover -/

section

variable {phase : RecoverPhase} {a e : Nat}

/-- A recovered store: its flash has never changed. -/
structure Recovers (D : Device) (m : Memory) (startAddress endAddress : Nat) (pauses : List Store)
    (t : Store) : Prop where
  constructs : Constructs D m pauses t
  pauses_flash : ∀ p ∈ pauses, p.flash = m
  fresh : Fresh m t
  startAddress : t.startAddress = startAddress
  endAddress : t.endAddress = endAddress

/-- The pattern is one that leaves the flash as it is. -/
def Accepted (phase : RecoverPhase) : Prop := phase ≠ .corrupt ∧ phase ≠ .searchingStartOrEmpty

theorem Accepted.condition (h : Accepted phase) :
    (phase == .corrupt || phase == .searchingStartOrEmpty) = false := by
  cases phase <;> simp_all [Accepted]

/-- The ring ends where it begins: at the start of a sector. -/
theorem recovers_at_start (h : Scans D m (phase, a, a)) (hp : Accepted phase) :
    ∃ pauses t, Recovers D m a a pauses t := by
  obtain ⟨s, hends, hfresh, hv⟩ := h
  simp only [verdict, Prod.mk.injEq] at hv
  obtain ⟨hphase, hstart, hend⟩ := hv
  have hrest : EndsIn (Fresh m) (recover D).tail s { s with recoverPhase := .done } := by
    refine .ifFalse ?_ (.ifFalse ?_ (.execute (.nil _)))
    · rw [hphase]
      exact hp.condition
    · rw [hstart, hend]
      exact bne_self_eq_false a
  obtain ⟨pauses, hruns, hI⟩ := hends.append hrest
  exact ⟨pauses, _, hruns, fun p hp => (hI p hp).flash,
    { hfresh with }, hstart, hend⟩

/-- The end is found in the newest sector, `e`. -/
theorem recovers_in_sector {P : Nat → Prop} (h : Scans D m (phase, a, D.nextSector e * D.sizeOfEachSector))
    (hp : Accepted phase) (hne : D.nextSector e * D.sizeOfEachSector ≠ a)
    (he : e < D.numberOfSectors) (hS : 1 < D.sizeOfEachSector)
    (hloop : ∀ s : Store, s.flash = m → (∀ x hd, Fresh m (s.at x hd)) →
      ∃ b hd, P b ∧ EndsIn (Fresh m) (recoverLoop D) (s.at (e * D.sizeOfEachSector + 1)
        (D.readHeader m (e * D.sizeOfEachSector + 1))) (s.at b hd)) :
    ∃ b, P b ∧ ∃ pauses t, Recovers D m a b pauses t := by
  obtain ⟨s, hends, hfresh, hv⟩ := h
  simp only [verdict, Prod.mk.injEq] at hv
  obtain ⟨hphase, hstart, hend⟩ := hv
  have hfresh' : ∀ x hd, Fresh m (s.at x hd) :=
    fun x hd => { hfresh with }
  obtain ⟨b, hd, hb, hloop⟩ := hloop s hfresh.flash hfresh'
  have hbegin : loadHeader D { s with
      endAddress := add32 (D.startOfPreviousSectorCyclical s.endAddress) 1 }
      = s.at (e * D.sizeOfEachSector + 1) (D.readHeader m (e * D.sizeOfEachSector + 1)) := by
    have hadd := add32_inside (D := D) (o := 0) (k := 1) he (by omega)
    rw [Nat.add_zero, Nat.zero_add] at hadd
    simp only [loadHeader, Store.at, hend, startOfPreviousSectorCyclical_eq he,
      hadd, hfresh.flash]
  have hrest : EndsIn (Fresh m) (recover D).tail s
      { s.at b hd with recoverPhase := .done } := by
    refine .ifFalse ?_ (.ifTrue ?_ (.stepTo hbegin (hfresh' _ _)
      (hloop.append (.execute (.nil _)))))
    · rw [hphase]
      exact hp.condition
    · rw [hstart, hend]
      exact bne_iff_ne.mpr hne
  obtain ⟨pauses, hruns, hI⟩ := hends.append hrest
  exact ⟨b, hb, pauses, _, hruns, fun p hp => (hI p hp).flash,
    { hfresh with }, hstart, rfl⟩

/-- The status of the sector at a position. -/
theorem Contains.status {L : Layout} (h : Contains D m L F) {i : Nat} (hi : i < D.numberOfSectors) :
    (F (D.sectorAt L.first i)).status = if i ≤ L.older.length then
      (if i = 0 then startStatus L.marked else SectorStatus.used) else SectorStatus.empty := by
  rw [h.sector i hi]
  by_cases hle : i ≤ L.older.length
  · rw [if_pos hle]
    obtain ⟨blocks, closed, hsec⟩ : ∃ blocks closed,
        L.sector i = .inUse (L.marked && i == 0) blocks closed := by
      unfold Layout.sector
      by_cases hlt : i < L.older.length
      · rw [if_pos hlt]
        exact ⟨_, _, rfl⟩
      · rw [if_neg hlt, if_pos (by omega)]
        exact ⟨_, _, rfl⟩
    rw [hsec]
    by_cases h0 : i = 0
    · rw [if_pos h0, h0]
      cases L.marked <;> rfl
    · have hflag : (L.marked && i == 0) = false := by simp [h0]
      rw [if_neg h0, hflag]
      rfl
  · rw [if_neg hle, Layout.sector_beyond (by omega)]
    rfl

/-- An empty store. -/
theorem recovers_erased (h : Holds D m (fun _ => .erased)) :
    ∃ pauses t, Recovers D m 0 0 pauses t :=
  recovers_at_start (scans_erased h) (by simp [Accepted])

section

variable {L : Layout}

/-- A ring that takes all sectors: its end is taken to be at the start of its first sector. -/
theorem Contains.recovers_all (h : Contains D m L F) (hm : L.marked = true)
    (hall : L.older.length + 1 = D.numberOfSectors) :
    ∃ pauses t, Recovers D m (L.first * D.sizeOfEachSector) (L.first * D.sizeOfEachSector)
      pauses t := by
  have hfirst : (F L.first).status = SectorStatus.firstInCycle := by
    have := h.status D.sectors_pos
    rwa [sectorAt_zero h.first_lt, if_pos (Nat.zero_le _), if_pos rfl, hm] at this
  have hused : ∀ e < D.numberOfSectors, e ≠ L.first → (F e).status = SectorStatus.used := by
    intro e he hne
    obtain ⟨i, hi, rfl⟩ := exists_sectorAt h.first_lt he
    have h0 : i ≠ 0 := by
      rintro rfl
      exact hne (sectorAt_zero h.first_lt)
    rw [h.status hi, if_pos (by omega), if_neg h0]
  by_cases h0 : L.first = 0
  · have hscan := scans_prefix (fun e he => readStatus_eq h.holds he) D.sectors_pos (h0 ▸ hfirst)
      (fun e hpos he => hused e he (by omega)) (fun e hle hlt => absurd hlt (by omega))
    rw [if_pos (Nat.le_refl _)] at hscan
    rw [h0, Nat.zero_mul]
    exact recovers_at_start hscan (by simp [Accepted])
  · exact recovers_at_start (scans_all (fun e he => readStatus_eq h.holds he) h.first_lt (by omega) hfirst hused)
      (by simp [Accepted])

/-- A ring that begins with sector `0` and does not take all sectors. -/
theorem Contains.recovers_prefix {P : Nat → Prop} (h : Contains D m L F) (hm : L.marked = true)
    (hS : 1 < D.sizeOfEachSector) (h0 : L.first = 0)
    (hleft : L.older.length + 1 < D.numberOfSectors)
    (hloop : ∀ s : Store, s.flash = m → (∀ x hd, Fresh m (s.at x hd)) →
      ∃ b hd, P b ∧ EndsIn (Fresh m) (recoverLoop D) (s.at (L.current D * D.sizeOfEachSector + 1)
        (D.readHeader m (L.current D * D.sizeOfEachSector + 1))) (s.at b hd)) :
    ∃ b, P b ∧ ∃ pauses t, Recovers D m (L.first * D.sizeOfEachSector) b pauses t := by
  have hstatus : ∀ e < D.numberOfSectors, (F e).status = if e ≤ L.older.length then
      (if e = 0 then SectorStatus.firstInCycle else SectorStatus.used) else SectorStatus.empty := by
    intro e he
    have := h.status he
    rwa [h0, sectorAt_first_zero he, hm] at this
  have hcur : L.current D = L.older.length := by
    rw [Layout.current, h0, sectorAt_first_zero h.older_lt]
  have hnext : D.nextSector L.older.length = L.older.length + 1 := Nat.mod_eq_of_lt hleft
  have hscan := scans_prefix (fun e he => readStatus_eq h.holds he) (k := L.older.length + 1) (by omega)
    (by rw [hstatus 0 D.sectors_pos, if_pos (Nat.zero_le _), if_pos rfl])
    (fun e hpos he => by rw [hstatus e (by omega), if_pos (by omega), if_neg (by omega)])
    (fun e hle hlt => by rw [hstatus e hlt, if_neg (by omega)])
  rw [if_neg (by omega), ← hnext, ← hcur] at hscan
  rw [h0, Nat.zero_mul]
  refine recovers_in_sector hscan (by simp [Accepted]) ?_ sectorAt_lt hS hloop
  rw [hcur, hnext]
  exact Nat.ne_of_gt (Nat.mul_pos (Nat.succ_pos _) D.size_pos)

/-- A ring that has lost its first sector. -/
theorem Contains.recovers_gap {P : Nat → Prop} (h : Contains D m L F) (hm : L.marked = false)
    (hS : 1 < D.sizeOfEachSector) (hgap : L.older.length + 2 = D.numberOfSectors)
    (hloop : ∀ s : Store, s.flash = m → (∀ x hd, Fresh m (s.at x hd)) →
      ∃ b hd, P b ∧ EndsIn (Fresh m) (recoverLoop D) (s.at (L.current D * D.sizeOfEachSector + 1)
        (D.readHeader m (L.current D * D.sizeOfEachSector + 1))) (s.at b hd)) :
    ∃ b, P b ∧ ∃ pauses t, Recovers D m (L.first * D.sizeOfEachSector) b pauses t := by
  have hnext : D.nextSector (L.current D) = D.sectorAt L.first (L.older.length + 1) := by
    rw [Layout.current, nextSector_sectorAt]
  have hfirst : D.nextSector (D.nextSector (L.current D)) = L.first := by
    rw [hnext, nextSector_sectorAt, hgap, sectorAt_all h.first_lt]
  have hempty : (F (D.nextSector (L.current D))).status = SectorStatus.empty := by
    rw [hnext, h.status (by omega), if_neg (by omega)]
  have hused : ∀ e < D.numberOfSectors, e ≠ D.nextSector (L.current D) →
      (F e).status = SectorStatus.used := by
    intro e he hne
    obtain ⟨i, hi, rfl⟩ := exists_sectorAt h.first_lt he
    have hlt : i ≤ L.older.length := by
      by_contra hc
      obtain rfl : i = L.older.length + 1 := by omega
      exact hne hnext.symm
    rw [h.status hi, if_pos hlt, hm]
    split <;> rfl
  obtain ⟨phase, hphase, hscan⟩ := scans_gap (fun e he => readStatus_eq h.holds he) (nextSector_lt _ _) hempty
    hused
  rw [hfirst] at hscan
  refine recovers_in_sector hscan ?_ ?_ sectorAt_lt hS hloop
  · rcases hphase with rfl | rfl <;> simp [Accepted]
  · intro heq
    have heq' := Nat.eq_of_mul_eq_mul_right D.size_pos heq
    rw [← hfirst] at heq'
    exact nextSector_ne (nextSector_lt _ _) heq'.symm

/-- The blocks of the newest sector lead to its end. -/
theorem Contains.follows_blocks (h : Contains D m L F)
    (hw : Scannable D (L.current D) [] L.newest) (hS : 1 < D.sizeOfEachSector) (s : Store)
    (hs : s.flash = m) (hfresh : ∀ x hd, Fresh m (s.at x hd)) :
    ∃ b hd, b = endOf D (L.current D) (if L.closed then D.sizeOfEachSector else 1 + size L.newest) ∧
      EndsIn (Fresh m) (recoverLoop D) (s.at (L.current D * D.sizeOfEachSector + 1)
        (D.readHeader m (L.current D * D.sizeOfEachSector + 1))) (s.at b hd) := by
  have hone : 1 + size ([] : List Block) = 1 := rfl
  obtain ⟨hd, hloop⟩ := recoverLoop_blocks (s := s) hfresh (hs ▸ h.holds) sectorAt_lt
    (show F (L.current D) = .inUse _ ([] ++ L.newest) _ from h.newest) hw rfl (fun _ => rfl)
  rw [hone, endOf_of_lt hS, hs] at hloop
  exact ⟨_, hd, rfl, hloop⟩

/-- Whatever the newest sector contains, the loop ends if sectors are left and are large. -/
theorem Contains.follows_any (h : Contains D m L F) (h0 : L.first = 0)
    (hleft : L.older.length + 1 < D.numberOfSectors) (hS : 65540 ≤ D.sizeOfEachSector) (s : Store)
    (hs : s.flash = m) (hfresh : ∀ x hd, Fresh m (s.at x hd)) :
    ∃ b hd, True ∧
      EndsIn (Fresh m) (recoverLoop D) (s.at (L.current D * D.sizeOfEachSector + 1)
        (D.readHeader m (L.current D * D.sizeOfEachSector + 1))) (s.at b hd) := by
  have hcur : L.current D = L.older.length := by
    rw [Layout.current, h0, sectorAt_first_zero h.older_lt]
  have hnext : F (L.older.length + 1) = .erased := by
    have := h.sector _ hleft
    rwa [h0, sectorAt_first_zero hleft, Layout.sector_beyond (Nat.lt_succ_self _)] at this
  obtain ⟨b, hd, hloop⟩ := recoverLoop_ends (s := s) (e := L.older.length) hfresh (hs ▸ h.holds)
    hleft hnext hS D.sizeOfEachSector 1 (by omega) (by omega) (by omega)
  rw [hs] at hloop
  rw [hcur]
  exact ⟨b, hd, trivial, hloop⟩

end

end

end EmbeddedInfra.CyclicStore
