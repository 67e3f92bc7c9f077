import EmbeddedInfra.Services.CyclicStore.Ring

set_option autoImplicit false

/-! # Adding records

`Add` makes room for a record (it closes the sector in which the record does not fit, erases the
next one, hands the role of the first sector over, and starts the sector), and then writes the
record. First the parts of the sequence are run on a flash of which only the sectors concerned are
known; then the parts are put together for a store that holds a ring.
-/

namespace EmbeddedInfra.CyclicStore

open NorMemory Sequencer BlockStatus FlashHomogeneous

variable {D : Device} {m : Memory} {L : Layout}

/-! ## Layouts during an addition -/

namespace Contains

variable {m : Memory} {L : Layout} {F : Nat → Sector}

section

variable (h : Contains D m L F)
include h

theorem close (hopen : L.closed = false)
    (hlt : 1 + size L.newest < D.sizeOfEachSector) :
    ∃ F', Contains D (NorMemory.program m (L.current D * D.sizeOfEachSector + (1 + size L.newest))
      [emptyUntilEnd]) { L with closed := true } F' :=
  ⟨_, h.updateNewest (h.holds.closeSector sectorAt_lt (hopen ▸ h.newest) hlt)⟩

/-- A full sector counts as closed. -/
theorem close_full (hfull : D.sizeOfEachSector = 1 + size L.newest) :
    ∃ F', Contains D m { L with closed := true } F' := by
  obtain ⟨hfit, hread⟩ := h.holds (L.current D) sectorAt_lt
  rw [h.newest] at hfit hread
  refine ⟨_, h.updateNewest (h.holds.update (fun _ _ => rfl) hfit ?_)⟩
  rw [hread]
  exact image_full hfull

/-- Erasing the sector after the newest one changes nothing when it is not in use. -/
theorem erase_free (hlt : L.older.length + 1 < D.numberOfSectors) :
    ∃ F', Contains D (D.eraseSector m (D.nextSector (L.current D))) L F' := by
  rw [Layout.current, nextSector_sectorAt]
  refine ⟨_, h.update hlt (h.holds.eraseSector sectorAt_lt) rfl h.older_lt ?_ (fun _ _ _ => rfl)⟩
  exact Layout.sector_beyond (Nat.lt_succ_self _)

/-- Erasing the oldest sector leaves the others, without a first one. -/
theorem erase_oldest {oldest : List Block} {rest : List (List Block)}
    (holder : L.older = oldest :: rest) (hfull : L.older.length + 1 = D.numberOfSectors) :
    ∃ F', Contains D (D.eraseSector m L.first)
      { L with first := D.nextSector L.first, marked := false, older := rest } F' := by
  have hlen : rest.length + 2 = D.numberOfSectors := by
    rw [← hfull, holder, List.length_cons]
  refine ⟨_, h.holds.eraseSector h.first_lt, nextSector_lt _ _,
    by show rest.length < _; omega, fun i hi => ?_⟩
  show Function.update F L.first .erased (D.sectorAt (D.nextSector L.first) i) = _
  rw [sectorAt_nextSector]
  by_cases hlast : i + 1 = D.numberOfSectors
  · rw [hlast, sectorAt_all h.first_lt, Function.update_self,
      Layout.sector_beyond (by show rest.length < i; omega)]
  · have hne : D.sectorAt L.first (i + 1) ≠ L.first := by
      intro heq
      have h0 := sectorAt_inj h.first_lt (by omega) D.sectors_pos
        (heq.trans (sectorAt_zero h.first_lt).symm)
      omega
    rw [Function.update_of_ne hne, h.sector _ (by omega)]
    simp [Layout.sector, holder]

/-- The oldest sector becomes the first of the cycle. -/
theorem mark (hm : L.marked = false) :
    ∃ F', Contains D (NorMemory.program m (L.first * D.sizeOfEachSector)
      [SectorStatus.firstInCycle]) { L with marked := true } F' := by
  obtain ⟨closed, hsec⟩ := L.sector_zero
  rw [hm] at hsec
  have hF : F (D.sectorAt L.first 0) = .inUse false ((L.older ++ [L.newest]).headD []) closed := by
    rw [h.sector 0 D.sectors_pos, hsec]
  have hmark := h.holds.markFirst sectorAt_lt hF
  have haddr : D.sectorAt L.first 0 * D.sizeOfEachSector = L.first * D.sizeOfEachSector := by
    rw [sectorAt_zero h.first_lt]
  rw [haddr] at hmark
  refine ⟨_, h.update D.sectors_pos hmark rfl h.older_lt ?_ ?_⟩
  · cases hL : L.older with
    | nil => simp_all [Layout.sector]
    | cons b rest => simp_all [Layout.sector]
  · intro i hi hne
    have h0 : (i == 0) = false := by simpa using hne
    simp only [Layout.sector, h0, Bool.and_false]

/-- The sector after the newest one is started. -/
theorem start (hclosed : L.closed = true)
    (hlt : L.older.length + 1 < D.numberOfSectors) :
    ∃ F', Contains D
      (NorMemory.program m (D.nextSector (L.current D) * D.sizeOfEachSector) [SectorStatus.used])
      { L with older := L.older ++ [L.newest], newest := [], closed := false } F' := by
  rw [Layout.current, nextSector_sectorAt]
  have hF : F (D.sectorAt L.first (L.older.length + 1)) = .erased := by
    rw [h.sector _ hlt, Layout.sector_beyond (Nat.lt_succ_self _)]
  refine ⟨_, h.update hlt (h.holds.startSector sectorAt_lt false hF) rfl ?_ ?_ ?_⟩
  · simpa using hlt
  · have := Layout.sector_newest
      (L := { L with older := L.older ++ [L.newest], newest := [], closed := false })
    simpa using this
  · intro i hi hne
    by_cases hold : i < L.older.length
    · simp [Layout.sector, hold, Nat.lt_succ_of_lt hold]
    · by_cases hnew : i = L.older.length
      · subst hnew
        simp [Layout.sector, hclosed]
      · rw [Layout.sector_beyond (L := L) (by omega), Layout.sector_beyond]
        show (L.older ++ [L.newest]).length < i
        rw [List.length_append, List.length_singleton]
        omega

end

end Contains

/-- The first sector of an erased flash is started. -/
theorem contains_first (h : Holds D m (fun _ => .erased)) :
    ∃ F', Contains D (NorMemory.program m 0 [SectorStatus.firstInCycle])
      { first := 0, older := [], newest := [] } F' := by
  have hstart := h.startSector D.sectors_pos true rfl
  rw [Nat.zero_mul] at hstart
  refine ⟨_, hstart, D.sectors_pos, D.sectors_pos, fun i hi => ?_⟩
  show Function.update _ 0 _ (D.sectorAt 0 i) = _
  rw [sectorAt_first_zero hi]
  by_cases h0 : i = 0
  · subst h0
    rfl
  · rw [Function.update_of_ne h0, Layout.sector_beyond (by show 0 < i; omega)]

/-! ## The parts of the sequence -/

section

variable {I : Store → Prop} {s : Store} {e o : Nat} {range : List UInt8}

theorem fill_skip (he : e < D.numberOfSectors) (ho : o < D.sizeOfEachSector)
    (ha : s.endAddress = e * D.sizeOfEachSector + o)
    (hfits : o + 3 + (range.length + s.remainingPartialSize) ≤ D.sizeOfEachSector) :
    EndsIn I (fillSectorIfDataDoesNotFit D range) s s := by
  refine .ifFalse ?_ (.nil _)
  simp only [ha, addressOffsetInSector_eq he ho, sizeOfSector_eq,
    sizeofBlockHeader]
  exact decide_eq_false (by omega)

/-- The sector is closed with the marker. -/
def closed (D : Device) (e o : Nat) (s : Store) : Store :=
  { s with
    blockHeader := { s.blockHeader with status := emptyUntilEnd },
    endAddress := D.nextSector e * D.sizeOfEachSector,
    flash := NorMemory.program s.flash (e * D.sizeOfEachSector + o) [emptyUntilEnd] }

theorem fill_close (he : e < D.numberOfSectors) (ho : o < D.sizeOfEachSector)
    (ha : s.endAddress = e * D.sizeOfEachSector + o)
    (hfits : D.sizeOfEachSector < o + 3 + (range.length + s.remainingPartialSize))
    (hI : I (closed D e o s)) :
    EndsIn I (fillSectorIfDataDoesNotFit D range) s (closed D e o s) := by
  have heq : ({ s with
      blockHeader := { s.blockHeader with status := emptyUntilEnd },
      endAddress := D.startOfNextSectorCyclical s.endAddress
    } : Store).writeBuffer [emptyUntilEnd] s.endAddress = closed D e o s := by
    simp only [Store.writeBuffer, closed, ha, startOfNextSectorCyclical_eq he ho]
  refine .ifTrue ?_ (.step ?_ ?_)
  · simp only [ha, addressOffsetInSector_eq he ho,
      sizeOfSector_eq, sizeofBlockHeader]
    exact decide_eq_true (by omega)
  · rw [heq]
    exact hI
  · rw [heq]
    exact .nil _

theorem erase_skip (he : e < D.numberOfSectors) (ho : o < D.sizeOfEachSector) (hpos : 0 < o)
    (ha : s.endAddress = e * D.sizeOfEachSector + o) :
    EndsIn I (eraseSectorIfAtStart D) s s := by
  refine .ifFalse ?_ (.nil _)
  rw [ha, addressOffsetInSector_eq he ho]
  exact beq_eq_false_iff_ne.mpr (by omega)

/-- The sector that is started next has been erased. -/
def erased (D : Device) (e : Nat) (s : Store) : Store :=
  { s with flash := D.eraseSector s.flash e }

/-- The status of the sector after it has been read. -/
def nextRead (D : Device) (e : Nat) (s : Store) : Store :=
  { s with sectorStatus := D.readStatus s.flash (D.nextSector e * D.sizeOfEachSector) }

/-- The sector after it has become the first one. -/
def handedOver (D : Device) (e : Nat) (s : Store) : Store :=
  { s with
    iterators := s.iterators.map (Iterator.sectorIsErased D (D.sectorOfAddress s.startAddress)),
    sectorStatus := SectorStatus.firstInCycle,
    startAddress := D.nextSector e * D.sizeOfEachSector,
    flash := NorMemory.program s.flash (D.nextSector e * D.sizeOfEachSector)
      [SectorStatus.firstInCycle] }

section

variable (he : e < D.numberOfSectors) (ha : s.endAddress = e * D.sizeOfEachSector)
include ha

theorem erased_eq :
    ({ s with flash := D.eraseSector s.flash (D.sectorOfAddress s.endAddress) } : Store)
      = erased D e s := by
  have h := sectorOfAddress_eq (f := D.toFlashHomogeneous) (e := e) D.size_pos
  rw [Nat.add_zero] at h
  rw [erased, ha, h]

include he

theorem next_of_end :
    D.startOfNextSectorCyclical s.endAddress = D.nextSector e * D.sizeOfEachSector := by
  have h := startOfNextSectorCyclical_eq (f := D.toFlashHomogeneous) he D.size_pos
  rw [Nat.add_zero] at h
  rw [ha, h]

theorem offset_of_end : D.addressOffsetInSector s.endAddress = 0 := by
  have h := addressOffsetInSector_eq (f := D.toFlashHomogeneous) he D.size_pos
  rw [Nat.add_zero] at h
  rw [ha, h]

theorem nextRead_eq : readNextSectorStatus D s = nextRead D e s := by
  rw [readNextSectorStatus, next_of_end he ha, nextRead]

theorem fill_start (hfits : 3 + (range.length + s.remainingPartialSize) ≤ D.sizeOfEachSector) :
    EndsIn I (fillSectorIfDataDoesNotFit D range) s s :=
  fill_skip he D.size_pos ha (by omega)

/-- A sector is erased that is not followed by a used one. -/
theorem erase_free
    (hnext : (nextRead D e (erased D e s)).sectorStatus ≠ SectorStatus.used)
    (hI₁ : I (erased D e s)) (hI₂ : I (nextRead D e (erased D e s))) :
    EndsIn I (eraseSectorIfAtStart D) s (nextRead D e (erased D e s)) := by
  refine .ifTrue (by rw [offset_of_end he ha]; rfl) (.stepTo (erased_eq ha) hI₁ ?_)
  refine .stepTo (nextRead_eq (s := erased D e s) he ha) hI₂ (.ifFalse ?_ (.nil _))
  exact beq_eq_false_iff_ne.mpr hnext

/-- A sector is erased that is followed by a used one, which becomes the first. -/
theorem erase_handOver
    (hnext : (nextRead D e (erased D e s)).sectorStatus = SectorStatus.used)
    (hI₁ : I (erased D e s)) (hI₂ : I (nextRead D e (erased D e s)))
    (hI₃ : I (handedOver D e (erased D e s))) :
    EndsIn I (eraseSectorIfAtStart D) s (handedOver D e (erased D e s)) := by
  refine .ifTrue (by rw [offset_of_end he ha]; rfl) (.stepTo (erased_eq ha) hI₁ ?_)
  refine .stepTo (nextRead_eq (s := erased D e s) he ha) hI₂ (.ifTrue ?_ (.stepTo ?_ hI₃ (.nil _)))
  · exact beq_iff_eq.mpr hnext
  · have hend := next_of_end (s := nextRead D e (erased D e s)) he ha
    simp only [Store.writeBuffer, hend]
    rfl

/-- The sector has got its status. -/
def started (D : Device) (e : Nat) (s : Store) : Store :=
  { s with
    sectorStatus := newSectorStatus s,
    endAddress := e * D.sizeOfEachSector + 1,
    flash := NorMemory.program s.flash (e * D.sizeOfEachSector) [newSectorStatus s] }

theorem status_write (hS : 1 < D.sizeOfEachSector)
    (hnext : (nextRead D e s).sectorStatus ≠ SectorStatus.used)
    (hI₁ : I (nextRead D e s)) (hI₂ : I (started D e (nextRead D e s))) :
    EndsIn I (writeSectorStatusIfAtStartOfSector D) s (started D e (nextRead D e s)) := by
  have hstart : D.atStartOfSector s.endAddress = true := by
    have h := atStartOfSector_eq (f := D.toFlashHomogeneous) he D.size_pos
    rw [Nat.add_zero] at h
    rw [ha, h]
    rfl
  have hwrap : wrapAddress D (add32 (e * D.sizeOfEachSector) 1) = e * D.sizeOfEachSector + 1 := by
    have h := add32_inside (D := D) (o := 0) (k := 1) he (by omega)
    rw [Nat.add_zero, Nat.zero_add] at h
    rw [h, wrapAddress_eq he (by omega), endOf_of_lt hS]
  refine .ifTrue hstart (.stepTo (nextRead_eq he ha) hI₁ (.ifFalse ?_ (.stepTo ?_ hI₂ (.nil _))))
  · exact beq_eq_false_iff_ne.mpr hnext
  · have hend : (nextRead D e s).endAddress = e * D.sizeOfEachSector := ha
    simp only [Store.writeBuffer, started, hend, hwrap]

end

theorem status_skip (he : e < D.numberOfSectors) (ho : o < D.sizeOfEachSector) (hpos : 0 < o)
    (ha : s.endAddress = e * D.sizeOfEachSector + o) :
    EndsIn I (writeSectorStatusIfAtStartOfSector D) s s := by
  refine .ifFalse ?_ (.nil _)
  rw [ha, atStartOfSector_eq he ho]
  exact decide_eq_false (by omega)

end

/-! ## A store that holds a ring -/

/-- The layout of a ring whose newest sector has the given blocks. -/
def layoutWith (first : Nat) (older : List (List (List UInt8))) (blocks : List Block) : Layout :=
  { first := first, older := older.map (·.map .ready), newest := blocks }

/-- The layout of a ring between two additions. -/
def ringLayout (first : Nat) (older : List (List (List UInt8))) (newest : List (List UInt8)) :
    Layout :=
  layoutWith first older (newest.map .ready)

/-- The flash contains the records of the ring. -/
def Represents (D : Device) (r : Ring) (m : Memory) : Prop :=
  match r with
  | .empty => Holds D m (fun _ => .erased)
  | .sectors first older newest => ∃ F, Contains D m (ringLayout first older newest) F

/-- Where the next record is written. -/
def Ring.endAddress (D : Device) : Ring → Nat
  | empty => 0
  | sectors first older newest =>
      endOf D (D.sectorAt first older.length) (1 + recordsSize newest)

/-- The store holds the ring, and no record is being added. -/
structure Placed (D : Device) (r : Ring) (s : Store) : Prop where
  wellFormed : r.WellFormed D
  flash : Represents D r s.flash
  startAddress : s.startAddress = r.first * D.sizeOfEachSector
  endAddress : s.endAddress = r.endAddress D
  partialAddStarted : s.partialAddStarted = false
  partialSizeWritten : s.partialSizeWritten = 0

/-- What a store that adds a record of `n` bytes to a ring can look like between two flash
operations. -/
inductive Stage (D : Device) (r : Ring) (n : Nat) (d : List UInt8) (p : Store) : Prop where
  | unchanged (h : Represents D r p.flash)
  /-- the newest sector is closed -/
  | closed {first : Nat} {older : List (List (List UInt8))} {newest : List (List UInt8)}
      {F : Nat → Sector} (hr : r = .sectors first older newest)
      (h : Contains D p.flash { ringLayout first older newest with closed := true } F)
  /-- the oldest sector is erased -/
  | erased {first : Nat} {oldest : List (List UInt8)} {rest : List (List (List UInt8))}
      {newest : List (List UInt8)} {F : Nat → Sector}
      (hr : r = .sectors first (oldest :: rest) newest) (hfull : rest.length + 2 = D.numberOfSectors)
      (hroom : ¬ r.HasRoom D n)
      (h : Contains D p.flash { ringLayout (D.nextSector first) rest newest with
        marked := false, closed := true } F)
  /-- the sector after the erased one is the first one now -/
  | handedOver {first : Nat} {oldest : List (List UInt8)} {rest : List (List (List UInt8))}
      {newest : List (List UInt8)} {F : Nat → Sector}
      (hr : r = .sectors first (oldest :: rest) newest) (hfull : rest.length + 2 = D.numberOfSectors)
      (hroom : ¬ r.HasRoom D n)
      (h : Contains D p.flash { ringLayout (D.nextSector first) rest newest with closed := true } F)
  /-- there is room for the record -/
  | room (h : Represents D (r.makeRoom D n) p.flash)
  | lengthPending {first : Nat} {older : List (List (List UInt8))} {newest : List (List UInt8)}
      {F : Nat → Sector} {lsb msb : UInt8} (hr : r.makeRoom D n = .sectors first older newest)
      (h : Contains D p.flash
        (layoutWith first older (newest.map .ready ++ [.lengthPending lsb msb])) F)
  | dataPending {first : Nat} {older : List (List (List UInt8))} {newest : List (List UInt8)}
      {F : Nat → Sector} {data : List UInt8} (hr : r.makeRoom D n = .sectors first older newest)
      (hlen : data.length = n)
      (h : Contains D p.flash
        (layoutWith first older (newest.map .ready ++ [.dataPending data])) F)
      (hstatus : p.blockHeader.status = writingData)
      (hend : p.endAddress = (D.sectorAt first older.length) * D.sizeOfEachSector
        + (1 + recordsSize newest))
  | ready (h : Represents D ((r.makeRoom D n).put d) p.flash)

variable {F : Nat → Sector}

/-- The oldest sector of a layout. -/
theorem Contains.oldest (h : Contains D m L F) :
    ∃ closed, F L.first = .inUse L.marked ((L.older ++ [L.newest]).headD []) closed := by
  obtain ⟨closed, hsec⟩ := L.sector_zero
  rw [← h.sector 0 D.sectors_pos, sectorAt_zero h.first_lt] at hsec
  exact ⟨closed, hsec⟩

theorem Contains.readStatus_first
    (h : Contains D m L F) : D.readStatus m (L.first * D.sizeOfEachSector) = startStatus L.marked := by
  obtain ⟨closed, hsec⟩ := h.oldest
  rw [readStatus_eq h.holds h.first_lt, hsec]
  cases L.marked <;> rfl

/-- The sector after the one that is started next is not a used one, as long as sectors are left. -/
theorem Contains.next_not_used (h : Contains D m L F)
    (hm : L.marked = true) (hlt : L.older.length + 1 < D.numberOfSectors) :
    D.readStatus m (D.nextSector (D.nextSector (L.current D)) * D.sizeOfEachSector)
      ≠ SectorStatus.used := by
  rw [Layout.current, nextSector_sectorAt, nextSector_sectorAt]
  by_cases hlast : L.older.length + 2 = D.numberOfSectors
  · rw [hlast, sectorAt_all h.first_lt, h.readStatus_first, hm]
    simp [startStatus, SectorStatus.firstInCycle, SectorStatus.used]
  · rw [readStatus_eq h.holds sectorAt_lt, h.sector _ (by omega),
      Layout.sector_beyond (by omega)]
    simp [Sector.status, SectorStatus.empty, SectorStatus.used]

theorem nextSector_ne {e : Nat} (he : e < D.numberOfSectors) : D.nextSector e ≠ e := by
  have h2 := D.two_le
  unfold nextSector
  by_cases hlast : e + 1 = D.numberOfSectors
  · rw [hlast, Nat.mod_self]
    omega
  · rw [Nat.mod_eq_of_lt (by omega)]
    omega

section

variable {s : Store} {r : Ring} {n : Nat} {range : List UInt8} {first : Nat}
  {older : List (List (List UInt8))} {newest : List (List UInt8)}

/-- What making room leaves as it was. -/
structure Kept (D : Device) (r : Ring) (n : Nat) (s t : Store) : Prop where
  remainingPartialSize : t.remainingPartialSize = s.remainingPartialSize
  assertionFailed : t.assertionFailed = s.assertionFailed
  iterators : t.iterators = if r.GivesUp D n then
    s.iterators.map (Iterator.sectorIsErased D r.first) else s.iterators

/-- The first sector is started. -/
theorem start_first (range : List UInt8) (h : Placed D .empty s) (hS : 1 < D.sizeOfEachSector) :
    ∃ t, EndsIn (Stage D .empty n range)
        (eraseSectorIfAtStart D ++ writeSectorStatusIfAtStartOfSector D) s t ∧
      Placed D (.sectors 0 [] []) t ∧ Kept D .empty n s t := by
  have h0 : (0 : Nat) < D.numberOfSectors := D.sectors_pos
  have ha : s.endAddress = 0 * D.sizeOfEachSector := by
    rw [h.endAddress, Nat.zero_mul]
    rfl
  have hstart : s.startAddress = 0 * D.sizeOfEachSector := h.startAddress
  have hm : Holds D (erased D 0 s).flash (fun _ => .erased) := by
    refine (Holds.eraseSector (F := fun _ => .erased) h.flash h0).congr (fun i _ => ?_)
    simp [Function.update]
  have hnext : D.readStatus (erased D 0 s).flash (D.nextSector 0 * D.sizeOfEachSector)
      ≠ SectorStatus.used := by
    rw [readStatus_eq hm (FlashHomogeneous.nextSector_lt _ _)]
    simp [Sector.status, SectorStatus.empty, SectorStatus.used]
  have hnew : newSectorStatus (nextRead D 0 (nextRead D 0 (erased D 0 s)))
      = SectorStatus.firstInCycle := if_pos (ha.trans hstart.symm)
  obtain ⟨F, hF⟩ := contains_first hm
  have hflash : Represents D (.sectors 0 [] []) (started D 0
      (nextRead D 0 (nextRead D 0 (erased D 0 s)))).flash := by
    refine ⟨F, ?_⟩
    simp only [started, hnew, Nat.zero_mul]
    exact hF
  have herase := erase_free (I := Stage D .empty n range) h0 ha hnext (.unchanged hm) (.unchanged hm)
  have hstatus := status_write (I := Stage D .empty n range)
    (s := nextRead D 0 (erased D 0 s)) h0 ha hS hnext (.unchanged hm)
    (.room (by
      rw [Ring.makeRoom, if_neg (by exact fun hroom => hroom)]
      exact hflash))
  refine ⟨_, herase.append hstatus, ⟨Ring.wellFormed_newSector (r := .empty) trivial, hflash,
    hstart, ?_, h.partialAddStarted, h.partialSizeWritten⟩, rfl, rfl, ?_⟩
  · show 0 * D.sizeOfEachSector + 1 = endOf D (D.sectorAt 0 0) (1 + 0)
    rw [endOf_of_lt hS, sectorAt_zero h0]
  · have hgive : ¬ Ring.empty.GivesUp D n := fun hg => Nat.ne_of_lt D.sectors_pos hg.2
    rw [if_neg hgive]
    rfl

/-- The store is about to start the sector after the newest one, which is closed. -/
structure Closed (D : Device) (first : Nat) (older : List (List (List UInt8)))
    (newest : List (List UInt8)) (F : Nat → Sector) (s : Store) : Prop where
  wellFormed : (Ring.sectors first older newest).WellFormed D
  flash : Contains D s.flash { ringLayout first older newest with closed := true } F
  startAddress : s.startAddress = first * D.sizeOfEachSector
  endAddress : s.endAddress
    = D.nextSector (D.sectorAt first older.length) * D.sizeOfEachSector
  partialAddStarted : s.partialAddStarted = false
  partialSizeWritten : s.partialSizeWritten = 0

theorem ringLayout_newSector (first : Nat) (older : List (List (List UInt8)))
    (newest : List (List UInt8)) : ringLayout first (older ++ [newest]) []
      = { ringLayout first older newest with
          older := (ringLayout first older newest).older ++ [(ringLayout first older newest).newest],
          newest := [] } := by
  simp [ringLayout, layoutWith]

theorem makeRoom_of_not (hroom : ¬ r.HasRoom D n) : r.makeRoom D n = r.newSector D := if_neg hroom

/-- There is room in the newest sector then. -/
theorem Ring.room_makeRoom (hfit : n + 4 ≤ D.sizeOfEachSector)
    (hr : r.makeRoom D n = .sectors first older newest) :
    1 + recordsSize newest + 3 + n ≤ D.sizeOfEachSector := by
  by_cases hroom : r.HasRoom D n
  · rw [Ring.makeRoom, if_pos hroom] at hr
    rw [hr] at hroom
    exact hroom
  · rw [makeRoom_of_not hroom] at hr
    rw [Ring.newest_newSector hr]
    show 1 + 0 + 3 + n ≤ _
    omega

variable {F : Nat → Sector}

/-- A sector is started that was not in use before. -/
theorem start_left (range : List UInt8) (h : Closed D first older newest F s) (hS : 1 < D.sizeOfEachSector)
    (hroom : ¬ (Ring.sectors first older newest).HasRoom D n)
    (hlt : older.length + 1 < D.numberOfSectors) :
    ∃ t, EndsIn (Stage D (.sectors first older newest) n range)
        (eraseSectorIfAtStart D ++ writeSectorStatusIfAtStartOfSector D) s t ∧
      Placed D (.sectors first (older ++ [newest]) []) t ∧
      Kept D (.sectors first older newest) n s t := by
  obtain ⟨L, hL⟩ : ∃ L, L = { ringLayout first older newest with closed := true } := ⟨_, rfl⟩
  have hflash := h.flash
  rw [← hL] at hflash
  have hlen : L.older.length = older.length := by rw [hL]; simp [ringLayout, layoutWith]
  have hcur : L.current D = D.sectorAt first older.length := by
    rw [Layout.current, hlen, hL]
    rfl
  obtain ⟨e, hedef⟩ : ∃ e, e = D.nextSector (L.current D) := ⟨_, rfl⟩
  have he : e < D.numberOfSectors := hedef ▸ FlashHomogeneous.nextSector_lt _ _
  have ha : s.endAddress = e * D.sizeOfEachSector := by rw [h.endAddress, hedef, hcur]
  obtain ⟨F₁, hm⟩ := hflash.erase_free (by omega)
  rw [← hedef] at hm
  have hnext : D.readStatus (erased D e s).flash (D.nextSector e * D.sizeOfEachSector)
      ≠ SectorStatus.used := by
    have := hm.next_not_used (by rw [hL]; rfl) (by omega)
    rwa [← hedef] at this
  -- the sector is not the one with which the ring begins
  have hne : e * D.sizeOfEachSector ≠ s.startAddress := by
    rw [h.startAddress, hedef, hcur, nextSector_sectorAt]
    intro heq
    have h0 := Nat.eq_of_mul_eq_mul_right D.size_pos heq
    have := sectorAt_inj h.wellFormed.1 hlt D.sectors_pos
      (h0.trans (sectorAt_zero h.wellFormed.1).symm)
    omega
  have hnew : newSectorStatus (nextRead D e (nextRead D e (erased D e s))) = SectorStatus.used :=
    if_neg (by rw [show (nextRead D e (nextRead D e (erased D e s))).endAddress = _ from ha]
               exact hne)
  obtain ⟨F₂, hF₂⟩ := hm.start (by rw [hL]) (by omega)
  rw [← hedef] at hF₂
  have hrep : Represents D (.sectors first (older ++ [newest]) []) (started D e
      (nextRead D e (nextRead D e (erased D e s)))).flash := by
    refine ⟨F₂, ?_⟩
    simp only [started, hnew]
    rw [ringLayout_newSector]
    subst hL
    exact hF₂
  rw [hL] at hm
  have herase := erase_free (I := Stage D (.sectors first older newest) n range) he ha hnext
    (.closed rfl hm) (.closed rfl hm)
  have hstatus := status_write (I := Stage D (.sectors first older newest) n range)
    (s := nextRead D e (erased D e s)) he ha hS hnext (.closed rfl hm) (.room (by
      rw [makeRoom_of_not hroom, Ring.newSector_left hlt]
      exact hrep))
  refine ⟨_, herase.append hstatus, { h with wellFormed := ?_, flash := hrep, endAddress := ?_ }, rfl, rfl, ?_⟩
  · rw [← Ring.newSector_left hlt]
    exact Ring.wellFormed_newSector h.wellFormed
  · show e * D.sizeOfEachSector + 1 = endOf D (D.sectorAt first (older ++ [newest]).length) (1 + 0)
    rw [endOf_of_lt hS, hedef, hcur, nextSector_sectorAt, List.length_append,
      List.length_singleton]
  · have hgive : ¬ (Ring.sectors first older newest).GivesUp D n := by
      intro hg
      have : older.length + 1 = D.numberOfSectors := hg.2
      omega
    rw [if_neg hgive]
    rfl

/-- The oldest sector is given up and started anew. -/
theorem start_full {oldest : List (List UInt8)} {rest : List (List (List UInt8))}
    (range : List UInt8) (h : Closed D first (oldest :: rest) newest F s) (hS : 1 < D.sizeOfEachSector)
    (hroom : ¬ (Ring.sectors first (oldest :: rest) newest).HasRoom D n)
    (hfull : rest.length + 2 = D.numberOfSectors) :
    ∃ t, EndsIn (Stage D (.sectors first (oldest :: rest) newest) n range)
        (eraseSectorIfAtStart D ++ writeSectorStatusIfAtStartOfSector D) s t ∧
      Placed D (.sectors (D.nextSector first) (rest ++ [newest]) []) t ∧
      Kept D (.sectors first (oldest :: rest) newest) n s t := by
  have he : first < D.numberOfSectors := h.wellFormed.1
  have hn := FlashHomogeneous.nextSector_lt D.toFlashHomogeneous first
  have ha : s.endAddress = first * D.sizeOfEachSector := by
    rw [h.endAddress, nextSector_sectorAt, List.length_cons, hfull, sectorAt_all he]
  -- the oldest sector is erased
  obtain ⟨F₁, hm₁⟩ := h.flash.erase_oldest
    (show _ = oldest.map .ready :: rest.map (·.map .ready) from rfl)
    (by simp [ringLayout, layoutWith]; omega)
  have hnext₁ : D.readStatus (erased D first s).flash (D.nextSector first * D.sizeOfEachSector)
      = SectorStatus.used := hm₁.readStatus_first
  -- the next one becomes the first
  obtain ⟨F₂, hm₂⟩ : ∃ F₂, Contains D (handedOver D first (erased D first s)).flash
      { ringLayout (D.nextSector first) rest newest with closed := true } F₂ := hm₁.mark rfl
  have hnext₂ : D.readStatus (handedOver D first (erased D first s)).flash
      (D.nextSector first * D.sizeOfEachSector) ≠ SectorStatus.used := by
    have hstatus : D.readStatus (handedOver D first (erased D first s)).flash
        (D.nextSector first * D.sizeOfEachSector) = SectorStatus.firstInCycle :=
      hm₂.readStatus_first
    rw [hstatus]
    simp [SectorStatus.firstInCycle, SectorStatus.used]
  -- the erased one is started
  obtain ⟨F₃, hm₃⟩ := hm₂.start rfl (by simp [ringLayout, layoutWith]; omega)
  have hcur : D.nextSector (Layout.current D { ringLayout (D.nextSector first) rest newest with
      closed := true }) = first := by
    show D.nextSector (D.sectorAt (D.nextSector first) (rest.map (·.map Block.ready)).length)
      = first
    rw [List.length_map, sectorAt_nextSector, nextSector_sectorAt, hfull, sectorAt_all he]
  rw [hcur] at hm₃
  have hnew : newSectorStatus (nextRead D first (handedOver D first (erased D first s)))
      = SectorStatus.used := by
    refine if_neg (fun heq => ?_)
    have heq' : s.endAddress = D.nextSector first * D.sizeOfEachSector := heq
    rw [ha] at heq'
    exact nextSector_ne he (Nat.eq_of_mul_eq_mul_right D.size_pos heq').symm
  have hrep : Represents D (.sectors (D.nextSector first) (rest ++ [newest]) []) (started D first
      (nextRead D first (handedOver D first (erased D first s)))).flash := by
    refine ⟨F₃, ?_⟩
    simp only [started, hnew]
    rw [ringLayout_newSector]
    exact hm₃
  have herase := erase_handOver
    (I := Stage D (.sectors first (oldest :: rest) newest) n range) he ha hnext₁
    (.erased rfl hfull hroom hm₁) (.erased rfl hfull hroom hm₁) (.handedOver rfl hfull hroom hm₂)
  have hstatus := status_write (I := Stage D (.sectors first (oldest :: rest) newest) n range)
    (s := handedOver D first (erased D first s)) he ha hS hnext₂
    (.handedOver rfl hfull hroom hm₂) (.room (by
      rw [makeRoom_of_not hroom, Ring.newSector_full hfull]
      exact hrep))
  refine ⟨_, herase.append hstatus, ⟨?_, hrep, rfl, ?_, h.partialAddStarted,
    h.partialSizeWritten⟩, rfl, rfl, ?_⟩
  · have hwf := Ring.wellFormed_newSector h.wellFormed
    rwa [Ring.newSector_full hfull] at hwf
  · show first * D.sizeOfEachSector + 1
      = endOf D (D.sectorAt (D.nextSector first) (rest ++ [newest]).length) (1 + 0)
    rw [endOf_of_lt hS, List.length_append, List.length_singleton, sectorAt_nextSector, hfull,
      sectorAt_all he]
  · have hgive : (Ring.sectors first (oldest :: rest) newest).GivesUp D n :=
      ⟨hroom, by simp only [Ring.used, List.length_cons]; omega⟩
    have hsec : D.sectorOfAddress s.startAddress = first := by
      have := FlashHomogeneous.sectorOfAddress_eq (f := D.toFlashHomogeneous) (e := first) D.size_pos
      rwa [Nat.add_zero, ← h.startAddress] at this
    rw [if_pos hgive]
    show s.iterators.map (Iterator.sectorIsErased D (D.sectorOfAddress s.startAddress)) = _
    rw [hsec]
    rfl

/-- Making room for a record. -/
theorem makeRoom_spec (h : Placed D r s) (hn : range.length + s.remainingPartialSize = n)
    (hfit : n + 4 ≤ D.sizeOfEachSector) :
    ∃ t, EndsIn (Stage D r n range) (fillSectorIfDataDoesNotFit D range ++ (eraseSectorIfAtStart D
        ++ writeSectorStatusIfAtStartOfSector D)) s t ∧
      Placed D (r.makeRoom D n) t ∧ Kept D r n s t := by
  have hS : 1 < D.sizeOfEachSector := by omega
  cases r with
  | empty =>
      obtain ⟨t, hends, hplaced, hkept⟩ := start_first (n := n) range h hS
      have ha : s.endAddress = 0 * D.sizeOfEachSector := by
        rw [h.endAddress, Nat.zero_mul]
        rfl
      refine ⟨t, .append (fill_start D.sectors_pos ha (by omega)) hends, ?_, hkept⟩
      rw [makeRoom_of_not (show ¬ Ring.empty.HasRoom D n from fun hroom => hroom)]
      exact hplaced
  | sectors first older newest =>
      obtain ⟨F, hF⟩ := h.flash
      have hle : 1 + recordsSize newest ≤ D.sizeOfEachSector := hF.newest_fits
      have he : D.sectorAt first older.length < D.numberOfSectors := sectorAt_lt
      have hcur : (ringLayout first older newest).current D = D.sectorAt first older.length := by
        simp [Layout.current, ringLayout, layoutWith]
      have ha := h.endAddress
      by_cases hroom : (Ring.sectors first older newest).HasRoom D n
      · have hroom' : 1 + recordsSize newest + 3 + n ≤ D.sizeOfEachSector := hroom
        have hlt : 1 + recordsSize newest < D.sizeOfEachSector := by omega
        rw [Ring.endAddress, endOf_of_lt hlt] at ha
        have hgive : ¬ (Ring.sectors first older newest).GivesUp D n := fun hg => hg.1 hroom
        refine ⟨s, .append (fill_skip he hlt ha (by omega)) (.append
          (erase_skip he hlt (by omega) ha) (status_skip he hlt (by omega) ha)), ?_, rfl, rfl, ?_⟩
        · rw [Ring.makeRoom, if_pos hroom]
          exact h
        · rw [if_neg hgive]
      · have hroom' : D.sizeOfEachSector < 1 + recordsSize newest + 3 + n := Nat.lt_of_not_le hroom
        -- the newest sector is closed, unless it is full
        obtain ⟨s', F', hends, hclosed, hkept⟩ : ∃ s' F',
            EndsIn (Stage D (.sectors first older newest) n range)
              (fillSectorIfDataDoesNotFit D range) s s' ∧
            Closed D first older newest F' s' ∧ s'.remainingPartialSize = s.remainingPartialSize ∧
            s'.assertionFailed = s.assertionFailed ∧ s'.iterators = s.iterators := by
          by_cases hlt : 1 + recordsSize newest < D.sizeOfEachSector
          · rw [Ring.endAddress, endOf_of_lt hlt] at ha
            obtain ⟨F', hF'⟩ := hF.close rfl hlt
            rw [hcur] at hF'
            refine ⟨_, F', fill_close he hlt ha (by omega) (.closed rfl hF'), ?_, rfl, rfl, rfl⟩
            exact { h with flash := hF', endAddress := rfl }
          · have hfull : 1 + recordsSize newest = D.sizeOfEachSector := by omega
            rw [Ring.endAddress, hfull, endOf_size] at ha
            obtain ⟨F', hF'⟩ := hF.close_full hfull.symm
            refine ⟨s, F', fill_start (nextSector_lt _ _) ha (by omega), ?_, rfl,
              rfl, rfl⟩
            exact { h with flash := hF', endAddress := ha }
        obtain ⟨hrem, hassert, hits⟩ := hkept
        rw [makeRoom_of_not hroom]
        rcases Ring.left_or_full h.wellFormed with hlt | ⟨oldest, rest, rfl, hall⟩
        · obtain ⟨t, hstart, hplaced, hk⟩ := start_left range hclosed hS hroom hlt
          rw [Ring.newSector_left hlt]
          exact ⟨t, hends.append hstart, hplaced, hk.1.trans hrem, hk.2.trans hassert,
            by rw [hk.3, hits]⟩
        · obtain ⟨t, hstart, hplaced, hk⟩ := start_full range hclosed hS hroom hall
          rw [Ring.newSector_full hall]
          exact ⟨t, hends.append hstart, hplaced, hk.1.trans hrem, hk.2.trans hassert,
            by rw [hk.3, hits]⟩

end

/-! ## Writing the record -/

section

variable {I : Store → Prop} {s : Store} {e o n : Nat} {range : List UInt8}

/-- The steps that write the header of a record of `n` bytes. -/
def lengthStatusWritten (D : Device) (e o : Nat) (s : Store) : Store :=
  { setStatus writingLength s with
    flash := NorMemory.program s.flash (e * D.sizeOfEachSector + o) [writingLength] }

def lengthWritten (D : Device) (e o n : Nat) (s : Store) : Store :=
  { s with
    blockHeader := s.blockHeader.setBlockLength n,
    flash := NorMemory.program s.flash (e * D.sizeOfEachSector + (o + 1))
      [UInt8.ofNat n, UInt8.ofNat (n / 256)] }

def dataStatusWritten (D : Device) (e o : Nat) (s : Store) : Store :=
  { setStatus writingData s with
    flash := NorMemory.program s.flash (e * D.sizeOfEachSector + o) [writingData] }

/-- The steps that write a part of the record, and finish it. -/
def dataWritten (D : Device) (e o : Nat) (range : List UInt8) (s : Store) : Store :=
  { s with
    partialSizeWritten := s.partialSizeWritten + range.length,
    flash := NorMemory.program s.flash
      (e * D.sizeOfEachSector + (o + (3 + s.partialSizeWritten))) range }

def completed (D : Device) (e o : Nat) (s : Store) : Store :=
  { setStatus dataReady s with
    endAddress := endOf D e (o + (3 + s.partialSizeWritten)),
    partialSizeWritten := 0,
    partialAddStarted := false,
    flash := NorMemory.program s.flash (e * D.sizeOfEachSector + o) [dataReady] }

/-- The part of `WriteRange` that every part of a record goes through. -/
def writeData (D : Device) (range : List UInt8) : List (Stmt Store) := (writeRange D range).tail

variable (he : e < D.numberOfSectors) (ha : s.endAddress = e * D.sizeOfEachSector + o)
include he ha

section

variable (hfit : o + 3 + (s.partialSizeWritten + range.length) ≤ D.sizeOfEachSector)
include hfit

theorem dataWritten_eq :
    ({ s with partialSizeWritten := add32 s.partialSizeWritten range.length } : Store).writeBuffer
      range (add32 (add32 s.endAddress s.partialSizeWritten) 3) = dataWritten D e o range s := by
  have h32 := address_lt (f := D.toFlashHomogeneous) he hfit
  have haddr : add32 (add32 s.endAddress s.partialSizeWritten) 3
      = e * D.sizeOfEachSector + (o + (3 + s.partialSizeWritten)) := by
    rw [ha, add32_inside he (by omega), add32_inside he (by omega)]
    omega
  have hw : add32 s.partialSizeWritten range.length = s.partialSizeWritten + range.length :=
    add32_of_lt (by omega)
  simp only [Store.writeBuffer, dataWritten, haddr, hw]

/-- A part of the record is written, and more is to come. -/
theorem writeData_more (hrem : s.remainingPartialSize ≠ 0) (hI₁ : I (dataWritten D e o range s))
    (hI₂ : I { dataWritten D e o range s with partialAddStarted := true }) :
    EndsIn I (writeData D range) s { dataWritten D e o range s with partialAddStarted := true } := by
  refine .stepTo (dataWritten_eq he ha hfit) hI₁ (.stepTo ?_ hI₂ (.nil _))
  exact if_neg hrem

/-- The last part of the record is written. -/
theorem writeData_last (hrem : s.remainingPartialSize = 0) (hI₁ : I (dataWritten D e o range s))
    (hI₂ : I (completed D e o (dataWritten D e o range s))) :
    EndsIn I (writeData D range) s (completed D e o (dataWritten D e o range s)) := by
  refine .stepTo (dataWritten_eq he ha hfit) hI₁ (.stepTo ((if_pos hrem).trans ?_) hI₂ (.nil _))
  have h32 := address_lt (f := D.toFlashHomogeneous) he hfit
  have hend : wrapAddress D (add32 (e * D.sizeOfEachSector + o)
      (add32 (s.partialSizeWritten + range.length) 3))
      = endOf D e (o + (3 + (s.partialSizeWritten + range.length))) := by
    rw [add32_of_lt (show s.partialSizeWritten + range.length + 3 < _ by omega),
      add32_inside he (by omega), wrapAddress_eq he (by omega),
      Nat.add_comm (s.partialSizeWritten + range.length) 3]
  simp only [Store.writeBuffer, completed, setStatus, dataWritten, ha, hend]

end

/-- The header is written. -/
theorem writeHeader (hstarted : s.partialAddStarted = false) (hwritten : s.partialSizeWritten = 0)
    (hn : range.length + s.remainingPartialSize = n) (hfit : o + 3 + n ≤ D.sizeOfEachSector)
    (hpos : 0 < o) {t : Store} (hI₁ : I (lengthStatusWritten D e o s))
    (hI₂ : I (lengthWritten D e o n (lengthStatusWritten D e o s)))
    (hI₃ : I (dataStatusWritten D e o (lengthWritten D e o n (lengthStatusWritten D e o s))))
    (h : EndsIn I (writeData D range)
      (dataStatusWritten D e o (lengthWritten D e o n (lengthStatusWritten D e o s))) t) :
    EndsIn I (writeRange D range) s t := by
  refine .ifTrue (by rw [hstarted]; rfl)
    (.stepTo ?_ hI₁ (.stepTo ?_ hI₂ (.stepTo ?_ hI₃ h)))
  · have hassert : decide (sizeofBlockHeader + range.length + s.remainingPartialSize + 1
        ≤ D.sizeOfSector (D.sectorOfAddress (e * D.sizeOfEachSector + o))) = true := by
      rw [sizeOfSector_eq, sizeofBlockHeader]
      exact decide_eq_true (by omega)
    simp only [hassert, Bool.not_true, Bool.or_false, Store.writeBuffer, lengthStatusWritten, ha,
      setStatus]
  · have hend : (lengthStatusWritten D e o s).endAddress = e * D.sizeOfEachSector + o := ha
    have hlen : range.length + (lengthStatusWritten D e o s).remainingPartialSize = n := hn
    simp only [hend, hlen, Store.writeBuffer, lengthWritten, add32_inside he
      (show o + 1 ≤ D.sizeOfEachSector by omega), BlockHeader.setBlockLength]
  · have hend : add32 (lengthWritten D e o n (lengthStatusWritten D e o s)).endAddress
        (lengthWritten D e o n (lengthStatusWritten D e o s)).partialSizeWritten
        = e * D.sizeOfEachSector + o := by
      show add32 s.endAddress s.partialSizeWritten = _
      rw [ha, hwritten, add32_inside he (by omega), Nat.add_zero]
    simp only [hend, Store.writeBuffer, dataStatusWritten, setStatus]

end

/-! ## A record in the ring -/

section

variable {s : Store} {r : Ring} {n k : Nat} {range w : List UInt8} {first : Nat}
  {older : List (List (List UInt8))} {newest : List (List UInt8)} {blocks blocks' : List Block}
  {m m' : Memory} {F : Nat → Sector}

/-- The blocks of the newest sector change. -/
theorem Contains.changeNewest (h : Contains D m (layoutWith first older blocks) F)
    (hm : ∀ b, F (D.sectorAt first older.length) = .inUse b blocks false →
      Holds D m' (Function.update F (D.sectorAt first older.length) (.inUse b blocks' false))) :
    ∃ F', Contains D m' (layoutWith first older blocks') F' := by
  have hcur : (layoutWith first older blocks).current D = D.sectorAt first older.length := by
    simp [Layout.current, layoutWith]
  have hnew := h.newest
  rw [hcur] at hnew
  have hm' := hm _ hnew
  rw [← hcur] at hm'
  exact ⟨_, h.updateNewest hm'⟩

/-- A record of `w.length + k` bytes is being written behind the records of the newest sector, and
`w` has been written. -/
structure Writing (D : Device) (first : Nat) (older : List (List (List UInt8)))
    (newest : List (List UInt8)) (w : List UInt8) (k : Nat) (s : Store) : Prop where
  wellFormed : (Ring.sectors first older newest).WellFormed D
  flash : ∃ F, Contains D s.flash
    (layoutWith first older (newest.map .ready ++ [.dataPending (w ++ List.replicate k blank)])) F
  startAddress : s.startAddress = first * D.sizeOfEachSector
  endAddress : s.endAddress
    = D.sectorAt first older.length * D.sizeOfEachSector + (1 + recordsSize newest)
  partialSizeWritten : s.partialSizeWritten = w.length

namespace Writing

theorem fits (h : Writing D first older newest w k s) :
    1 + recordsSize newest + 3 + (w.length + k) ≤ D.sizeOfEachSector := by
  obtain ⟨F, hF⟩ := h.flash
  have hle : 1 + size (newest.map .ready ++ [.dataPending (w ++ List.replicate k blank)])
      ≤ D.sizeOfEachSector := hF.newest_fits
  simp only [size_append, size_cons, size_nil, Block.body, List.length_append,
    List.length_replicate] at hle
  unfold recordsSize
  omega

/-- A further part is written. -/
theorem dataWritten (h : Writing D first older newest w k s) (hd : range.length ≤ k) :
    Writing D first older newest (w ++ range) (k - range.length)
      (dataWritten D (D.sectorAt first older.length) (1 + recordsSize newest) range s) := by
  obtain ⟨F, hF⟩ := h.flash
  refine { h with flash := ?_, partialSizeWritten := ?_ }
  · show ∃ F, Contains D (NorMemory.program s.flash (_ + (_ + (3 + s.partialSizeWritten))) range) _ F
    rw [h.partialSizeWritten]
    exact hF.changeNewest (fun b hb => hF.holds.writeData sectorAt_lt hb hd)
  · show s.partialSizeWritten + range.length = (w ++ range).length
    rw [h.partialSizeWritten, List.length_append]

/-- The record is complete. -/
theorem completed (h : Writing D first older newest w 0 s) :
    Placed D (.sectors first older (newest ++ [w]))
      (completed D (D.sectorAt first older.length) (1 + recordsSize newest) s) := by
  obtain ⟨F, hF⟩ := h.flash
  rw [List.replicate_zero, List.append_nil] at hF
  refine ⟨h.wellFormed, ?_, h.startAddress, ?_, rfl, rfl⟩
  · have hready := hF.changeNewest (fun b hb => hF.holds.writeReady sectorAt_lt hb)
    rw [show newest.map Block.ready ++ [.ready w] = (newest ++ [w]).map .ready by simp] at hready
    exact hready
  · show endOf D _ (1 + recordsSize newest + (3 + s.partialSizeWritten)) = endOf D _ _
    rw [h.partialSizeWritten]
    congr 1
    simp [recordsSize, Block.body]
    omega

end Writing

/-- The header of a record in the ring. -/
theorem header_spec (h : Placed D (.sectors first older newest) s)
    (hr : r.makeRoom D n = .sectors first older newest)
    (hroom : 1 + recordsSize newest + 3 + n ≤ D.sizeOfEachSector)
    (hn : range.length + s.remainingPartialSize = n) :
    ∃ s', Writing D first older newest [] n s' ∧
      s'.blockHeader.status = writingData ∧
      s'.remainingPartialSize = s.remainingPartialSize ∧ s'.partialAddStarted = false ∧
      s'.assertionFailed = s.assertionFailed ∧ s'.iterators = s.iterators ∧
      ∀ t, EndsIn (Stage D r n range) (writeData D range) s' t →
        EndsIn (Stage D r n range) (writeRange D range) s t := by
  have he : D.sectorAt first older.length < D.numberOfSectors := sectorAt_lt
  have ha := h.endAddress
  rw [Ring.endAddress, endOf_of_lt (by omega)] at ha
  obtain ⟨F, hF⟩ := h.flash
  obtain ⟨F₁, h₁⟩ := hF.changeNewest (fun b hb => hF.holds.writeLengthStatus he hb
    (by show 1 + recordsSize newest + 3 ≤ _; omega))
  obtain ⟨F₂, h₂⟩ := h₁.changeNewest (fun b hb => h₁.holds.writeLength he (UInt8.ofNat n)
    (UInt8.ofNat (n / 256)) hb)
  obtain ⟨F₃, h₃⟩ := h₂.changeNewest (fun b hb => h₂.holds.writeDataStatus he hb hroom)
  refine ⟨dataStatusWritten D (D.sectorAt first older.length) (1 + recordsSize newest)
      (lengthWritten D (D.sectorAt first older.length) (1 + recordsSize newest) n
        (lengthStatusWritten D (D.sectorAt first older.length) (1 + recordsSize newest) s)),
    { h with flash := ⟨F₃, h₃⟩, endAddress := ha }, rfl, rfl,
    h.partialAddStarted, rfl, rfl, fun t ht => ?_⟩
  refine writeHeader he ha h.partialAddStarted h.partialSizeWritten hn hroom (by omega)
    (.lengthPending hr h₁) (.lengthPending hr h₂) ?_ ht
  exact .dataPending hr (List.length_replicate ..) h₃ rfl ha

/-- The sequence of `Add` for a new record, or for the first part of one. -/
theorem add_first (h : Placed D r s) (hn : range.length + s.remainingPartialSize = n)
    (hfit : n + 4 ≤ D.sizeOfEachSector) :
    ∃ t, EndsIn (Stage D r n range) (add D range) s t ∧
      (s.remainingPartialSize = 0 → Placed D ((r.makeRoom D n).put range) t) ∧
      (s.remainingPartialSize ≠ 0 → t.partialAddStarted = true ∧ ∃ first older newest,
        r.makeRoom D n = .sectors first older newest ∧
        Writing D first older newest range s.remainingPartialSize t) ∧ Kept D r n s t := by
  obtain ⟨s₁, hends, hplaced, hkept⟩ := makeRoom_spec h hn hfit
  cases hr : r.makeRoom D n with
  | empty => exact (Ring.makeRoom_ne_empty r n hr).elim
  | sectors first older newest =>
      have hroom := Ring.room_makeRoom hfit hr
      rw [hr] at hplaced
      obtain ⟨s₂, hwriting, hstatus, hrem, hnot, hassert, hits, hruns⟩ := header_spec hplaced hr
        hroom (show range.length + _ = n by rw [hkept.remainingPartialSize]; exact hn)
      have hadd : ∀ t, EndsIn (Stage D r n range) (writeData D range) s₂ t →
          EndsIn (Stage D r n range) (add D range) s t := by
        intro t ht
        refine .ifTrue ?_ (hends.append (hruns t ht))
        rw [h.partialAddStarted]
        rfl
      have hfits := hwriting.fits
      have hw := hwriting.partialSizeWritten
      rw [List.length_nil, Nat.zero_add] at hfits
      rw [List.length_nil] at hw
      have hwritten := hwriting.dataWritten (show range.length ≤ n by omega)
      rw [List.nil_append, show n - range.length = s.remainingPartialSize by omega] at hwritten
      have hstage : ∀ p : Store, p.flash = (dataWritten D (D.sectorAt first older.length)
          (1 + recordsSize newest) range s₂).flash →
          p.blockHeader = s₂.blockHeader → p.endAddress = s₂.endAddress →
          Stage D r n range p := by
        intro p hp hb hend
        obtain ⟨F, hF⟩ := hwritten.flash
        rw [← hp] at hF
        refine .dataPending hr ?_ hF (by rw [hb, hstatus]) (by rw [hend, hwriting.endAddress])
        rw [List.length_append, List.length_replicate, hn]
      by_cases hzero : s.remainingPartialSize = 0
      · rw [hzero] at hwritten
        have hcompleted := hwritten.completed
        have hready : Represents D ((r.makeRoom D n).put range) (completed D
            (D.sectorAt first older.length) (1 + recordsSize newest) (dataWritten D
              (D.sectorAt first older.length) (1 + recordsSize newest) range s₂)).flash := by
          rw [hr]
          exact hcompleted.flash
        refine ⟨_, hadd _ (writeData_last sectorAt_lt hwriting.endAddress (by rw [hw]; omega)
          (by rw [hrem, hkept.remainingPartialSize, hzero]) (hstage _ rfl rfl rfl) (.ready hready)),
          fun _ => hcompleted, fun hc => absurd hzero hc, ?_⟩
        exact ⟨hrem.trans hkept.1, hassert.trans hkept.2, hits.trans hkept.3⟩
      · refine ⟨_, hadd _ (writeData_more sectorAt_lt hwriting.endAddress (by rw [hw]; omega)
          (by rw [hrem, hkept.remainingPartialSize]; exact hzero) (hstage _ rfl rfl rfl)
          (hstage _ rfl rfl rfl)), fun hc => absurd hc hzero, fun _ => ⟨rfl, first, older, newest,
          rfl, ?_⟩, ?_⟩
        · exact { hwritten with }
        · exact ⟨hrem.trans hkept.1, hassert.trans hkept.2, hits.trans hkept.3⟩

/-- The sequence of `Add` for a further part of a record. -/
theorem add_more (h : Writing D first older newest w k s) (hstarted : s.partialAddStarted = true)
    (hd : range.length ≤ k) (hrem : s.remainingPartialSize = k - range.length) :
    ∃ t, Ends (add D range) s t ∧
      (k = range.length → Placed D (.sectors first older (newest ++ [w ++ range])) t) ∧
      (k ≠ range.length → t.partialAddStarted = true ∧
        Writing D first older newest (w ++ range) (k - range.length) t) ∧
      t.remainingPartialSize = s.remainingPartialSize ∧ t.assertionFailed = s.assertionFailed ∧
      t.iterators = s.iterators := by
  have hadd : ∀ t, Ends (writeData D range) s t → Ends (add D range) s t := by
    intro t ht
    have hnot : (!s.partialAddStarted) = false := by rw [hstarted]; rfl
    exact .ifFalse hnot (.ifFalse hnot ht)
  have hfits := h.fits
  have hw := h.partialSizeWritten
  have hwritten := h.dataWritten hd
  by_cases hzero : k = range.length
  · rw [show k - range.length = 0 by omega] at hwritten hrem
    exact ⟨_, hadd _ (writeData_last sectorAt_lt h.endAddress (by rw [hw]; omega) hrem trivial
      trivial), fun _ => hwritten.completed, fun hc => absurd hzero hc, rfl, rfl, rfl⟩
  · refine ⟨_, hadd _ (writeData_more sectorAt_lt h.endAddress (by rw [hw]; omega)
      (by rw [hrem]; omega) trivial trivial), fun hc => absurd hc hzero, fun _ => ⟨rfl, ?_⟩, rfl,
      rfl, rfl⟩
    exact { hwritten with }

end

end EmbeddedInfra.CyclicStore
