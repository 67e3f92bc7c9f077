import EmbeddedInfra.Services.CyclicStore.Restart

set_option autoImplicit false

/-! # Loss of power during an addition

Power is lost between two flash operations of an `Add`. What the flash contains then is one of the
stages of an addition (`Stage`), each of which a new store recovers from and iterates over.
-/

namespace EmbeddedInfra.CyclicStore

open NorMemory Sequencer

variable {D : Device} {m : Memory} {L : Layout} {F : Nat → Sector} {r : Ring} {d : List UInt8}
  {p s : Store} {first : Nat} {older : List (List (List UInt8))} {newest : List (List UInt8)}
  {extra : List Block}

/-- A new store on the contents `m` comes up, and a full iteration over it returns `result`. -/
def Survives (D : Device) (m : Memory) (result : List (List UInt8)) : Prop :=
  ∃ pauses u, Constructs D m pauses u ∧ ∀ buffer, (∀ x ∈ result, x.length ≤ buffer.length) →
    ∀ ds, Iterates D u buffer {} ds ↔ ds = result

theorem survives_of_iterates {a b : Nat} {result : List (List UInt8)}
    (hrec : ∃ pauses u, Recovers D m a b pauses u)
    (hit : ∀ u : Store, u.flash = m → u.startAddress = a → ∀ buffer,
      (∀ x ∈ result, x.length ≤ buffer.length) → Iterates D u buffer {} result) :
    Survives D m result := by
  obtain ⟨pauses, u, hu⟩ := hrec
  refine ⟨pauses, u, hu.constructs, fun buffer hbuf ds => ?_⟩
  have h := hit u hu.fresh.flash hu.startAddress buffer hbuf
  exact ⟨fun hds => hds.unique h, fun heq => heq ▸ h⟩

/-! ## Complete rings -/

/-- The records can be read back. -/
def Readable (rs : List (List UInt8)) : Prop := ∀ x ∈ rs, x ≠ [] ∧ x.length < 65536

/-- A ring that lies in the flash as it does between two additions. -/
theorem Represents.survives (h : Represents D r m) (hwf : r.WellFormed D)
    (hS : 5 ≤ D.sizeOfEachSector) (hrec : Readable r.records) : Survives D m r.records := by
  have hidle : Idle D r {
      flash := m, startAddress := r.first * D.sizeOfEachSector, endAddress := r.endAddress D } :=
    ⟨⟨hwf, h, rfl, rfl, rfl, rfl⟩, rfl, rfl⟩
  obtain ⟨b, -, hrecovers⟩ := hidle.recovers (fun _ => hS) (fun x hx => (hrec x hx).1)
  refine survives_of_iterates hrecovers (fun u hflash hstart buffer hbuf => ?_)
  cases r with
  | empty =>
      rw [Represents, ← hflash] at h
      exact iterates_erased h D.sectors_pos hstart rfl
  | sectors first older newest =>
      obtain ⟨F, hF⟩ := h
      rw [← hflash, ringLayout, ← List.append_nil (newest.map Block.ready)] at hF
      exact iterates_layoutWith hF (by omega) hstart hrec trivial rfl hbuf

/-! ## Layouts during an addition -/

/-- A layout whose first sector is marked comes up with its first sector. -/
theorem Contains.recovers_marked (h : Contains D m L F) (hm : L.marked = true)
    (hring : L.first = 0 ∨ L.older.length + 1 = D.numberOfSectors) (hS : 1 < D.sizeOfEachSector)
    (hscan : L.older.length + 1 < D.numberOfSectors → Scannable D (L.current D) [] L.newest) :
    ∃ b pauses u, Recovers D m (L.first * D.sizeOfEachSector) b pauses u := by
  by_cases hall : L.older.length + 1 = D.numberOfSectors
  · exact ⟨_, h.recovers_all hm hall⟩
  · have hlt := h.older_lt
    have hleft : L.older.length + 1 < D.numberOfSectors := by omega
    obtain ⟨b, -, hrec⟩ := h.recovers_prefix hm hS (hring.resolve_right hall) hleft
      (h.follows_blocks (hscan hleft) hS)
    exact ⟨b, hrec⟩

theorem readable_older {rs : List (List UInt8)}
    (h : Readable (Ring.sectors first older newest).records) (hrs : rs ∈ older) : Readable rs := by
  intro x hx
  refine h x ?_
  simp only [Ring.records, List.mem_flatten, List.mem_append]
  exact ⟨rs, .inl hrs, hx⟩

theorem readable_newest (h : Readable (Ring.sectors first older newest).records) :
    Readable newest := by
  intro x hx
  refine h x ?_
  simp only [Ring.records, List.mem_flatten, List.mem_append]
  exact ⟨newest, .inr (by simp), hx⟩

theorem records_ringLayout (marked closed : Bool) (first : Nat) (older : List (List (List UInt8)))
    (newest : List (List UInt8)) :
    ({ ringLayout first older newest with marked := marked, closed := closed } : Layout).records
      = (Ring.sectors first older newest).records := by
  have h := records_layoutWith first older newest []
  rw [List.append_nil, records_nil, List.append_nil] at h
  exact h

/-- A ring whose newest sector has been closed. -/
theorem survives_closed {marked : Bool} {a b : Nat}
    (h : Contains D m { ringLayout first older newest with marked := marked, closed := true } F)
    (hend : marked = true ∨ older.length + 1 < D.numberOfSectors) (hS : 1 < D.sizeOfEachSector)
    (hrec : Readable (Ring.sectors first older newest).records)
    (ha : a = first * D.sizeOfEachSector) (hrecovers : ∃ pauses u, Recovers D m a b pauses u) :
    Survives D m (Ring.sectors first older newest).records := by
  refine survives_of_iterates hrecovers (fun u hflash hstart buffer hbuf => ?_)
  rw [← hflash] at h
  rw [← records_ringLayout marked true] at hbuf ⊢
  refine h.iterates hS ?_ ?_ (walkable_all (readable_newest hrec)) (hstart.trans ha) hbuf
  · simpa [ringLayout, layoutWith] using hend
  · intro blocks hmem e
    obtain ⟨rs, hrs, rfl⟩ := List.mem_map.mp hmem
    exact walkable_all (readable_older hrec hrs)

/-- A ring in whose newest sector a record is being written. -/
theorem survives_pending (h : Contains D m (layoutWith first older (newest.map .ready ++ extra)) F)
    (hwf : (Ring.sectors first older newest).WellFormed D) (hS : 1 < D.sizeOfEachSector)
    (hrec : Readable (Ring.sectors first older newest).records) (hnone : records extra = [])
    (hwalk : Walkable D (D.sectorAt first older.length) (newest.map .ready) extra)
    (hscan : older.length + 1 < D.numberOfSectors →
      Scannable D (D.sectorAt first older.length) (newest.map .ready) extra) :
    Survives D m (Ring.sectors first older newest).records := by
  have holder : (layoutWith first older (newest.map .ready ++ extra)).older.length
      = older.length := by simp [layoutWith]
  have hcur : (layoutWith first older (newest.map .ready ++ extra)).current D
      = D.sectorAt first older.length := by simp [Layout.current, layoutWith]
  obtain ⟨b, hrecovers⟩ := h.recovers_marked rfl (by rw [holder]; exact hwf.2.2) hS (by
    rw [holder, hcur]
    intro hleft
    exact scannable_append (readable_newest hrec) (by simpa using hscan hleft))
  refine survives_of_iterates hrecovers (fun u hflash hstart buffer hbuf => ?_)
  rw [← hflash] at h
  exact iterates_layoutWith h hS hstart hrec hwalk hnone hbuf

/-! ## The stages of an addition -/

/-- The points at which the loss of power does not hit a defect of the recovery: no sector but the
first one of the flash is marked as the first of the cycle while the sector before it is erased, and
no record is unfinished whose place ends with the flash. -/
structure Recoverable (D : Device) (d : List UInt8) (p : Store) : Prop where
  statuses : ∀ e, e + 1 < D.numberOfSectors →
    D.readStatus p.flash (e * D.sizeOfEachSector) = SectorStatus.empty →
    D.readStatus p.flash ((e + 1) * D.sizeOfEachSector) ≠ SectorStatus.firstInCycle
  notAtFlashEnd : p.blockHeader.status = BlockStatus.writingData →
    p.endAddress + 3 + d.length ≠ D.totalSize

/-- A ring that has lost its oldest sector has the records that are left after making room. -/
theorem records_given_up {oldest : List (List UInt8)} {rest : List (List (List UInt8))} {n : Nat}
    (hfull : rest.length + 2 = D.numberOfSectors)
    (hroom : ¬ (Ring.sectors first (oldest :: rest) newest).HasRoom D n) :
    ((Ring.sectors first (oldest :: rest) newest).makeRoom D n).records
      = (Ring.sectors (D.nextSector first) rest newest).records := by
  rw [makeRoom_of_not hroom, Ring.newSector_full hfull]
  simp [Ring.records]

/-- The sector that is erased and the next one, when the first mark has been handed over. -/
theorem handedOver_first {rest : List (List (List UInt8))} (hfirst : first < D.numberOfSectors)
    (hfull : rest.length + 2 = D.numberOfSectors)
    (h : Contains D p.flash { ringLayout (D.nextSector first) rest newest with closed := true } F)
    (hp : Recoverable D d p) : D.nextSector first = 0 := by
  by_contra hne
  have hnext : D.nextSector first = first + 1 := by
    unfold FlashHomogeneous.nextSector at hne ⊢
    by_cases hlast : first + 1 = D.numberOfSectors
    · rw [hlast, Nat.mod_self] at hne
      exact absurd rfl hne
    · exact Nat.mod_eq_of_lt (by omega)
  have hlt : first + 1 < D.numberOfSectors := hnext ▸ FlashHomogeneous.nextSector_lt _ _
  -- the erased sector is the last one in the ring
  have hpos : D.sectorAt (D.nextSector first) (rest.length + 1) = first := by
    rw [sectorAt_nextSector, hfull, sectorAt_all hfirst]
  have herased : D.readStatus p.flash (first * D.sizeOfEachSector) = SectorStatus.empty := by
    rw [readStatus_eq h.holds hfirst, ← hpos]
    have hstatus := h.status (i := rest.length + 1) (by omega)
    rw [if_neg (by simp [ringLayout, layoutWith])] at hstatus
    exact hstatus
  have hmarked := h.readStatus_first
  rw [show ({ ringLayout (D.nextSector first) rest newest with closed := true } : Layout).first
    = D.nextSector first from rfl, hnext] at hmarked
  exact hp.statuses first hlt herased hmarked

/-- What survives at a stage of an addition. -/
theorem Stage.survives (h : Stage D r d.length d p) (hwf : r.WellFormed D)
    (hfit : d.length + 4 ≤ D.sizeOfEachSector) (hd : d ≠ []) (hdlen : d.length < 65536)
    (hrec : Readable r.records) (hp : Recoverable D d p) :
    ∃ result, Survives D p.flash result ∧
      (result = r.records ∨ result = (r.makeRoom D d.length).records ∨
        result = (r.makeRoom D d.length).records ++ [d] ∧
          (D.readHeader p.flash ((r.makeRoom D d.length).endAddress D)).status
            = BlockStatus.dataReady) := by
  have hpos : 0 < d.length := List.length_pos_iff.mpr hd
  have hroomRec : Readable (r.makeRoom D d.length).records := by
    intro x hx
    refine hrec x ?_
    rw [Ring.records_makeRoom hwf d.length]
    exact List.mem_append_right _ hx
  have hroomWf := Ring.wellFormed_makeRoom hwf d.length
  cases h with
  | unchanged h => exact ⟨_, h.survives hwf (by omega) hrec, .inl rfl⟩
  | @closed first older newest F hr h =>
      subst hr
      have holder : ({ ringLayout first older newest with closed := true } : Layout).older.length
          = older.length := by simp [ringLayout, layoutWith]
      obtain ⟨b, hrecovers⟩ := h.recovers_marked rfl (by rw [holder]; exact hwf.2.2) (by omega)
        (fun _ => scannable_ready (readable_newest hrec))
      exact ⟨_, survives_closed h (.inl rfl) (by omega) hrec rfl hrecovers, .inl rfl⟩
  | @erased first oldest rest newest F hr hfull hroom h =>
      subst hr
      have heq := records_given_up hfull hroom
      rw [heq] at hroomRec ⊢
      obtain ⟨b, -, hrecovers⟩ := h.recovers_gap rfl (by omega)
        (by simpa [ringLayout, layoutWith] using hfull)
        (h.follows_blocks (scannable_ready (readable_newest hroomRec)) (by omega))
      exact ⟨_, survives_closed h (.inr (by omega)) (by omega) hroomRec rfl hrecovers,
        .inr (.inl rfl)⟩
  | @handedOver first oldest rest newest F hr hfull hroom h =>
      subst hr
      have heq := records_given_up hfull hroom
      rw [heq] at hroomRec ⊢
      have h0 := handedOver_first hwf.1 hfull h hp
      obtain ⟨b, hrecovers⟩ := h.recovers_marked rfl (.inl h0) (by omega)
        (fun _ => scannable_ready (readable_newest hroomRec))
      exact ⟨_, survives_closed h (.inl rfl) (by omega) hroomRec rfl hrecovers, .inr (.inl rfl)⟩
  | room h => exact ⟨_, h.survives hroomWf (by omega) hroomRec, .inr (.inl rfl)⟩
  | @lengthPending first older newest F lsb msb hr h =>
      rw [hr] at hroomRec hroomWf ⊢
      have hsize := Ring.room_makeRoom hfit hr
      refine ⟨_, survives_pending h hroomWf (by omega) hroomRec rfl trivial
        (fun _ => ⟨?_, trivial⟩), .inr (.inl rfl)⟩
      show 1 + recordsSize newest + 3 < _
      omega
  | @dataPending first older newest F data hr hlen h hstatus hend =>
      rw [hr] at hroomRec hroomWf ⊢
      have hne : data ≠ [] := by
        rintro rfl
        rw [List.length_nil] at hlen
        omega
      refine ⟨_, survives_pending h hroomWf (by omega) hroomRec rfl ⟨hne, by omega, ?_, trivial⟩
        (fun hleft => ⟨by omega, ?_, trivial⟩), .inr (.inl rfl)⟩
      · -- the place of the record does not end with the flash
        have hfits : 1 + size (newest.map .ready ++ [.dataPending data]) ≤ D.sizeOfEachSector :=
          h.newest_fits
        have hsize : 1 + size (newest.map .ready ++ [.dataPending data])
            = 1 + recordsSize newest + 3 + d.length := by
          simp [recordsSize, Block.body, hlen]
          omega
        have hcur : D.sectorAt first older.length < D.numberOfSectors := sectorAt_lt
        have hnot := hp.notAtFlashEnd hstatus
        rw [hsize] at hfits ⊢
        by_contra hc
        rw [not_or] at hc
        refine hnot ?_
        have hlast : D.sectorAt first older.length = D.numberOfSectors - 1 := by omega
        rw [hend, hlast, FlashHomogeneous.totalSize_eq]
        have hmul : (D.numberOfSectors - 1) * D.sizeOfEachSector + D.sizeOfEachSector
            = D.numberOfSectors * D.sizeOfEachSector := by
          rw [← Nat.succ_mul, Nat.succ_eq_add_one, Nat.sub_add_cancel D.sectors_pos]
        omega
      · have h0 : first = 0 := hroomWf.2.2.resolve_right (by omega)
        rw [h0, sectorAt_first_zero hroomWf.2.1]
        exact hleft
  | ready h =>
      have hne := Ring.makeRoom_ne_empty (D := D) r d.length
      have hrecords := Ring.records_put hne d
      have hread : Readable ((r.makeRoom D d.length).put d).records := by
        rw [hrecords]
        intro x hx
        rcases List.mem_append.mp hx with hold | hnew
        · exact hroomRec x hold
        · rw [List.mem_singleton.mp hnew]
          exact ⟨hd, hdlen⟩
      refine ⟨_, h.survives (Ring.wellFormed_put hroomWf d) (by omega) hread, .inr (.inr ⟨hrecords,
        ?_⟩)⟩
      cases hr : r.makeRoom D d.length with
      | empty => exact (hne hr).elim
      | sectors first older newest =>
          have hsize := Ring.room_makeRoom hfit hr
          rw [hr] at h
          obtain ⟨F, hF⟩ := h
          have hsec : F (D.sectorAt first older.length) = .inUse (older.length == 0)
              (newest.map .ready ++ .ready d :: []) false := by
            have := hF.newest
            simpa [Layout.current, ringLayout, layoutWith] using this
          rw [Ring.endAddress, endOf_of_lt (by omega)]
          exact congrArg BlockHeader.status (readHeader_of_block hF.holds sectorAt_lt hsec)

/-- Whenever power is lost during an addition, a new store has all records that were complete
before and were not in the sector that this addition erases, and possibly the new record as a
whole. -/
theorem records_survive_power_loss {rs : List (List UInt8)} (hrs : Acceptable D rs)
    (hd : d ≠ [] ∧ d.length + 4 ≤ D.sizeOfEachSector) (hsizes : ∀ x ∈ rs ++ [d], x.length ≤ 65535) :
    (∃ s, History D (rs.map .add) s) ∧ ∀ s, History D (rs.map .add) s →
      ∃ pauses t, Adds D d s pauses t ∧ ∀ p ∈ s :: pauses, Recoverable D d p →
        ∃ result, Survives D p.flash result ∧
          (result = (Ring.addAll D .empty rs).records ∨
            result = ((Ring.addAll D .empty rs).makeRoom D d.length).records ∨
            result = ((Ring.addAll D .empty rs).makeRoom D d.length).records ++ [d] ∧
              (D.readHeader p.flash
                (((Ring.addAll D .empty rs).makeRoom D d.length).endAddress D)).status
                = BlockStatus.dataReady) := by
  obtain ⟨l, hlring, hpend, hladded, hcons, hex, hall⟩ := idle_of_added hrs
  refine ⟨hex, fun s hs => ?_⟩
  have hidle := hall s hs
  have hread : Readable l.ring.records :=
    hcons.readable_of_added hpend fun x hx => hsizes x (List.mem_append_left _ (hladded ▸ hx))
  have hdlen : d.length < 65536 := Nat.lt_succ_of_le (hsizes d (by simp))
  obtain ⟨pauses, t, hadds, hstages, -, -⟩ := hidle.add hd.1 hd.2
  rw [← hlring]
  refine ⟨pauses, t, hadds, fun p hp hrecoverable => ?_⟩
  have hstage : Stage D l.ring d.length d p := by
    rcases List.mem_cons.mp hp with rfl | hp
    · exact .unchanged hidle.flash
    · exact hstages p hp
  exact hstage.survives hcons.wellFormed hd.2 hd.1 hdlen hread hrecoverable

/-- Power is lost when the data of the second record has been written, and before its status is. -/
theorem tiny_record_survives : ∃ s pauses t p, History tinyDevice [.add [1, 2, 3, 4, 5, 6]] s ∧
    Adds tinyDevice [7] s pauses t ∧ p ∈ pauses ∧ p.blockHeader.status = BlockStatus.writingData ∧
      Recoverable tinyDevice [7] p ∧ ∃ result, Survives tinyDevice p.flash result ∧
        (result = [[1, 2, 3, 4, 5, 6]] ∨ result = [[1, 2, 3, 4, 5, 6], [7]]) := by
  obtain ⟨s, pauses, t, p, hs, hadds, hp, hdata, hstatus, hend⟩ : ∃ s pauses t p,
      History tinyDevice [.add [1, 2, 3, 4, 5, 6]] s ∧ Adds tinyDevice [7] s pauses t ∧ p ∈ pauses ∧
      p.blockHeader.status = BlockStatus.writingData ∧
      tinyDevice.readStatus p.flash 0 = SectorStatus.firstInCycle ∧ p.endAddress = 11 := by
    exact ⟨_, _, _, _, ⟨fun _ => blank, _, _, fun _ _ => rfl, Runs.of_interpret (n := 20) rfl,
      .cons ⟨_, Runs.of_interpret (n := 40) rfl⟩ (.nil _)⟩, Runs.of_interpret (n := 40) rfl,
      .tail _ (.tail _ (.tail _ (.tail _ (.tail _ (.tail _ (.tail _ (.head _))))))), by decide, by decide, by decide⟩
  have hrecoverable : Recoverable tinyDevice [7] p := by
    refine ⟨fun e he hempty => ?_, fun _ => by rw [hend]; decide⟩
    obtain rfl : e = 0 := by
      have : e + 1 < 2 := he
      omega
    rw [Nat.zero_mul, hstatus] at hempty
    exact absurd hempty (by decide)
  obtain ⟨pauses', t', hadds', hall⟩ := (records_survive_power_loss (d := [7])
    (show Acceptable tinyDevice [[1, 2, 3, 4, 5, 6]] by unfold Acceptable; decide) (by decide)
    (by decide)).2 s hs
  obtain ⟨rfl, rfl⟩ := Runs.unique hadds hadds'
  obtain ⟨result, hsurvives, hresult⟩ := hall p (List.mem_cons_of_mem _ hp) hrecoverable
  refine ⟨s, pauses, t, p, hs, hadds, hp, hdata, hrecoverable, result, hsurvives, ?_⟩
  rcases hresult with rfl | rfl | ⟨rfl, -⟩
  · exact .inl (by decide)
  · exact .inl (by decide)
  · exact .inr (by decide)

/-- Both sectors are full. Power is lost when the first one has been erased and the second one has
been marked as the first of the cycle: the new store erases the whole flash, and the record in the
second sector is lost too. -/
theorem record_lost_at_hand_over : ∃ s pauses t p,
    History tinyDevice [.add [1, 2, 3, 4, 5, 6], .add [2, 3, 4, 5, 6, 7]] s ∧
    Adds tinyDevice [9] s pauses t ∧ p ∈ pauses ∧ Survives tinyDevice p.flash [] ∧
    ((Ring.addAll tinyDevice .empty [[1, 2, 3, 4, 5, 6], [2, 3, 4, 5, 6, 7]]).makeRoom
      tinyDevice 1).records = [[2, 3, 4, 5, 6, 7]] := by
  refine ⟨_, _, _, _, ⟨fun _ => blank, _, _, fun _ _ => rfl, Runs.of_interpret (n := 20) rfl,
    .cons ⟨_, Runs.of_interpret (n := 40) rfl⟩ (.cons ⟨_, Runs.of_interpret (n := 40) rfl⟩
      (.nil _))⟩, Runs.of_interpret (n := 40) rfl, .tail _ (.tail _ (.head _)),
    ⟨_, _, Runs.of_interpret (n := 20) rfl, fun buffer _ ds => ?_⟩, by decide⟩
  constructor
  · intro hds
    exact hds.unique (iterates_erased (F := fun _ => .erased) (e := 0)
      (holds_eraseAll tinyDevice _) (by decide) rfl rfl)
  · rintro rfl
    exact iterates_erased (F := fun _ => .erased) (e := 0) (holds_eraseAll tinyDevice _)
      (by decide) rfl rfl

end EmbeddedInfra.CyclicStore
