import EmbeddedInfra.Services.CyclicStore.Clearing

set_option autoImplicit false

/-! # Copying an iterator

The copy constructor of an iterator copies the address, but neither the status of the sector that the iterator is in
nor whether it has read a sector before. Reading uses both of them where one sector ends and another one begins.
-/

namespace EmbeddedInfra.CyclicStore

open NorMemory Sequencer

variable {D : Device} {s t : Store} {it it' c c' : Iterator} {buffer : List UInt8} {m : Memory}

/-! ## Copies -/

/-- The copy constructor. -/
def Iterator.copy (other : Iterator) : Iterator where
  loadStartAddressDelayed := other.loadStartAddressDelayed
  address := other.address

/-- The copy joins the iterators of the store. -/
def Store.copyIterator (other : Iterator) (s : Store) : Store := { s with iterators := other.copy :: s.iterators }

/-- The iterators stand at the same place. -/
structure SamePosition (it c : Iterator) : Prop where
  loadStartAddressDelayed : it.loadStartAddressDelayed = c.loadStartAddressDelayed
  address : it.address = c.address

theorem SamePosition.symm (h : SamePosition it c) : SamePosition c it :=
  ⟨h.loadStartAddressDelayed.symm, h.address.symm⟩

theorem samePosition_copy (it : Iterator) : SamePosition it it.copy := ⟨rfl, rfl⟩

/-! ## Reading as a function -/

section

variable (D)

/-- `ReadSectorStatusIfAtStart`, as a whole. -/
def senseSector (m : Memory) (it : Iterator) : Iterator :=
  if D.atStartOfSector it.address then enterSector { it with sectorStatus := D.readStatus m it.address } else it

/-- The place behind the header at an address. -/
def behind (a : Nat) : Nat :=
  if D.sectorOfAddress (add32 a sizeofBlockHeader) = D.sectorOfAddress a then add32 a sizeofBlockHeader
  else D.startOfNextSectorCyclical a

/-- Where reading goes on behind the block at an address, if it has no record and is not the end of the data. -/
def behindBlock (m : Memory) (a : Nat) : Option Nat :=
  let h := D.readHeader m a
  let b := behind D a
  if h.status = BlockStatus.dataReady then
    if add32 (D.addressOffsetInSector b) h.blockLength ≤ D.sizeOfSector (D.sectorOfAddress b) then none
    else some (D.startOfNextSectorCyclical b)
  else if h.status = BlockStatus.emptyUntilEnd then
    some (if D.atStartOfSector b then b else D.startOfNextSectorCyclical b)
  else if h.status = BlockStatus.empty then none
  else if h.status = BlockStatus.writingLength then some b
  else if h.status = BlockStatus.writingData then some (add32 b h.blockLength)
  else some (D.startOfNextSectorCyclical b)

/-- A turn of the loop, up to the next sector status. -/
def passBlock (s : Store) (it : Iterator) : Iterator :=
  let x := takeHeader D s it
  match behindBlock D s.flash it.address with
  | some b => { x with address := b }
  | none => if x.blockHeader.status = BlockStatus.dataReady then takeRecord D s x else reachEnd x

end

theorem runs_senseSector (s : Store) (it : Iterator) :
    ∃ pauses, Runs (readSectorStatusIfAtStart D) ⟨s, it⟩ pauses ⟨s, senseSector D s.flash it⟩ := by
  unfold senseSector
  cases hstart : D.atStartOfSector it.address with
  | true => exact ⟨_, Runs.ifTrue hstart (.step (.execute (.nil _)))⟩
  | false => exact ⟨_, Runs.ifFalse hstart (.nil _)⟩

/-- The rest of a sector is skipped, unless it ends with the header. -/
theorem skipFilled_eq (x : Iterator) : (if D.atStartOfSector x.address then x else leaveSector D x) =
    { x with address := (if D.atStartOfSector x.address then x.address else D.startOfNextSectorCyclical x.address) } := by
  by_cases hstart : D.atStartOfSector x.address = true
  · rw [if_pos hstart, if_pos hstart]
  · rw [if_neg hstart, if_neg hstart]
    rfl

/-- What reading does with a block, up to the next sector status -/
theorem runs_passBlock (s : Store) (it : Iterator) :
    ∃ pauses, Runs ((readBlock D).take 2) ⟨s, it⟩ pauses ⟨s, passBlock D s it⟩ := by
  obtain ⟨x, hx⟩ : ∃ x, x = takeHeader D s it := ⟨_, rfl⟩
  have hheader : D.readHeader s.flash it.address = x.blockHeader := hx ▸ rfl
  have haddress : behind D it.address = x.address := hx ▸ rfl
  suffices h : ∃ pauses, Runs ((readBlock D).take 2).tail ⟨s, x⟩ pauses ⟨s, passBlock D s it⟩ by
    obtain ⟨pauses, h⟩ := h
    rw [hx] at h
    exact ⟨_, h.step⟩
  unfold passBlock behindBlock
  rw [← hx]
  simp only [hheader, haddress]
  -- the cases of the status, in the order of the source
  by_cases hready : x.blockHeader.status = BlockStatus.dataReady
  · rw [if_pos hready, if_pos hready]
    by_cases hfit : add32 (D.addressOffsetInSector x.address) x.blockHeader.blockLength ≤
        D.sizeOfSector (D.sectorOfAddress x.address)
    · rw [if_pos hfit]
      exact ⟨_, Runs.ifTrue (beq_iff_eq.mpr hready) (Runs.ifTrue (decide_eq_true hfit) (.step (.nil _)))⟩
    · rw [if_neg hfit]
      exact ⟨_, Runs.ifTrue (beq_iff_eq.mpr hready) (Runs.ifFalse (decide_eq_false hfit) (.execute (.nil _)))⟩
  rw [if_neg hready]
  refine ⟨[], Runs.ifFalse (beq_eq_false_iff_ne.mpr hready) ?_⟩
  by_cases hfilled : x.blockHeader.status = BlockStatus.emptyUntilEnd
  · rw [if_pos hfilled]
    refine Runs.ifTrue (beq_iff_eq.mpr hfilled) (.execute ?_)
    have hend := Runs.nil (Reader.mk s (if D.atStartOfSector x.address then x else leaveSector D x))
    nth_rewrite 2 [skipFilled_eq] at hend
    exact hend
  rw [if_neg hfilled]
  refine Runs.ifFalse (beq_eq_false_iff_ne.mpr hfilled) ?_
  by_cases hempty : x.blockHeader.status = BlockStatus.empty
  · rw [if_pos hempty, if_neg hready]
    exact Runs.ifTrue (beq_iff_eq.mpr hempty) (.execute (.nil _))
  rw [if_neg hempty]
  refine Runs.ifFalse (beq_eq_false_iff_ne.mpr hempty) ?_
  by_cases hlength : x.blockHeader.status = BlockStatus.writingLength
  · rw [if_pos hlength]
    exact Runs.ifTrue (beq_iff_eq.mpr hlength) (.nil _)
  rw [if_neg hlength]
  refine Runs.ifFalse (beq_eq_false_iff_ne.mpr hlength) ?_
  by_cases hdata : x.blockHeader.status = BlockStatus.writingData
  · rw [if_pos hdata]
    exact Runs.ifTrue (beq_iff_eq.mpr hdata) (.execute (.nil _))
  rw [if_neg hdata]
  exact Runs.ifFalse (beq_eq_false_iff_ne.mpr hdata) (.execute (.nil _))

theorem runs_readBlock (s : Store) (it : Iterator) :
    ∃ pauses, Runs (readBlock D) ⟨s, it⟩ pauses ⟨s, senseSector D s.flash (passBlock D s it)⟩ := by
  obtain ⟨first, hfirst⟩ := runs_passBlock (D := D) s it
  obtain ⟨rest, hrest⟩ := runs_senseSector (D := D) s (passBlock D s it)
  exact ⟨_, hfirst.append hrest⟩

/-! ## What tells a copy from its original -/

/-- The blocks from an address on lead, without a record and without the end of the data, to the start of a sector
that is marked as the first one of the cycle. -/
inductive LeadsToStart (D : Device) (m : Memory) : Nat → Prop where
  | start {a b : Nat} (h : behindBlock D m a = some b) (hstart : D.atStartOfSector b = true)
      (hfirst : D.readStatus m b = SectorStatus.firstInCycle) : LeadsToStart D m a
  | further {a b : Nat} (h : behindBlock D m a = some b) (hinside : D.atStartOfSector b = false)
      (hb : LeadsToStart D m b) : LeadsToStart D m a

/-- The iterators, at the same address, do not come to differ when they read: at the start of a sector this depends on
whether they have read a sector before, and inside of a sector on its status, and on what follows it. -/
def SameView (D : Device) (m : Memory) (it c : Iterator) : Prop :=
  if D.atStartOfSector it.address then
    it.firstSectorToRead = c.firstSectorToRead ∨ D.readStatus m it.address ≠ SectorStatus.firstInCycle
  else it.sectorStatus = c.sectorStatus ∧ (it.firstSectorToRead = c.firstSectorToRead ∨
    it.sectorStatus ≠ SectorStatus.used ∨ ¬ LeadsToStart D m it.address)

theorem SameView.symm (h : SameView D m it c) (ha : it.address = c.address) : SameView D m c it := by
  unfold SameView at h ⊢
  rw [← ha]
  by_cases hstart : D.atStartOfSector it.address = true
  · rw [if_pos hstart] at h ⊢
    exact h.imp_left Eq.symm
  · rw [if_neg hstart] at h ⊢
    obtain ⟨hstatus, hflag⟩ := h
    rw [← hstatus]
    exact ⟨rfl, hflag.imp_left Eq.symm⟩

/-- In front of a record, or at the end of the data, nothing else matters than the status of the sector. -/
theorem sameView_of_block (hinside : D.atStartOfSector it.address = false) (hstatus : it.sectorStatus = c.sectorStatus)
    (hblock : behindBlock D m it.address = none) : SameView D m it c := by
  unfold SameView
  rw [if_neg (ne_true_of_eq_false hinside)]
  refine ⟨hstatus, Or.inr (Or.inr fun hleads => ?_)⟩
  cases hleads with
  | start h _ _ => exact absurd (hblock.symm.trans h) (Option.some_ne_none _).symm
  | further h _ _ => exact absurd (hblock.symm.trans h) (Option.some_ne_none _).symm

/-! ## Reading with both -/

/-- Iterators that are reading, and agree but for what the copy constructor leaves out. -/
structure ReadTogether (it c : Iterator) : Prop extends SamePosition it c where
  readBuffer : it.readBuffer = c.readBuffer
  found : it.found = c.found
  reachedEnd : it.reachedEnd = c.reachedEnd

/-- Reading has come to its end, or goes on in the same way. -/
def Ahead (D : Device) (m : Memory) (it c : Iterator) : Prop :=
  it.found = true ∨ it.reachedEnd = true ∨ (it.sectorStatus = c.sectorStatus ∧
    (it.firstSectorToRead = c.firstSectorToRead ∨ it.sectorStatus ≠ SectorStatus.used ∨ ¬ LeadsToStart D m it.address))

/-- After the status of the sector has been read -/
theorem ReadTogether.senseSector (h : ReadTogether it c)
    (hv : it.found = true ∨ it.reachedEnd = true ∨ SameView D m it c) :
    ReadTogether (senseSector D m it) (senseSector D m c) ∧
      Ahead D m (CyclicStore.senseSector D m it) (CyclicStore.senseSector D m c) := by
  have haddress := h.address
  unfold CyclicStore.senseSector SameView at *
  rw [← haddress]
  by_cases hstart : D.atStartOfSector it.address = true
  · rw [if_pos hstart] at hv
    rw [if_pos hstart, if_pos hstart]
    refine ⟨⟨⟨h.loadStartAddressDelayed, ?_⟩, h.readBuffer, h.found, h.reachedEnd⟩, ?_⟩
    · simp only [enterSector, haddress]
    · refine hv.imp_right (Or.imp_right fun hv => ⟨?_, Or.inl rfl⟩)
      simp only [enterSector]
      rcases hv with hflag | hstatus
      · rw [hflag]
      · rw [if_neg hstatus, if_neg hstatus]
  · rw [if_neg hstart] at hv
    rw [if_neg hstart, if_neg hstart]
    exact ⟨h, hv⟩

/-- After a block has been read -/
theorem ReadTogether.passBlock (h : ReadTogether it c) (ha : Ahead D s.flash it c) (hr : readsOn it = true) :
    ReadTogether (passBlock D s it) (passBlock D s c) ∧ ((CyclicStore.passBlock D s it).found = true ∨
      (CyclicStore.passBlock D s it).reachedEnd = true ∨
        SameView D s.flash (CyclicStore.passBlock D s it) (CyclicStore.passBlock D s c)) := by
  have haddress := h.address
  have hbuffer := h.readBuffer
  obtain ⟨hstatus, hnot, hon⟩ : it.sectorStatus = SectorStatus.used ∧ it.found = false ∧ it.reachedEnd = false := by
    unfold readsOn at hr
    rw [Bool.and_eq_true, Bool.and_eq_true, Bool.not_eq_true', Bool.not_eq_true', beq_iff_eq] at hr
    exact ⟨hr.1.1, hr.1.2, hr.2⟩
  have hahead : it.sectorStatus = c.sectorStatus ∧
      (it.firstSectorToRead = c.firstSectorToRead ∨ ¬ LeadsToStart D s.flash it.address) := by
    rcases ha with hc | hc | ⟨hsame, hc | hc | hc⟩
    · exact absurd (hnot.symm.trans hc) Bool.false_ne_true
    · exact absurd (hon.symm.trans hc) Bool.false_ne_true
    · exact ⟨hsame, Or.inl hc⟩
    · exact absurd hstatus hc
    · exact ⟨hsame, Or.inr hc⟩
  have hbehind : behindBlock D s.flash c.address = behindBlock D s.flash it.address := by rw [haddress]
  have hheader : (takeHeader D s c).blockHeader = (takeHeader D s it).blockHeader := by
    show D.readHeader s.flash c.address = D.readHeader s.flash it.address
    rw [haddress]
  unfold CyclicStore.passBlock
  rw [hbehind]
  dsimp only
  rw [hheader]
  cases hb : behindBlock D s.flash it.address with
  | some b =>
      refine ⟨⟨⟨h.loadStartAddressDelayed, rfl⟩, hbuffer, h.found, h.reachedEnd⟩, Or.inr (Or.inr ?_)⟩
      unfold SameView
      by_cases hstart : D.atStartOfSector b = true
      · rw [if_pos hstart]
        exact hahead.2.imp_right fun hleads hfirst => hleads (LeadsToStart.start hb hstart hfirst)
      · rw [if_neg hstart]
        have hinside : D.atStartOfSector b = false := Bool.eq_false_of_not_eq_true hstart
        exact ⟨hahead.1, hahead.2.imp_right fun hleads =>
          Or.inr fun hrest => hleads (LeadsToStart.further hb hinside hrest)⟩
  | none =>
      have htaken : (takeHeader D s it).address = (takeHeader D s c).address := by
        show behind D it.address = behind D c.address
        rw [haddress]
      by_cases hready : (takeHeader D s it).blockHeader.status = BlockStatus.dataReady
      · simp only [if_pos hready]
        refine ⟨⟨⟨h.loadStartAddressDelayed, ?_⟩, ?_, rfl, h.reachedEnd⟩, Or.inl rfl⟩
        · simp only [takeRecord, htaken, hheader]
        · simp only [takeRecord, htaken, hheader]
          show D.readBuffer _ _ (min it.readBuffer.length _) = D.readBuffer _ _ (min c.readBuffer.length _)
          rw [hbuffer]
      · simp only [if_neg hready]
        refine ⟨⟨⟨h.loadStartAddressDelayed, ?_⟩, hbuffer, h.found, rfl⟩, Or.inr (Or.inl rfl)⟩
        simp only [reachEnd, htaken]

/-- The two readers, in the loop -/
def Together (D : Device) (s : Store) (r r' : Reader) : Prop :=
  r.store = s ∧ r'.store = s ∧ ReadTogether r.iterator r'.iterator ∧ Ahead D s.flash r.iterator r'.iterator

theorem Together.readsOn {r r' : Reader} (h : Together D s r r') : readsOn r.iterator = readsOn r'.iterator := by
  obtain ⟨-, -, htogether, hahead⟩ := h
  have hfound := htogether.found
  have hend := htogether.reachedEnd
  unfold CyclicStore.readsOn
  rw [← hfound, ← hend]
  rcases hahead with hc | hc | ⟨hc, -⟩
  · rw [hc, Bool.not_true, Bool.and_false, Bool.and_false]
  · rw [hc, Bool.not_true, Bool.and_false, Bool.and_false]
  · rw [hc]

/-- The reading of the two. -/
theorem relates_read (s : Store) : Relates
    (fun r r' => r.store = s ∧ r'.store = s ∧ ReadTogether r.iterator r'.iterator ∧
      SameView D s.flash r.iterator r'.iterator)
    (fun r r' => r.store = s ∧ r'.store = s ∧ ReadTogether r.iterator r'.iterator) (read D) := by
  have hstatus : Relates (fun r r' => r.store = s ∧ r'.store = s ∧ ReadTogether r.iterator r'.iterator ∧
      SameView D s.flash r.iterator r'.iterator) (Together D s) (readSectorStatusIfAtStart D) := by
    refine Relates.of_effect (f := fun r : Reader => Reader.mk r.store (senseSector D r.store.flash r.iterator))
      (fun r => runs_senseSector r.store r.iterator) ?_
    rintro ⟨_, it⟩ ⟨_, c⟩ ⟨rfl, rfl, htogether, hview⟩
    exact ⟨rfl, rfl, htogether.senseSector (Or.inr (Or.inr hview))⟩
  have hloop : Relates (Together D s) (Together D s) [.whileLoop (asks readsOn) (readBlock D)] := by
    refine Relates.whileLoop (c := fun r : Reader => readsOn r.iterator)
      (f := fun r : Reader => Reader.mk r.store (senseSector D r.store.flash (passBlock D r.store r.iterator)))
      (fun r => runs_readBlock r.store r.iterator) (fun r r' h => h.readsOn) ?_
    rintro ⟨_, it⟩ ⟨_, c⟩ ⟨rfl, rfl, htogether, hahead⟩ hr
    obtain ⟨hpassed, hview⟩ := htogether.passBlock hahead hr
    exact ⟨rfl, rfl, hpassed.senseSector hview⟩
  have hfinish : Relates (Together D s) (fun r r' => r.store = s ∧ r'.store = s ∧
      ReadTogether r.iterator r'.iterator) [.execute (onIterator fun _ it => if it.found then it else { it with
        readBuffer := [] })] := by
    refine Relates.of_effect (fun r => ⟨[], Runs.execute (Runs.nil _)⟩) ?_
    rintro ⟨_, it⟩ ⟨_, c⟩ ⟨rfl, rfl, htogether, -⟩
    refine ⟨rfl, rfl, ?_⟩
    have hfound := htogether.found
    show ReadTogether (if it.found then it else { it with readBuffer := [] })
      (if c.found then c else { c with readBuffer := [] })
    rw [← hfound]
    by_cases hf : it.found = true
    · rw [if_pos hf, if_pos hf]
      exact htogether
    · rw [if_neg hf, if_neg hf]
      exact ⟨{ htogether with }, rfl, rfl, htogether.reachedEnd⟩
  exact hstatus.append (hloop.append hfinish)

theorem SamePosition.prepareRead (h : SamePosition it c) (s : Store) (buffer : List UInt8) :
    ReadTogether (prepareRead s buffer it) (prepareRead s buffer c) := by
  refine ⟨⟨rfl, ?_⟩, rfl, rfl, rfl⟩
  show (if it.loadStartAddressDelayed then s.startAddress else it.address) =
    if c.loadStartAddressDelayed then s.startAddress else c.address
  rw [h.loadStartAddressDelayed, h.address]

/-- **A Read** of the one iterator is a Read of the other one, with the same result. -/
theorem Reads.of_samePosition {result : List UInt8} (h : Reads D s buffer it result it') (hpos : SamePosition it c)
    (hview : SameView D s.flash (prepareRead s buffer it) (prepareRead s buffer c)) :
    ∃ c', Reads D s buffer c result c' ∧ SamePosition it' c' := by
  obtain ⟨pauses, hruns, rfl⟩ := h
  obtain ⟨pauses', ⟨_, c'⟩, hruns', -, rfl, htogether⟩ := relates_read s _ ⟨s, prepareRead s buffer c⟩ _ _
    ⟨rfl, rfl, hpos.prepareRead s buffer, hview⟩ hruns
  exact ⟨c', ⟨pauses', hruns', htogether.readBuffer.symm⟩, htogether.toSamePosition⟩

/-! ## Going on with both -/

/-- What happens after an iterator has been copied: an operation, or a Read with each of the two iterators. -/
inductive Continuation where
  | perform (op : Operation)
  | read (buffer : List UInt8)

/-- The iterators number `i` and `j` go on, and the Reads have the given results. In front of every Read the condition
`C` holds, of the store and the two iterators. -/
inductive GoesOn (D : Device) (C : Store → List UInt8 → Iterator → Iterator → Prop) (i j : Nat) :
    Store → List Continuation → List (List UInt8 × List UInt8) → Store → Prop where
  | nil (s : Store) : GoesOn D C i j s [] [] s
  | perform {s t u : Store} {op : Operation} {events : List Continuation} {results : List (List UInt8 × List UInt8)}
      (h : Performs D op s t) (hs : GoesOn D C i j t events results u) :
      GoesOn D C i j s (.perform op :: events) results u
  | read {s u : Store} {it it' c c' : Iterator} {buffer result result' : List UInt8} {events : List Continuation}
      {results : List (List UInt8 × List UInt8)} (hit : s.iterators[i]? = some it) (hc : s.iterators[j]? = some c)
      (hC : C s buffer it c) (h : Reads D s buffer it result it') (h' : Reads D s buffer c result' c')
      (hs : GoesOn D C i j { s with iterators := (s.iterators.set i it').set j c' } events results u) :
      GoesOn D C i j s (.read buffer :: events) ((result, result') :: results) u

/-- The condition that the Reads do not come to differ. -/
def Undisturbed (D : Device) (s : Store) (buffer : List UInt8) (it c : Iterator) : Prop :=
  SameView D s.flash (prepareRead s buffer it) (prepareRead s buffer c)

/-- The iterators number `i` and `j` of the store are related. -/
def Paired (R : Iterator → Iterator → Prop) (i j : Nat) (s : Store) : Prop :=
  ∃ it c, s.iterators[i]? = some it ∧ s.iterators[j]? = some c ∧ R it c

section

variable {R : Iterator → Iterator → Prop} {C : Store → List UInt8 → Iterator → Iterator → Prop} {i j : Nat}

theorem writeReady_iterators (s : Store) : (writeReady D s).iterators = s.iterators := by
  unfold writeReady
  by_cases hlast : s.remainingPartialSize = 0
  · rw [if_pos hlast]
    rfl
  · rw [if_neg hlast]

/-- Adding changes the iterators only where a sector is erased. -/
theorem keeps_paired (hR : ∀ it c k, R it c → R (it.sectorIsErased D k) (c.sectorIsErased D k))
    (range : List UInt8) : Keeps (Paired R i j) (add D range) := by
  refine Keeps.ifBlock ?range (Keeps.append (Keeps.ifBlock keeps_nil (Keeps.step keeps_nil fun _ h => h) keeps_nil)
    (Keeps.append (Keeps.ifBlock keeps_nil ?erase keeps_nil) (Keeps.ifBlock keeps_nil ?status keeps_nil))) keeps_nil
  case erase =>
    refine Keeps.step (Keeps.step (Keeps.ifBlock keeps_nil (Keeps.step keeps_nil ?moved) keeps_nil)
      fun _ h => h) fun _ h => h
    case moved =>
      rintro s ⟨it, c, hit, hc, hpair⟩
      refine ⟨_, _, ?_, ?_, hR it c (D.sectorOfAddress s.startAddress) hpair⟩
      · show (s.iterators.map _)[i]? = _
        rw [List.getElem?_map, hit]
        rfl
      · show (s.iterators.map _)[j]? = _
        rw [List.getElem?_map, hc]
        rfl
  case status =>
    exact Keeps.step (Keeps.ifBlock (Keeps.step keeps_nil fun _ h => h) (Keeps.step keeps_nil fun _ h => h)
      keeps_nil) fun _ h => h
  case range =>
    refine Keeps.ifBlock (Keeps.step (Keeps.step keeps_nil ?ready) fun _ h => h)
      (Keeps.step (Keeps.step (Keeps.step keeps_nil fun _ h => h) fun _ h => h) fun _ h => h) keeps_nil
    case ready =>
      rintro s ⟨it, c, hit, hc, hpair⟩
      refine ⟨it, c, ?_, ?_, hpair⟩
      · exact (congrArg (fun its : List Iterator => its[i]?) (writeReady_iterators s)).trans hit
      · exact (congrArg (fun its : List Iterator => its[j]?) (writeReady_iterators s)).trans hc

/-- An operation moves both iterators. -/
theorem Paired.performs (hR : ∀ it c k, R it c → R (it.sectorIsErased D k) (c.sectorIsErased D k)) {op : Operation}
    (hs : Paired R i j s) (h : Performs D op s t) : Paired R i j t := by
  cases op with
  | add range =>
      obtain ⟨pauses, h⟩ := h
      exact (keeps_paired hR range).run (s := prepareAdd range s) hs h
  | addPartial range totalSize =>
      obtain ⟨pauses, h⟩ := h
      have hprepared : Paired R i j (prepareAddPartial range totalSize s) := by
        unfold prepareAddPartial
        cases s.partialAddStarted
        all_goals exact hs
      exact (keeps_paired hR range).run hprepared h
  | clear =>
      obtain ⟨pauses, h⟩ := h
      rw [h.eq]
      exact hs

theorem Paired.reads (hi : i < s.iterators.length) (hj : j < s.iterators.length) (hij : i ≠ j) (hpair : R it' c') :
    Paired R i j { s with iterators := (s.iterators.set i it').set j c' } := by
  refine ⟨it', c', ?_, ?_, hpair⟩
  · show ((s.iterators.set i it').set j c')[i]? = some it'
    rw [List.getElem?_set_ne hij.symm, List.getElem?_set_self hi]
  · show ((s.iterators.set i it').set j c')[j]? = some c'
    rw [List.getElem?_set_self]
    rwa [List.length_set]

/-- Iterators that stay related return the same. -/
theorem GoesOn.paired (hij : i ≠ j) (hR : ∀ it c k, R it c → R (it.sectorIsErased D k) (c.sectorIsErased D k))
    (hreads : ∀ s buffer it c result it', R it c → C s buffer it c → Reads D s buffer it result it' →
      ∃ c', Reads D s buffer c result c' ∧ R it' c')
    {events : List Continuation} {results : List (List UInt8 × List UInt8)} (h : GoesOn D C i j s events results t)
    (hs : Paired R i j s) : (∀ r ∈ results, r.1 = r.2) ∧ Paired R i j t := by
  induction h with
  | nil s => exact ⟨fun _ hr => absurd hr List.not_mem_nil, hs⟩
  | perform hop _ ih => exact ih (hs.performs hR hop)
  | read hit hc hC hread hread' _ ih =>
      obtain ⟨_, _, hit', hc', hpair⟩ := hs
      obtain rfl := Option.some.inj (hit.symm.trans hit')
      obtain rfl := Option.some.inj (hc.symm.trans hc')
      obtain ⟨_, hsame, hpair'⟩ := hreads _ _ _ _ _ _ hpair hC hread
      obtain ⟨rfl, rfl⟩ := hread'.unique hsame
      obtain ⟨hresults, hend⟩ := ih (Paired.reads (List.getElem?_eq_some_iff.mp hit).1
        (List.getElem?_eq_some_iff.mp hc).1 hij hpair')
      refine ⟨fun r hr => ?_, hend⟩
      rcases List.mem_cons.mp hr with rfl | hr
      · rfl
      · exact hresults r hr

end

theorem SamePosition.sectorIsErased (h : SamePosition it c) (sectorIndex : Nat) :
    SamePosition (it.sectorIsErased D sectorIndex) (c.sectorIsErased D sectorIndex) := by
  have haddress := h.address
  unfold Iterator.sectorIsErased
  rw [← haddress]
  by_cases hin : D.sectorOfAddress it.address = sectorIndex
  · rw [if_pos hin, if_pos hin]
    exact ⟨h.loadStartAddressDelayed, rfl⟩
  · rw [if_neg hin, if_neg hin]
    exact h

/-- As long as the Reads do not come to differ, the iterators stay at the same place. -/
theorem GoesOn.samePosition {i j : Nat} (hij : i ≠ j) {events : List Continuation}
    {results : List (List UInt8 × List UInt8)} (h : GoesOn D (Undisturbed D) i j s events results t)
    (hs : Paired SamePosition i j s) : (∀ r ∈ results, r.1 = r.2) ∧ Paired SamePosition i j t := by
  refine h.paired hij ?_ ?_ hs
  · intro it c k hpos
    exact hpos.sectorIsErased k
  · intro s buffer it c result it' hpos hview hread
    exact hread.of_samePosition hpos hview

/-- **Copying an iterator.** As long as no Read comes from the sector it is in, or from its start, into the sector that
the cycle begins with while the two iterators differ, the copy returns what the original returns, for every
continuation of operations and Reads; and the next Read of the one is possible with a result when that of the other
one is. -/
theorem copy_returns_same {it : Iterator} {i : Nat} (hit : s.iterators[i]? = some it) {events : List Continuation}
    {results : List (List UInt8 × List UInt8)}
    (h : GoesOn D (Undisturbed D) (i + 1) 0 (s.copyIterator it) events results t) :
    (∀ r ∈ results, r.1 = r.2) ∧ ∀ original copy buffer, t.iterators[i + 1]? = some original →
      t.iterators[0]? = some copy → Undisturbed D t buffer original copy →
      ∀ result, (∃ it', Reads D t buffer original result it') ↔ ∃ c', Reads D t buffer copy result c' := by
  have hstart : Paired SamePosition (i + 1) 0 (s.copyIterator it) := ⟨it, it.copy, hit, rfl, samePosition_copy it⟩
  obtain ⟨hresults, hend⟩ := h.samePosition (Nat.succ_ne_zero i) hstart
  refine ⟨hresults, fun original copy buffer ho hc hview result => ?_⟩
  obtain ⟨_, _, ho', hc', hpos⟩ := hend
  obtain rfl := Option.some.inj (ho.symm.trans ho')
  obtain rfl := Option.some.inj (hc.symm.trans hc')
  constructor
  · rintro ⟨it', hread⟩
    obtain ⟨c', hread', -⟩ := hread.of_samePosition hpos hview
    exact ⟨c', hread'⟩
  · rintro ⟨c', hread⟩
    have haddress := (hpos.prepareRead t buffer).address
    obtain ⟨it', hread', -⟩ := hread.of_samePosition hpos.symm (hview.symm haddress)
    exact ⟨it', hread'⟩

set_option maxRecDepth 4000 in
/-- In a sector with two records, a copy that is made after the first one has been read returns the second one. -/
theorem copy_returns_second_record : ∃ (s : Store) (it : Iterator) (u : Store), s.iterators[0]? = some it ∧
    GoesOn tinyDevice (Undisturbed tinyDevice) 1 0 (s.copyIterator it) [.read [0]] [([2], [2])] u ∧
    ∀ r ∈ [([2], [2])], r.1 = (r.2 : List UInt8) := by
  obtain ⟨s, it, u, -, hit, h⟩ : ∃ (s : Store) (it : Iterator) (u : Store),
      (∃ s₀ pauses, Constructs tinyDevice (fun _ => blank) pauses s₀ ∧ Session tinyDevice 0 s₀
        [.perform (.add [1]), .perform (.add [2]), .begin, .read 0 [0]] [[1]] s) ∧ s.iterators[0]? = some it ∧
      GoesOn tinyDevice (Undisturbed tinyDevice) 1 0 (s.copyIterator it) [.read [0]] [([2], [2])] u := by
    refine ⟨_, _, _, ⟨_, _, Runs.of_interpret (n := 20) rfl,
      Session.perform ⟨_, Runs.of_interpret (n := 40) rfl⟩ (Session.perform ⟨_, Runs.of_interpret (n := 40) rfl⟩
        (Session.begin (Session.read Nat.zero_lt_one rfl ⟨_, Runs.of_interpret (n := 40) rfl, rfl⟩
          (Session.nil 1 _))))⟩, rfl, GoesOn.read rfl rfl ?_ ⟨_, Runs.of_interpret (n := 40) rfl, rfl⟩
      ⟨_, Runs.of_interpret (n := 40) rfl, rfl⟩ (GoesOn.nil _)⟩
    exact sameView_of_block rfl rfl rfl
  exact ⟨s, it, u, hit, h, (copy_returns_same hit h).1⟩

/-- Both sectors are full, and have been read. The copy returns the record of the first sector again. -/
theorem copy_returns_record_again : ∃ s₀ pauses s it u, Constructs tinyDevice (fun _ => blank) pauses s₀ ∧
    Session tinyDevice 0 s₀ [.perform (.add [1, 2, 3, 4, 5, 6]), .perform (.add [6, 5, 4, 3, 2, 1]), .begin,
      .read 0 [0, 0, 0, 0, 0, 0], .read 0 [0, 0, 0, 0, 0, 0]] [[1, 2, 3, 4, 5, 6], [6, 5, 4, 3, 2, 1]] s ∧
    s.assertionFailed = false ∧ s.iterators[0]? = some it ∧
    GoesOn tinyDevice (fun _ _ _ _ => True) 1 0 (s.copyIterator it) [.read [0, 0, 0, 0, 0, 0]]
      [([], [1, 2, 3, 4, 5, 6])] u := by
  exact ⟨_, _, _, _, _, Runs.of_interpret (n := 20) rfl,
    Session.perform ⟨_, Runs.of_interpret (n := 40) rfl⟩ (Session.perform ⟨_, Runs.of_interpret (n := 40) rfl⟩
      (Session.begin (Session.read Nat.zero_lt_one rfl ⟨_, Runs.of_interpret (n := 40) rfl, rfl⟩
        (Session.read Nat.zero_lt_one rfl ⟨_, Runs.of_interpret (n := 40) rfl, rfl⟩ (Session.nil 1 _))))),
    rfl, rfl, GoesOn.read rfl rfl trivial ⟨_, Runs.of_interpret (n := 40) rfl, rfl⟩
      ⟨_, Runs.of_interpret (n := 40) rfl, rfl⟩ (GoesOn.nil _)⟩

end EmbeddedInfra.CyclicStore
