import EmbeddedInfra.Services.CyclicStore.Image

set_option autoImplicit false

/-! # Iterating over sectors

`Iterator::Read` walks over the blocks of a sector and from sector to sector. Here the walk is
followed over any flash that holds well-formed sectors: one lemma for each kind of block and for
the end of a sector, and from them what an iteration delivers (`Delivers`).
-/

namespace EmbeddedInfra.CyclicStore

open NorMemory Sequencer FlashHomogeneous SectorStatus

variable {D : Device} {F : Nat → Sector} {s : Store} {e o : Nat} {it it' : Iterator}

/-! ## Places in the flash -/

/-- The address of offset `o` in sector `e`, where the end of a sector is the start of the next. -/
def endOf (D : Device) (e o : Nat) : Nat :=
  if o = D.sizeOfEachSector then D.nextSector e * D.sizeOfEachSector
  else e * D.sizeOfEachSector + o

theorem endOf_of_lt (ho : o < D.sizeOfEachSector) : endOf D e o = e * D.sizeOfEachSector + o :=
  if_neg (Nat.ne_of_lt ho)

theorem endOf_size : endOf D e D.sizeOfEachSector = D.nextSector e * D.sizeOfEachSector :=
  if_pos rfl

/-- Wrapping around at the end of the flash is moving to the next sector. -/
theorem wrapAddress_eq (he : e < D.numberOfSectors) (ho : o ≤ D.sizeOfEachSector) :
    wrapAddress D (e * D.sizeOfEachSector + o) = endOf D e o := by
  have hmul := mul_lt he
  unfold wrapAddress endOf
  rw [totalSize_eq]
  by_cases hS : o = D.sizeOfEachSector
  · rw [if_pos hS, hS]
    by_cases hlast : e + 1 = D.numberOfSectors
    · rw [nextSector, hlast, Nat.mod_self, Nat.zero_mul, ← hlast, Nat.succ_mul,
        if_pos rfl]
    · have hne : e * D.sizeOfEachSector + D.sizeOfEachSector
          ≠ D.numberOfSectors * D.sizeOfEachSector := by
        rw [← Nat.succ_mul]
        exact fun hc => hlast (Nat.eq_of_mul_eq_mul_right D.size_pos hc)
      rw [if_neg hne, nextSector, Nat.mod_eq_of_lt (by omega), ← Nat.succ_mul]
  · rw [if_neg hS, if_neg (by omega)]

/-- An address inside a sector is not wrapped. -/
theorem add32_inside (he : e < D.numberOfSectors) {k : Nat} (ho : o + k ≤ D.sizeOfEachSector) :
    add32 (e * D.sizeOfEachSector + o) k = e * D.sizeOfEachSector + (o + k) := by
  rw [add32_of_lt, Nat.add_assoc]
  rw [Nat.add_assoc]
  exact address_lt he ho

/-- Not at the last byte of the flash, the end of a sector is the start of the next one. -/
theorem add_size (he : e + 1 < D.numberOfSectors) :
    e * D.sizeOfEachSector + D.sizeOfEachSector = D.nextSector e * D.sizeOfEachSector := by
  rw [nextSector, Nat.mod_eq_of_lt he, Nat.succ_mul]

/-- Where an iterator goes when it has read a header at offset `o`. -/
def behindHeader (D : Device) (e o : Nat) : Nat :=
  if o + 3 < D.sizeOfEachSector then e * D.sizeOfEachSector + (o + 3)
  else D.nextSector e * D.sizeOfEachSector

theorem takeHeader_eq (hS : 1 < D.sizeOfEachSector) (he : e < D.numberOfSectors)
    (ho : o < D.sizeOfEachSector) (ha : it.address = e * D.sizeOfEachSector + o) :
    takeHeader D s it = { it with
      blockHeader := D.readHeader s.flash (e * D.sizeOfEachSector + o),
      address := behindHeader D e o } := by
  have hmul := mul_lt (f := D.toFlashHomogeneous) he
  have hfits := D.fits
  unfold takeHeader behindHeader sizeofBlockHeader
  rw [ha, sectorOfAddress_eq ho,
    startOfNextSectorCyclical_eq he ho]
  by_cases h3 : o + 3 < D.sizeOfEachSector
  · rw [add32_inside he (by omega), sectorOfAddress_eq h3, if_pos rfl, if_pos h3]
  · -- the header reaches the end of the sector, so the address behind it is not in the sector
    have hne : D.sectorOfAddress (add32 (e * D.sizeOfEachSector + o) 3) ≠ e := by
      unfold sectorOfAddress add32 u32
      by_cases hlt : e * D.sizeOfEachSector + o + 3 < 2 ^ 32
      · rw [Nat.mod_eq_of_lt hlt]
        have hle : e + 1 ≤ (e * D.sizeOfEachSector + o + 3) / D.sizeOfEachSector := by
          rw [Nat.le_div_iff_mul_le D.size_pos, Nat.succ_mul]
          omega
        omega
      · rw [Nat.div_eq_of_lt (by omega)]
        intro h0
        rw [← h0, Nat.zero_mul] at hlt
        have h2 := D.two_le
        have : 2 * D.sizeOfEachSector ≤ D.numberOfSectors * D.sizeOfEachSector :=
          Nat.mul_le_mul_right _ h2
        omega
    rw [if_neg hne, if_neg h3]

/-! ## Entering a sector -/

/-- The iterator after it has read the status of sector `e`. -/
def enter (D : Device) (F : Nat → Sector) (e : Nat) (it : Iterator) : Iterator :=
  enterSector { it with address := e * D.sizeOfEachSector, sectorStatus := (F e).status }

/-- The iterator at offset `o` of sector `e`, after it has read a sector status if necessary. -/
def arrive (D : Device) (F : Nat → Sector) (e o : Nat) (it : Iterator) : Iterator :=
  if o = D.sizeOfEachSector then enter D F (D.nextSector e) it
  else { it with address := e * D.sizeOfEachSector + o }

theorem status_inside (he : e < D.numberOfSectors) (ho : o < D.sizeOfEachSector) (hpos : 0 < o)
    (ha : it.address = e * D.sizeOfEachSector + o) :
    Ends (readSectorStatusIfAtStart D) ⟨s, it⟩ ⟨s, it⟩ := by
  refine .ifFalse ?_ (.nil _)
  show D.atStartOfSector it.address = false
  rw [ha, atStartOfSector_eq he ho, decide_eq_false (by omega)]

theorem status_start (hF : Holds D s.flash F) (he : e < D.numberOfSectors)
    (ha : it.address = e * D.sizeOfEachSector) :
    Ends (readSectorStatusIfAtStart D) ⟨s, it⟩ ⟨s, enter D F e it⟩ := by
  have hstart : D.atStartOfSector it.address = true := by
    have h := atStartOfSector_eq (f := D.toFlashHomogeneous) he D.size_pos
    rw [Nat.add_zero] at h
    rw [ha, h]
    rfl
  have hstatus : D.readStatus s.flash it.address = (F e).status := by
    rw [ha, readStatus_eq hF he]
  have heq : enterSector { it with sectorStatus := D.readStatus s.flash it.address }
      = enter D F e it := by
    rw [hstatus, enter, ← ha]
  refine .ifTrue hstart (.step trivial (.execute ?_))
  rw [← heq]
  exact .nil _

theorem status_arrive (hF : Holds D s.flash F) (he : e < D.numberOfSectors)
    (ho : o ≤ D.sizeOfEachSector) (hpos : 0 < o) (ha : it.address = endOf D e o) :
    Ends (readSectorStatusIfAtStart D) ⟨s, it⟩ ⟨s, arrive D F e o it⟩ := by
  unfold arrive
  by_cases hS : o = D.sizeOfEachSector
  · rw [if_pos hS]
    rw [hS, endOf_size] at ha
    exact status_start hF (nextSector_lt _ _) ha
  · have hlt : o < D.sizeOfEachSector := by omega
    rw [endOf_of_lt hlt] at ha
    rw [if_neg hS, ← ha]
    exact status_inside he hlt hpos ha

/-- Reading a status always ends, and finds no record. -/
theorem status_ends (r : Reader) : ∃ it', Ends (readSectorStatusIfAtStart D) r ⟨r.store, it'⟩ ∧
    it'.found = r.iterator.found ∧ it'.reachedEnd = r.iterator.reachedEnd := by
  cases h : D.atStartOfSector r.iterator.address with
  | true => exact ⟨_, .ifTrue h (.step trivial (.execute (.nil _))), rfl, rfl⟩
  | false => exact ⟨_, .ifFalse h (.nil _), rfl, rfl⟩

/-! ## Blocks -/

section

variable {first closed : Bool} {done rest : List Block} {b : Block} (hF : Holds D s.flash F)
  (hS : 1 < D.sizeOfEachSector) (he : e < D.numberOfSectors)

include hF hS he

/-- The header of a block is read, and the iterator moves behind it. -/
theorem takeHeader_block (hsec : F e = .inUse first (done ++ b :: rest) closed)
    (ha : it.address = e * D.sizeOfEachSector + (1 + size done)) :
    takeHeader D s it
      = { it with blockHeader := b.header, address := endOf D e (1 + size done + 3) } := by
  have hle := size_le hF he hsec
  rw [size_cons] at hle
  have hbehind : behindHeader D e (1 + size done) = endOf D e (1 + size done + 3) := by
    unfold behindHeader endOf
    by_cases h3 : 1 + size done + 3 = D.sizeOfEachSector
    · rw [if_neg (by omega), if_pos h3]
    · rw [if_pos (by omega), if_neg h3]
  rw [takeHeader_eq hS he (by omega) ha, readHeader_of_block hF he hsec, hbehind]

/-- A complete record is read. -/
theorem readBlock_ready {d : List UInt8}
    (hsec : F e = .inUse first (done ++ .ready d :: rest) closed)
    (ha : it.address = e * D.sizeOfEachSector + (1 + size done))
    (hd : d ≠ []) (hlen : d.length < 65536) (hbuf : d.length ≤ it.readBuffer.length) :
    Ends (readBlock D) ⟨s, it⟩ ⟨s, arrive D F e (1 + size (done ++ [.ready d]))
      { it with blockHeader := (Block.ready d).header, readBuffer := d, found := true }⟩ := by
  have hle := size_le hF he hsec
  have hpos : 0 < d.length := List.length_pos_iff.mpr hd
  rw [size_cons, show (Block.ready d).body = d from rfl] at hle
  have hbl : (Block.ready d).header.blockLength = d.length := blockLength_ofNat hlen
  have hhead := takeHeader_block hF hS he hsec ha
  rw [endOf_of_lt (by omega)] at hhead
  have hrec : takeRecord D s { it with
      blockHeader := (Block.ready d).header,
      address := e * D.sizeOfEachSector + (1 + size done + 3) }
      = { it with
          blockHeader := (Block.ready d).header, readBuffer := d, found := true,
          address := endOf D e (1 + size done + 3 + d.length) } := by
    unfold takeRecord
    simp only [hbl]
    rw [Nat.min_eq_right hbuf, show d.length = (Block.ready d).body.length from rfl,
      readBuffer_of_block hF he hsec, show (Block.ready d).body = d from rfl,
      add32_inside he (by omega), wrapAddress_eq he (by omega)]
  have hfits : decide (add32 (D.addressOffsetInSector
      (e * D.sizeOfEachSector + (1 + size done + 3))) (Block.ready d).header.blockLength
        ≤ D.sizeOfSector (D.sectorOfAddress (e * D.sizeOfEachSector + (1 + size done + 3))))
      = true := by
    have h32 := address_lt (f := D.toFlashHomogeneous) he
      (o := 1 + size done + 3 + d.length) (by omega)
    rw [addressOffsetInSector_eq he (by omega), hbl, add32_of_lt (by omega),
      sizeOfSector_eq]
    exact decide_eq_true (by omega)
  have hsize : 1 + size (done ++ [.ready d]) = 1 + size done + 3 + d.length := by
    rw [size_append, size_cons, size_nil]
    show 1 + (size done + (3 + d.length + 0)) = _
    omega
  rw [hsize]
  refine .step trivial ?_
  show Ends _ (⟨s, takeHeader D s it⟩ : Reader) _
  rw [hhead]
  refine .ifTrue rfl (.ifTrue hfits (.step trivial ?_))
  show Ends _ (⟨s, takeRecord D s _⟩ : Reader) _
  rw [hrec]
  exact status_arrive (o := 1 + size done + 3 + d.length) hF he (by omega) (by omega)
    (show ({ it with
      blockHeader := (Block.ready d).header, readBuffer := d, found := true,
      address := endOf D e (1 + size done + 3 + d.length) } : Iterator).address = _ from rfl)

/-- A block whose length is being written takes no room but its header. -/
theorem readBlock_lengthPending {lsb msb : UInt8}
    (hsec : F e = .inUse first (done ++ .lengthPending lsb msb :: rest) closed)
    (ha : it.address = e * D.sizeOfEachSector + (1 + size done)) :
    Ends (readBlock D) ⟨s, it⟩ ⟨s, arrive D F e (1 + size (done ++ [.lengthPending lsb msb]))
      { it with blockHeader := (Block.lengthPending lsb msb).header }⟩ := by
  have hle := size_le hF he hsec
  rw [size_cons] at hle
  have hsize : 1 + size (done ++ [.lengthPending lsb msb]) = 1 + size done + 3 := by
    rw [size_append, size_cons, size_nil]
    rfl
  rw [hsize]
  refine .step trivial ?_
  show Ends _ (⟨s, takeHeader D s it⟩ : Reader) _
  rw [takeHeader_block hF hS he hsec ha]
  refine .ifFalse rfl (.ifFalse rfl (.ifFalse rfl (.ifTrue rfl ?_)))
  exact status_arrive hF he (by omega) (by omega) (show ({ it with
    blockHeader := (Block.lengthPending lsb msb).header,
    address := endOf D e (1 + size done + 3) } : Iterator).address = _ from rfl)

/-- A record whose data is being written is skipped. At the end of the flash the address is not set
back to the first sector, so the record must not end there. -/
theorem readBlock_dataPending {d : List UInt8}
    (hsec : F e = .inUse first (done ++ .dataPending d :: rest) closed)
    (ha : it.address = e * D.sizeOfEachSector + (1 + size done))
    (hd : d ≠ []) (hlen : d.length < 65536)
    (hend : e + 1 < D.numberOfSectors ∨
      1 + size (done ++ [.dataPending d]) < D.sizeOfEachSector) :
    Ends (readBlock D) ⟨s, it⟩ ⟨s, arrive D F e (1 + size (done ++ [.dataPending d]))
      { it with blockHeader := (Block.dataPending d).header }⟩ := by
  have hle := size_le hF he hsec
  have hpos : 0 < d.length := List.length_pos_iff.mpr hd
  rw [size_cons, show (Block.dataPending d).body = d from rfl] at hle
  have hbl : (Block.dataPending d).header.blockLength = d.length := blockLength_ofNat hlen
  have hsize : 1 + size (done ++ [.dataPending d]) = 1 + size done + 3 + d.length := by
    rw [size_append, size_cons, size_nil]
    show 1 + (size done + (3 + d.length + 0)) = _
    omega
  rw [hsize] at hend ⊢
  have haddr : add32 (endOf D e (1 + size done + 3)) (Block.dataPending d).header.blockLength
      = endOf D e (1 + size done + 3 + d.length) := by
    rw [endOf_of_lt (by omega), hbl, add32_inside he (by omega)]
    by_cases hfull : 1 + size done + 3 + d.length = D.sizeOfEachSector
    · rw [hfull, endOf_size, add_size (by omega)]
    · rw [endOf_of_lt (by omega)]
  refine .step trivial ?_
  show Ends _ (⟨s, takeHeader D s it⟩ : Reader) _
  rw [takeHeader_block hF hS he hsec ha]
  refine .ifFalse rfl (.ifFalse rfl (.ifFalse rfl (.ifFalse rfl (.ifTrue rfl (.execute ?_)))))
  exact status_arrive hF he (by omega) (by omega) (show ({ it with
    blockHeader := (Block.dataPending d).header,
    address := add32 (endOf D e (1 + size done + 3)) (Block.dataPending d).header.blockLength
    } : Iterator).address = _ from haddr)

/-! ## The end of a sector -/

/-- The marker leads to the next sector. -/
theorem readBlock_marker (hsec : F e = .inUse first done true)
    (hlt : 1 + size done < D.sizeOfEachSector)
    (ha : it.address = e * D.sizeOfEachSector + (1 + size done)) :
    ∃ h, Ends (readBlock D) ⟨s, it⟩
      ⟨s, enter D F (D.nextSector e) { it with blockHeader := h }⟩ := by
  have hstatus := readHeader_of_tail hF he hsec hlt
  rw [if_pos rfl] at hstatus
  generalize hh : D.readHeader s.flash (e * D.sizeOfEachSector + (1 + size done)) = h at hstatus
  have hnext := nextSector_lt D.toFlashHomogeneous e
  have h0 := atStartOfSector_eq (f := D.toFlashHomogeneous) hnext D.size_pos
  rw [Nat.add_zero] at h0
  -- wherever the header ended, the iterator goes to the start of the next sector
  have hleave : (if D.atStartOfSector (behindHeader D e (1 + size done)) then
      behindHeader D e (1 + size done)
      else D.startOfNextSectorCyclical (behindHeader D e (1 + size done)))
      = D.nextSector e * D.sizeOfEachSector := by
    unfold behindHeader
    by_cases h3 : 1 + size done + 3 < D.sizeOfEachSector
    · rw [if_pos h3, atStartOfSector_eq he h3, decide_eq_false (by omega)]
      exact startOfNextSectorCyclical_eq he h3
    · rw [if_neg h3, h0]
      rfl
  have hmove : (if D.atStartOfSector (behindHeader D e (1 + size done)) then
      { it with blockHeader := h, address := behindHeader D e (1 + size done) }
      else leaveSector D { it with blockHeader := h, address := behindHeader D e (1 + size done) })
      = { it with blockHeader := h, address := D.nextSector e * D.sizeOfEachSector } := by
    rw [← hleave]
    split <;> rfl
  have hready : (h.status == BlockStatus.dataReady) = false := by rw [hstatus]; rfl
  have hmarker : (h.status == BlockStatus.emptyUntilEnd) = true := by rw [hstatus]; rfl
  refine ⟨h, .step trivial ?_⟩
  show Ends _ (⟨s, takeHeader D s it⟩ : Reader) _
  rw [takeHeader_eq hS he hlt ha, hh]
  refine .ifFalse hready (.ifTrue hmarker (.execute ?_))
  show Ends _ (⟨s, if D.atStartOfSector (behindHeader D e (1 + size done)) then
      { it with blockHeader := h, address := behindHeader D e (1 + size done) }
      else leaveSector D { it with blockHeader := h, address := behindHeader D e (1 + size done) }⟩
      : Reader) _
  rw [hmove]
  exact status_start hF hnext (show ({ it with
    blockHeader := h, address := D.nextSector e * D.sizeOfEachSector } : Iterator).address = _
    from rfl)

/-- At erased bytes the iteration ends. The iterator comes back to where it was, unless less than a
header's size is left in the sector, or exactly a header's size in the last sector. -/
theorem readBlock_open (hsec : F e = .inUse first done false)
    (hlt : 1 + size done < D.sizeOfEachSector)
    (ha : it.address = e * D.sizeOfEachSector + (1 + size done)) (hfound : it.found = false) :
    ∃ it', Ends (readBlock D) ⟨s, it⟩ ⟨s, it'⟩ ∧ it'.found = false ∧ it'.reachedEnd = true ∧
      (1 + size done + 3 < D.sizeOfEachSector ∨
          1 + size done + 3 = D.sizeOfEachSector ∧ e + 1 < D.numberOfSectors →
        ∃ h, it' = { it with blockHeader := h, reachedEnd := true }) := by
  have hstatus := readHeader_of_tail hF he hsec hlt
  rw [if_neg (by simp)] at hstatus
  generalize hh : D.readHeader s.flash (e * D.sizeOfEachSector + (1 + size done)) = h at hstatus
  have hready : (h.status == BlockStatus.dataReady) = false := by rw [hstatus]; rfl
  have hmarker : (h.status == BlockStatus.emptyUntilEnd) = false := by rw [hstatus]; rfl
  have hempty : (h.status == BlockStatus.empty) = true := by rw [hstatus]; rfl
  -- the walk up to the status that is read in the end
  have hwalk : ∀ it', Ends (readSectorStatusIfAtStart D)
      ⟨s, reachEnd { it with blockHeader := h, address := behindHeader D e (1 + size done) }⟩
      ⟨s, it'⟩ → Ends (readBlock D) ⟨s, it⟩ ⟨s, it'⟩ := by
    intro it' hit
    refine .step trivial ?_
    show Ends _ (⟨s, takeHeader D s it⟩ : Reader) _
    rw [takeHeader_eq hS he hlt ha, hh]
    exact .ifFalse hready (.ifFalse hmarker (.ifTrue hempty (.execute hit)))
  by_cases hback : 1 + size done + 3 < D.sizeOfEachSector ∨
      1 + size done + 3 = D.sizeOfEachSector ∧ e + 1 < D.numberOfSectors
  · have haddr : sub32 (behindHeader D e (1 + size done)) 3
        = e * D.sizeOfEachSector + (1 + size done) := by
      have hbehind : behindHeader D e (1 + size done)
          = e * D.sizeOfEachSector + (1 + size done + 3) := by
        unfold behindHeader
        rcases hback with h3 | ⟨h3, hnext⟩
        · rw [if_pos h3]
        · rw [if_neg (by omega), h3, add_size hnext]
      have h32 := address_lt (f := D.toFlashHomogeneous) he
        (o := 1 + size done + 3) (by omega)
      rw [hbehind, sub32_of_le (by omega) h32]
      omega
    have heq : reachEnd { it with blockHeader := h, address := behindHeader D e (1 + size done) }
        = { it with blockHeader := h, reachedEnd := true } := by
      unfold reachEnd sizeofBlockHeader
      simp only [haddr, ← ha]
    refine ⟨{ it with blockHeader := h, reachedEnd := true }, hwalk _ ?_, hfound, rfl,
      fun _ => ⟨h, rfl⟩⟩
    rw [heq]
    exact status_inside he hlt (by omega) ha
  · obtain ⟨it', hends, hf, hr⟩ := status_ends (D := D)
      ⟨s, reachEnd { it with blockHeader := h, address := behindHeader D e (1 + size done) }⟩
    exact ⟨it', hwalk it' hends, hf.trans hfound, hr, fun hc => (hback hc).elim⟩

end

/-! ## The loop of a read -/

/-- The loop of `Read`, from its start to the result. -/
def Loops (D : Device) (s : Store) (it : Iterator) (result : List UInt8) (it' : Iterator) : Prop :=
  Ends [.whileLoop (asks readsOn) (readBlock D),
      .execute (onIterator (fun _ it => if it.found then it else { it with readBuffer := [] }))]
    ⟨s, it⟩ ⟨s, it'⟩ ∧ it'.readBuffer = result

theorem Loops.more {it₁ : Iterator} {result : List UInt8} (hon : readsOn it = true)
    (hblock : Ends (readBlock D) ⟨s, it⟩ ⟨s, it₁⟩) (h : Loops D s it₁ result it') :
    Loops D s it result it' :=
  ⟨.whileTrue hon hblock h.1, h.2⟩

theorem Loops.found (h : it.found = true) : Loops D s it it.readBuffer it := by
  refine ⟨.whileFalse ?_ (.execute ?_), rfl⟩
  · show readsOn it = false
    simp [readsOn, h]
  · show Ends [] (⟨s, if it.found then it else { it with readBuffer := [] }⟩ : Reader) _
    rw [if_pos h]
    exact .nil _

theorem Loops.stop (hf : it.found = false) (h : readsOn it = false) :
    Loops D s it [] { it with readBuffer := [] } := by
  refine ⟨.whileFalse h (.execute ?_), rfl⟩
  show Ends [] (⟨s, if it.found then it else { it with readBuffer := [] }⟩ : Reader) _
  rw [if_neg (by simp [hf])]
  exact .nil _

theorem Loops.reads {buffer result : List UInt8} {it₁ : Iterator}
    (hstatus : Ends (readSectorStatusIfAtStart D) ⟨s, prepareRead s buffer it⟩ ⟨s, it₁⟩)
    (h : Loops D s it₁ result it') : Reads D s buffer it result it' := by
  obtain ⟨pauses, hruns, -⟩ := hstatus.append h.1
  exact ⟨pauses, hruns, h.2⟩

/-! ## Where an iterator stands -/

/-- Where an iterator is after it has read the status of a sector that is not the first one it
reads. -/
def entryAddress (D : Device) (F : Nat → Sector) (e : Nat) : Nat :=
  match F e with
  | .erased => e * D.sizeOfEachSector
  | .inUse _ _ _ => e * D.sizeOfEachSector + 1

/-- The status it then goes by: the first sector of the cycle ends the iteration. -/
def entryStatus (F : Nat → Sector) (e : Nat) : UInt8 :=
  match F e with
  | .inUse false _ _ => used
  | _ => empty

theorem enter_eq (hS : 1 < D.sizeOfEachSector) (he : e < D.numberOfSectors)
    (hfirst : it.firstSectorToRead = false) :
    enter D F e it
      = { it with address := entryAddress D F e, sectorStatus := entryStatus F e } := by
  have hadd : add32 (e * D.sizeOfEachSector) 1 = e * D.sizeOfEachSector + 1 := by
    have h := add32_inside (D := D) (o := 0) (k := 1) he (by omega)
    simpa using h
  unfold enter enterSector entryAddress entryStatus
  cases hF : F e with
  | erased => simp [Sector.status, empty, firstInCycle, hfirst]
  | inUse first blocks closed =>
      cases first with
      | true => simp [Sector.status, empty, firstInCycle, hfirst, hadd]
      | false =>
          simp [Sector.status, used, empty, firstInCycle,
            hfirst, hadd]

/-- The iterator stands at offset `o` of sector `e`: before the end of the sector it will read the
header there; at the end it has read the status of the next sector. -/
structure Stands (D : Device) (F : Nat → Sector) (e o : Nat) (it : Iterator) : Prop where
  loaded : it.loadStartAddressDelayed = false
  entered : it.firstSectorToRead = false
  inside : o < D.sizeOfEachSector →
    it.address = e * D.sizeOfEachSector + o ∧ it.sectorStatus = used
  atEnd : o = D.sizeOfEachSector →
    it.address = entryAddress D F (D.nextSector e) ∧
      it.sectorStatus = entryStatus F (D.nextSector e)

theorem stands_arrive (hS : 1 < D.sizeOfEachSector) (hl : it.loadStartAddressDelayed = false)
    (hf : it.firstSectorToRead = false) (hu : it.sectorStatus = used) :
    Stands D F e o (arrive D F e o it) := by
  unfold arrive
  by_cases ho : o = D.sizeOfEachSector
  · rw [if_pos ho, enter_eq hS (nextSector_lt _ _) hf]
    exact ⟨hl, hf, fun h => absurd h (by omega), fun _ => ⟨rfl, rfl⟩⟩
  · rw [if_neg ho]
    exact ⟨hl, hf, fun _ => ⟨rfl, hu⟩, fun h => absurd h ho⟩

/-- The fields that only matter during a read do not matter here. -/
theorem Stands.prepareRead {buffer : List UInt8} (h : Stands D F e o it) :
    Stands D F e o (prepareRead s buffer it) := by
  have ha : (CyclicStore.prepareRead s buffer it).address = it.address := by
    simp [CyclicStore.prepareRead, h.loaded]
  refine ⟨rfl, h.entered, fun ho => ?_, fun ho => ?_⟩
  · rw [ha]
    exact h.inside ho
  · rw [ha]
    exact h.atEnd ho

/-- Reading the status again changes nothing. -/
theorem Stands.status (hF : Holds D s.flash F) (hS : 1 < D.sizeOfEachSector)
    (he : e < D.numberOfSectors) (hpos : 0 < o) (ho : o ≤ D.sizeOfEachSector)
    (h : Stands D F e o it) : Ends (readSectorStatusIfAtStart D) ⟨s, it⟩ ⟨s, it⟩ := by
  by_cases hlt : o < D.sizeOfEachSector
  · exact status_inside he hlt hpos (h.inside hlt).1
  · obtain ⟨ha, hs⟩ := h.atEnd (by omega)
    have hn := nextSector_lt D.toFlashHomogeneous e
    cases hnext : F (D.nextSector e) with
    | erased =>
        have heq : enter D F (D.nextSector e) it = it := by
          rw [enter_eq hS hn h.entered, ← ha, ← hs]
        rw [entryAddress, hnext] at ha
        have hstart := status_start hF hn ha
        rwa [heq] at hstart
    | inUse first blocks closed =>
        rw [entryAddress, hnext] at ha
        exact status_inside hn hS (by omega) ha

/-! ## Iterations -/

/-- Reading until an empty result: the results before it. -/
inductive Iterates (D : Device) (s : Store) (buffer : List UInt8) :
    Iterator → List (List UInt8) → Prop where
  | stop {it it' : Iterator} (h : Reads D s buffer it [] it') : Iterates D s buffer it []
  | more {it it' : Iterator} {d : List UInt8} {ds : List (List UInt8)}
      (h : Reads D s buffer it d it') (hd : d ≠ []) (ht : Iterates D s buffer it' ds) :
      Iterates D s buffer it (d :: ds)

/-- What an iteration delivers that stands in sector `e` behind the blocks `done` and before the
blocks `rest`. -/
inductive Delivers (D : Device) (F : Nat → Sector) :
    Nat → List Block → List Block → List (List UInt8) → Prop where
  | ready {e : Nat} {done rest : List Block} {d : List UInt8} {ds : List (List UInt8)}
      {first closed : Bool} (hsec : F e = .inUse first (done ++ .ready d :: rest) closed)
      (hd : d ≠ []) (hlen : d.length < 65536) (h : Delivers D F e (done ++ [.ready d]) rest ds) :
      Delivers D F e done (.ready d :: rest) (d :: ds)
  | lengthPending {e : Nat} {done rest : List Block} {lsb msb : UInt8} {ds : List (List UInt8)}
      {first closed : Bool} (hsec : F e = .inUse first (done ++ .lengthPending lsb msb :: rest) closed)
      (h : Delivers D F e (done ++ [.lengthPending lsb msb]) rest ds) :
      Delivers D F e done (.lengthPending lsb msb :: rest) ds
  | dataPending {e : Nat} {done rest : List Block} {d : List UInt8} {ds : List (List UInt8)}
      {first closed : Bool} (hsec : F e = .inUse first (done ++ .dataPending d :: rest) closed)
      (hd : d ≠ []) (hlen : d.length < 65536)
      (hend : e + 1 < D.numberOfSectors ∨
        1 + size (done ++ [.dataPending d]) < D.sizeOfEachSector)
      (h : Delivers D F e (done ++ [.dataPending d]) rest ds) :
      Delivers D F e done (.dataPending d :: rest) ds
  /-- erased bytes after the last block -/
  | openEnd {e : Nat} {done : List Block} {first : Bool} (hsec : F e = .inUse first done false)
      (hlt : 1 + size done < D.sizeOfEachSector) : Delivers D F e done [] []
  /-- the end of the last sector -/
  | last {e : Nat} {done : List Block} {first closed : Bool} (hsec : F e = .inUse first done closed)
      (hfull : closed = true ∨ 1 + size done = D.sizeOfEachSector)
      (hnext : entryStatus F (D.nextSector e) ≠ used) : Delivers D F e done [] []
  /-- the end of a sector that is followed by another one -/
  | next {e : Nat} {done blocks : List Block} {ds : List (List UInt8)} {first closed c : Bool}
      (hsec : F e = .inUse first done closed)
      (hfull : closed = true ∨ 1 + size done = D.sizeOfEachSector)
      (hnext : F (D.nextSector e) = .inUse false blocks c)
      (h : Delivers D F (D.nextSector e) [] blocks ds) : Delivers D F e done [] ds

section

variable {buffer : List UInt8} {done rest : List Block} {ds : List (List UInt8)}

/-- A read that is under way, and the iteration after it. -/
def Continues (D : Device) (s : Store) (buffer : List UInt8) (it : Iterator)
    (ds : List (List UInt8)) : Prop :=
  ∃ result it', Loops D s it result it' ∧
    (result = [] ∧ ds = [] ∨
      ∃ ds', ds = result :: ds' ∧ result ≠ [] ∧ Iterates D s buffer it' ds')

theorem Continues.more {it₁ : Iterator} (hon : readsOn it = true)
    (hblock : Ends (readBlock D) ⟨s, it⟩ ⟨s, it₁⟩) (h : Continues D s buffer it₁ ds) :
    Continues D s buffer it ds := by
  obtain ⟨result, it', hloops, hres⟩ := h
  exact ⟨result, it', hloops.more hon hblock, hres⟩

theorem Continues.iterates {it₁ : Iterator}
    (hstatus : Ends (readSectorStatusIfAtStart D) ⟨s, prepareRead s buffer it⟩ ⟨s, it₁⟩)
    (h : Continues D s buffer it₁ ds) : Iterates D s buffer it ds := by
  obtain ⟨result, it', hloops, ⟨rfl, rfl⟩ | ⟨ds', rfl, hne, hit⟩⟩ := h
  · exact .stop (hloops.reads hstatus)
  · exact .more (hloops.reads hstatus) hne hit

/-- An iterator at the beginning or in the middle of a read. -/
structure Searching (buffer : List UInt8) (it : Iterator) : Prop where
  found : it.found = false
  reachedEnd : it.reachedEnd = false
  readBuffer : it.readBuffer = buffer

theorem Searching.readsOn (h : Searching buffer it) (hs : it.sectorStatus = used) :
    readsOn it = true := by
  simp [CyclicStore.readsOn, h.found, h.reachedEnd, hs]

theorem Searching.stops (h : Searching buffer it) (hs : it.sectorStatus ≠ used) :
    Continues D s buffer it [] := by
  refine ⟨[], _, .stop h.found ?_, .inl ⟨rfl, rfl⟩⟩
  simp [CyclicStore.readsOn, hs]

theorem Searching.prepareRead : Searching buffer (prepareRead s buffer it) := ⟨rfl, rfl, rfl⟩

theorem arrive_result (hS : 1 < D.sizeOfEachSector) (hf : it.firstSectorToRead = false) :
    (arrive D F e o it).found = it.found ∧ (arrive D F e o it).reachedEnd = it.reachedEnd ∧
      (arrive D F e o it).readBuffer = it.readBuffer := by
  unfold arrive
  split
  · rw [enter_eq hS (nextSector_lt _ _) hf]
    exact ⟨rfl, rfl, rfl⟩
  · exact ⟨rfl, rfl, rfl⟩

theorem Searching.arrive (h : Searching buffer it) (hS : 1 < D.sizeOfEachSector)
    (hf : it.firstSectorToRead = false) : Searching buffer (arrive D F e o it) := by
  obtain ⟨h1, h2, h3⟩ := arrive_result (F := F) (e := e) (o := o) hS hf
  exact ⟨h1.trans h.found, h2.trans h.reachedEnd, h3.trans h.readBuffer⟩

/-- A pending block is skipped within the same read. -/
theorem continues_skip {b : Block} {h : BlockHeader} (hS : 1 < D.sizeOfEachSector)
    (hst : Stands D F e o it) (hlt : o < D.sizeOfEachSector) (hsearch : Searching buffer it)
    (hblock : Ends (readBlock D) ⟨s, it⟩
      ⟨s, arrive D F e (1 + size (done ++ [b])) { it with blockHeader := h }⟩)
    (ih : ∀ it₁, Stands D F e (1 + size (done ++ [b])) it₁ → Searching buffer it₁ →
      Continues D s buffer it₁ ds) : Continues D s buffer it ds := by
  have hu := (hst.inside hlt).2
  refine .more (hsearch.readsOn hu) hblock (ih _ ?_ ?_)
  · exact stands_arrive hS hst.loaded hst.entered hu
  · exact Searching.arrive { hsearch with } hS hst.entered

/-- An iteration delivers what `Delivers` says. -/
theorem continues_of_delivers (hF : Holds D s.flash F) (hS : 1 < D.sizeOfEachSector)
    (h : Delivers D F e done rest ds) (he : e < D.numberOfSectors)
    (hbuf : ∀ d ∈ ds, d.length ≤ buffer.length) (hst : Stands D F e (1 + size done) it)
    (hsearch : Searching buffer it) : Continues D s buffer it ds := by
  induction h generalizing it with
  | @ready e done rest d ds first closed hsec hd hlen h ih =>
      have hle := size_le hF he hsec
      rw [size_cons] at hle
      obtain ⟨ha, hu⟩ := hst.inside (by omega)
      have hblock := readBlock_ready hF hS he hsec ha hd hlen
        (by rw [hsearch.readBuffer]; exact hbuf d List.mem_cons_self)
      have hst' : Stands D F e (1 + size (done ++ [.ready d])) (arrive D F e
          (1 + size (done ++ [.ready d])) { it with
            blockHeader := (Block.ready d).header, readBuffer := d, found := true }) :=
        stands_arrive hS hst.loaded hst.entered hu
      -- the record ends this read; the next read goes on behind it
      obtain ⟨hf, -, hb⟩ := arrive_result (F := F) (e := e) (o := 1 + size (done ++ [.ready d]))
        hS (show ({ it with
          blockHeader := (Block.ready d).header, readBuffer := d, found := true
          } : Iterator).firstSectorToRead = false from hst.entered)
      have hloops := Loops.more (hsearch.readsOn hu) hblock (Loops.found hf)
      rw [hb] at hloops
      refine ⟨d, _, hloops, .inr ⟨ds, rfl, hd, ?_⟩⟩
      have hle' := size_le hF he (show F e = .inUse first ((done ++ [.ready d]) ++ rest) closed by
        rw [hsec, List.append_assoc]; rfl)
      refine Continues.iterates (hst'.prepareRead.status hF hS he (by omega) (by omega)) ?_
      exact ih he (fun x hx => hbuf x (List.mem_cons_of_mem _ hx)) hst'.prepareRead .prepareRead
  | @lengthPending e done rest lsb msb ds first closed hsec h ih =>
      have hle := size_le hF he hsec
      rw [size_cons] at hle
      have hlt : 1 + size done < D.sizeOfEachSector := by omega
      exact continues_skip hS hst hlt hsearch
        (readBlock_lengthPending hF hS he hsec (hst.inside hlt).1) (fun it₁ => ih he hbuf)
  | @dataPending e done rest d ds first closed hsec hd hlen hend h ih =>
      have hle := size_le hF he hsec
      rw [size_cons] at hle
      have hlt : 1 + size done < D.sizeOfEachSector := by omega
      exact continues_skip hS hst hlt hsearch
        (readBlock_dataPending hF hS he hsec (hst.inside hlt).1 hd hlen hend)
        (fun it₁ => ih he hbuf)
  | openEnd hsec hlt =>
      obtain ⟨ha, hu⟩ := hst.inside hlt
      obtain ⟨it', hends, hf, hr, -⟩ := readBlock_open hF hS he hsec hlt ha hsearch.found
      refine .more (hsearch.readsOn hu) hends ⟨[], _, .stop hf ?_, .inl ⟨rfl, rfl⟩⟩
      simp [CyclicStore.readsOn, hr]
  | @last e done first closed hsec hfull hnext =>
      by_cases hlt : 1 + size done < D.sizeOfEachSector
      · obtain rfl : closed = true := hfull.resolve_right (by omega)
        obtain ⟨ha, hu⟩ := hst.inside hlt
        obtain ⟨h', hends⟩ := readBlock_marker hF hS he hsec hlt ha
        rw [enter_eq hS (nextSector_lt _ _)
          (show ({ it with blockHeader := h' } : Iterator).firstSectorToRead = false
            from hst.entered)] at hends
        refine .more (hsearch.readsOn hu) hends (Searching.stops ?_ hnext)
        exact { hsearch with }
      · have hle := size_le_sector hF he hsec
        obtain ⟨-, hs⟩ := hst.atEnd (by omega)
        exact hsearch.stops (by rw [hs]; exact hnext)
  | @next e done blocks ds first closed c hsec hfull hnext h ih =>
      have hn := nextSector_lt D.toFlashHomogeneous e
      have haddr : entryAddress D F (D.nextSector e)
          = D.nextSector e * D.sizeOfEachSector + (1 + size []) := by
        rw [entryAddress, hnext]
        rfl
      have hstatus : entryStatus F (D.nextSector e) = used := by
        rw [entryStatus, hnext]
      by_cases hlt : 1 + size done < D.sizeOfEachSector
      · obtain rfl : closed = true := hfull.resolve_right (by omega)
        obtain ⟨ha, hu⟩ := hst.inside hlt
        obtain ⟨h', hends⟩ := readBlock_marker hF hS he hsec hlt ha
        rw [enter_eq hS hn (show ({ it with blockHeader := h' } : Iterator).firstSectorToRead
          = false from hst.entered)] at hends
        refine .more (hsearch.readsOn hu) hends (ih hn hbuf ?_ ?_)
        · exact ⟨hst.loaded, hst.entered, fun _ => ⟨haddr, hstatus⟩,
            fun hc => absurd hc (by rw [size_nil]; omega)⟩
        · exact { hsearch with }
      · have hle := size_le_sector hF he hsec
        obtain ⟨ha, hs⟩ := hst.atEnd (by omega)
        refine ih hn hbuf ?_ hsearch
        exact ⟨hst.loaded, hst.entered, fun _ => ⟨ha.trans haddr, hs.trans hstatus⟩,
          fun hc => absurd hc (by rw [size_nil]; omega)⟩

/-- A new iterator, from the first sector on. -/
theorem iterates_of_delivers {first closed : Bool} {blocks : List Block} (hF : Holds D s.flash F)
    (hS : 1 < D.sizeOfEachSector) (he : e < D.numberOfSectors)
    (hstart : s.startAddress = e * D.sizeOfEachSector) (hsec : F e = .inUse first blocks closed)
    (h : Delivers D F e [] blocks ds) (hbuf : ∀ d ∈ ds, d.length ≤ buffer.length) :
    Iterates D s buffer {} ds := by
  have hadd : add32 (e * D.sizeOfEachSector) 1 = e * D.sizeOfEachSector + 1 := by
    simpa using add32_inside (D := D) (o := 0) (k := 1) he (by omega)
  -- whatever the status of the first sector says, it is read
  have henter : enter D F e (prepareRead s buffer {}) = { prepareRead s buffer {} with
      address := e * D.sizeOfEachSector + 1, firstSectorToRead := false } := by
    unfold enter enterSector
    cases first <;> simp [prepareRead, hsec, Sector.status, used, empty,
      firstInCycle, hadd]
  refine Continues.iterates (status_start hF he hstart) ?_
  rw [henter]
  refine continues_of_delivers hF hS h he hbuf ?_ ⟨rfl, rfl, rfl⟩
  exact ⟨rfl, rfl, fun _ => ⟨rfl, rfl⟩, fun hc => absurd hc (by rw [size_nil]; omega)⟩

/-- A new iterator of an empty store. -/
theorem iterates_erased (hF : Holds D s.flash F) (he : e < D.numberOfSectors)
    (hstart : s.startAddress = e * D.sizeOfEachSector) (hsec : F e = .erased) :
    Iterates D s buffer {} [] := by
  refine Continues.iterates (status_start hF he hstart) (Searching.stops ⟨rfl, rfl, rfl⟩ ?_)
  simp [enter, enterSector, hsec, Sector.status, empty, firstInCycle,
    used]

/-! ## What the blocks of a sector contribute -/

/-- Blocks that an iteration can walk over; a record that is being written must not end with the
flash. -/
def Walkable (D : Device) (e : Nat) : List Block → List Block → Prop
  | _, [] => True
  | done, .ready d :: rest =>
      d ≠ [] ∧ d.length < 65536 ∧ Walkable D e (done ++ [.ready d]) rest
  | done, .lengthPending lsb msb :: rest => Walkable D e (done ++ [.lengthPending lsb msb]) rest
  | done, .dataPending d :: rest =>
      d ≠ [] ∧ d.length < 65536 ∧ (e + 1 < D.numberOfSectors ∨
        1 + size (done ++ [.dataPending d]) < D.sizeOfEachSector) ∧
      Walkable D e (done ++ [.dataPending d]) rest

theorem delivers_blocks {first closed : Bool} (hsec : F e = .inUse first (done ++ rest) closed)
    (hw : Walkable D e done rest) (h : Delivers D F e (done ++ rest) [] ds) :
    Delivers D F e done rest (records rest ++ ds) := by
  induction rest generalizing done with
  | nil => simpa using h
  | cons b rest ih =>
      have hassoc : done ++ b :: rest = (done ++ [b]) ++ rest := by simp
      have hsec' : F e = .inUse first ((done ++ [b]) ++ rest) closed := hassoc ▸ hsec
      rw [hassoc] at h
      cases b with
      | ready d => exact .ready hsec hw.1 hw.2.1 (ih hsec' hw.2.2 h)
      | lengthPending lsb msb => exact .lengthPending hsec (ih hsec' hw h)
      | dataPending d => exact .dataPending hsec hw.1 hw.2.1 hw.2.2.1 (ih hsec' hw.2.2.2 h)

theorem walkable_ready {rs : List (List UInt8)} (h : ∀ d ∈ rs, d ≠ [] ∧ d.length < 65536)
    (hrest : Walkable D e (done ++ rs.map .ready) rest) :
    Walkable D e done (rs.map .ready ++ rest) := by
  induction rs generalizing done with
  | nil => simpa using hrest
  | cons d rs ih =>
      obtain ⟨h1, h2⟩ := h d List.mem_cons_self
      refine ⟨h1, h2, ih (fun x hx => h x (List.mem_cons_of_mem _ hx)) ?_⟩
      simpa using hrest

theorem walkable_all {rs : List (List UInt8)} (h : ∀ d ∈ rs, d ≠ [] ∧ d.length < 65536) :
    Walkable D e [] (rs.map .ready) := by
  have hw : Walkable D e [] (rs.map .ready ++ []) := walkable_ready h trivial
  rwa [List.append_nil] at hw

/-! ## One result only -/

theorem Reads.unique {result result' : List UInt8} {it₁ it₂ : Iterator}
    (h : Reads D s buffer it result it₁) (h' : Reads D s buffer it result' it₂) :
    result = result' ∧ it₁ = it₂ := by
  obtain ⟨pauses, hruns, rfl⟩ := h
  obtain ⟨pauses', hruns', rfl⟩ := h'
  obtain ⟨-, heq⟩ := hruns.unique hruns'
  have hit : it₁ = it₂ := congrArg Reader.iterator heq
  exact ⟨by rw [hit], hit⟩

theorem Iterates.unique {ds' : List (List UInt8)} (h : Iterates D s buffer it ds)
    (h' : Iterates D s buffer it ds') : ds = ds' := by
  induction h generalizing ds' with
  | stop hread =>
      cases h' with
      | stop _ => rfl
      | more hread' hd _ => exact (hd (hread'.unique hread).1).elim
  | more hread hd _ ih =>
      cases h' with
      | stop hread' => exact (hd (hread.unique hread').1).elim
      | more hread' _ ht =>
          obtain ⟨rfl, rfl⟩ := hread.unique hread'
          rw [ih ht]

end

end EmbeddedInfra.CyclicStore
