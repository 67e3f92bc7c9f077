import EmbeddedInfra.Services.CyclicStore.Image

set_option autoImplicit false

/-! # Changing sectors

Every flash operation of the store changes one sector, and these are the sectors that the flash
holds afterwards (`Holds`): the sector is erased, started, closed, marked as the first of the cycle,
or its last block gets one step further.
-/

namespace EmbeddedInfra.CyclicStore

open NorMemory Block Sector

variable {D : Device} {m m' : Memory} {F G : Nat → Sector} {e : Nat} {c : Sector}

theorem Holds.congr (h : Holds D m F) (hFG : ∀ i < D.numberOfSectors, G i = F i) : Holds D m G := by
  intro i hi
  rw [hFG i hi]
  exact h i hi

/-- Sectors other than `e` do not overlap with it. -/
theorem sector_disjoint {i S : Nat} (hi : i ≠ e) :
    i * S + S ≤ e * S ∨ e * S + S ≤ i * S := by
  rcases Nat.lt_or_gt_of_ne hi with h | h
  · left
    rw [← Nat.succ_mul]
    exact Nat.mul_le_mul_right _ h
  · right
    rw [← Nat.succ_mul]
    exact Nat.mul_le_mul_right _ h

/-- Only sector `e` changes. -/
theorem Holds.update (h : Holds D m F)
    (hother : ∀ x, x < e * D.sizeOfEachSector ∨
      e * D.sizeOfEachSector + D.sizeOfEachSector ≤ x → m' x = m x)
    (hfit : c.Fits D.sizeOfEachSector)
    (hread : NorMemory.read m' (e * D.sizeOfEachSector) D.sizeOfEachSector
      = c.image D.sizeOfEachSector) :
    Holds D m' (Function.update F e c) := by
  intro i hi
  by_cases hie : i = e
  · subst hie
    rw [Function.update_self]
    exact ⟨hfit, hread⟩
  · rw [Function.update_of_ne hie]
    refine ⟨(h i hi).1, ?_⟩
    rw [← (h i hi).2]
    refine read_congr (fun x hx hx' => hother x ?_)
    have := sector_disjoint (S := D.sizeOfEachSector) hie
    omega

/-- A sector is programmed: a part `q` of its bytes becomes `x`. -/
theorem Holds.program (h : Holds D m F) (he : e < D.numberOfSectors) {a : Nat}
    {p q x r d : List UInt8} (hF : (F e).image D.sizeOfEachSector = p ++ q ++ r)
    (hc : c.image D.sizeOfEachSector = p ++ x ++ r) (hand : List.zipWith (· &&& ·) q d = x)
    (hd : d.length = q.length) (hfit : c.Fits D.sizeOfEachSector)
    (ha : a = e * D.sizeOfEachSector + p.length) :
    Holds D (NorMemory.program m a d) (Function.update F e c) := by
  have hread := (h e he).2
  rw [hF] at hread
  have hlen := congrArg List.length hread
  simp only [length_read, List.length_append] at hlen
  refine h.update (fun x hx => if_neg (by omega)) hfit ?_
  rw [read_program_part hread ha hd, hc, hand]

/-! ## Erasing -/

theorem Holds.eraseSector (h : Holds D m F) (he : e < D.numberOfSectors) :
    Holds D (D.eraseSector m e) (Function.update F e .erased) := by
  have haddr := FlashHomogeneous.addressOfSector_eq (f := D.toFlashHomogeneous) (Nat.le_of_lt he)
  unfold Device.eraseSector
  rw [haddr, FlashHomogeneous.sizeOfSector_eq]
  refine h.update (fun x hx => if_neg (by omega)) D.size_pos ?_
  exact read_erase m _ (Nat.le_refl _)

/-- A flash is erased when all its bytes are. -/
theorem holds_erased (h : ∀ a < D.totalSize, m a = blank) : Holds D m (fun _ => .erased) := by
  intro i hi
  refine ⟨D.size_pos, ?_⟩
  have hmul := FlashHomogeneous.mul_lt hi
  rw [FlashHomogeneous.totalSize_eq] at h
  refine List.ext_getElem (by simp [image]) (fun k h1 h2 => ?_)
  rw [length_read] at h1
  simp only [NorMemory.read, image, List.getElem_map, List.getElem_range,
    List.getElem_replicate]
  exact h _ (by omega)

theorem holds_eraseAll (D : Device) (m : Memory) : Holds D (D.eraseAll m) (fun _ => .erased) := by
  refine holds_erased (fun a ha => ?_)
  simp [Device.eraseAll, erase, ha]

/-! ## The status of a sector -/

/-- The status that starts a sector. -/
def startStatus (first : Bool) : UInt8 :=
  if first then SectorStatus.firstInCycle else SectorStatus.used

theorem Holds.startSector (h : Holds D m F) (he : e < D.numberOfSectors) (first : Bool)
    (hF : F e = .erased) :
    Holds D (NorMemory.program m (e * D.sizeOfEachSector) [startStatus first])
      (Function.update F e (.inUse first [] false)) := by
  have hpos := D.size_pos
  obtain ⟨k, hk⟩ : ∃ k, D.sizeOfEachSector = k + 1 := ⟨D.sizeOfEachSector - 1, by omega⟩
  refine h.program he (p := []) (q := [blank]) (x := [startStatus first])
    (r := List.replicate k blank) ?_ ?_ ?_ rfl ?_ rfl
  · rw [hF, hk]
    rfl
  · rw [hk]
    cases first <;> simp [image, status, tailBytes, startStatus]
  · simp [blank_and]
  · show 1 + size [] ≤ D.sizeOfEachSector
    rw [size_nil]
    omega

theorem Holds.markFirst (h : Holds D m F) (he : e < D.numberOfSectors) {blocks : List Block}
    {closed : Bool} (hF : F e = .inUse false blocks closed) :
    Holds D (NorMemory.program m (e * D.sizeOfEachSector) [SectorStatus.firstInCycle])
      (Function.update F e (.inUse true blocks closed)) := by
  have hfit := (h e he).1
  rw [hF] at hfit
  refine h.program he (p := []) (q := [SectorStatus.used]) (x := [SectorStatus.firstInCycle])
    (r := blocks.flatMap bytes ++ tailBytes closed (D.sizeOfEachSector - (1 + size blocks)))
    ?_ ?_ ?_ rfl hfit rfl
  · rw [hF]
    simp [image, status]
  · simp [image, status]
  · rfl

/-- The marker is written behind the last block. -/
theorem Holds.closeSector (h : Holds D m F) (he : e < D.numberOfSectors) {first : Bool}
    {blocks : List Block} (hF : F e = .inUse first blocks false)
    (hlt : 1 + size blocks < D.sizeOfEachSector) :
    Holds D (NorMemory.program m (e * D.sizeOfEachSector + (1 + size blocks))
        [BlockStatus.emptyUntilEnd])
      (Function.update F e (.inUse first blocks true)) := by
  have hfit := (h e he).1
  rw [hF] at hfit
  obtain ⟨k, hk⟩ : ∃ k, D.sizeOfEachSector - (1 + size blocks) = k + 1 :=
    ⟨D.sizeOfEachSector - (1 + size blocks) - 1, by omega⟩
  refine h.program he (p := [(inUse first blocks false).status] ++ blocks.flatMap bytes)
    (q := [blank]) (x := [BlockStatus.emptyUntilEnd]) (r := List.replicate k blank) ?_ ?_ ?_ rfl
    hfit ?_
  · rw [hF, image, hk]
    simp [tailBytes, List.replicate_succ]
  · have hstatus : (inUse first blocks true).status
        = (inUse first blocks false).status := by cases first <;> rfl
    rw [image, hk, hstatus]
    simp [tailBytes]
  · simp [blank_and]
  · rw [List.length_append, List.length_singleton]
    rfl

/-- In a full sector there is no difference between open and closed. -/
theorem image_full {S : Nat} {first closed closed' : Bool} {blocks : List Block}
    (h : S = 1 + size blocks) :
    (inUse first blocks closed).image S = (inUse first blocks closed').image S := by
  have hstatus : (inUse first blocks closed).status
      = (inUse first blocks closed').status := by cases first <;> rfl
  rw [image, image, hstatus, h]
  simp [tailBytes]

/-! ## The last block -/

section

variable {first : Bool} {blocks : List Block}

/-- The bytes of a sector around its last block. -/
theorem image_lastBlock (S : Nat) (first : Bool) (blocks : List Block) (b : Block) :
    (inUse first (blocks ++ [b]) false).image S
      = ([startStatus first] ++ blocks.flatMap bytes) ++ b.bytes
        ++ List.replicate (S - (1 + size (blocks ++ [b]))) blank := by
  have hstatus : (inUse first (blocks ++ [b]) false).status = startStatus first := by
    cases first <;> rfl
  simp [image, hstatus, tailBytes_open]

theorem length_before (first : Bool) (blocks : List Block) :
    ([startStatus first] ++ blocks.flatMap bytes).length = 1 + size blocks := by
  rw [List.length_append, List.length_singleton]
  rfl

/-- The last block `b` becomes `b'`, by programming the part `q` of its bytes. -/
theorem Holds.changeBlock (h : Holds D m F) (he : e < D.numberOfSectors) {b b' : Block}
    (hF : F e = .inUse first (blocks ++ [b]) false) {a : Nat} {p q x r d : List UInt8}
    (hb : b.bytes = p ++ q ++ r) (hb' : b'.bytes = p ++ x ++ r)
    (hand : List.zipWith (· &&& ·) q d = x) (hd : d.length = q.length)
    (ha : a = e * D.sizeOfEachSector + (1 + size blocks + p.length)) :
    Holds D (NorMemory.program m a d)
      (Function.update F e (.inUse first (blocks ++ [b']) false)) := by
  have hq : x.length = q.length := by rw [← hand]; simp [hd]
  have hlen : b'.body.length = b.body.length := by
    have h1 := congrArg List.length hb
    have h2 := congrArg List.length hb'
    simp only [List.length_append, length_bytes] at h1 h2
    omega
  have hsize : size (blocks ++ [b']) = size (blocks ++ [b]) := by simp [hlen]
  have hfit := (h e he).1
  rw [hF] at hfit
  have hfit' : 1 + size (blocks ++ [b]) ≤ D.sizeOfEachSector := hfit
  refine h.program he (p := [startStatus first] ++ blocks.flatMap bytes ++ p) (q := q)
    (x := x) (r := r ++ List.replicate (D.sizeOfEachSector - (1 + size (blocks ++ [b]))) blank)
    ?_ ?_ hand hd ?_ ?_
  · rw [hF, image_lastBlock, hb]
    simp
  · rw [image_lastBlock, hb', hsize]
    simp
  · show 1 + size (blocks ++ [b']) ≤ D.sizeOfEachSector
    rw [hsize]
    exact hfit'
  · rw [List.length_append, length_before, ha]

/-- The status of a new block is written. -/
theorem Holds.writeLengthStatus (h : Holds D m F) (he : e < D.numberOfSectors)
    (hF : F e = .inUse first blocks false) (hlt : 1 + size blocks + 3 ≤ D.sizeOfEachSector) :
    Holds D (NorMemory.program m (e * D.sizeOfEachSector + (1 + size blocks))
        [BlockStatus.writingLength])
      (Function.update F e (.inUse first (blocks ++ [.lengthPending blank blank]) false)) := by
  obtain ⟨k, hk⟩ : ∃ k, D.sizeOfEachSector - (1 + size blocks) = k + 3 :=
    ⟨D.sizeOfEachSector - (1 + size blocks) - 3, by omega⟩
  have hsize : size (blocks ++ [.lengthPending blank blank]) = size blocks + 3 := by
    simp [body]
  have hstatus : (inUse first blocks false).status = startStatus first := by
    cases first <;> rfl
  refine h.program he (p := [startStatus first] ++ blocks.flatMap bytes) (q := [blank])
    (x := [BlockStatus.writingLength]) (r := List.replicate (k + 2) blank) ?_ ?_ ?_ rfl ?_ ?_
  · rw [hF, image, hk, hstatus, tailBytes_open]
    simp [List.replicate_succ]
  · have hk' : D.sizeOfEachSector - (1 + (size blocks + 3)) = k := by omega
    rw [image_lastBlock, hsize, hk']
    simp [bytes, header, body, List.replicate_succ]
  · simp [blank_and]
  · show 1 + size (blocks ++ [.lengthPending blank blank]) ≤ D.sizeOfEachSector
    rw [hsize]
    omega
  · rw [length_before]

/-- The length is written. -/
theorem Holds.writeLength (h : Holds D m F) (he : e < D.numberOfSectors) (lsb msb : UInt8)
    (hF : F e = .inUse first (blocks ++ [.lengthPending blank blank]) false) :
    Holds D (NorMemory.program m (e * D.sizeOfEachSector + (1 + size blocks + 1)) [lsb, msb])
      (Function.update F e (.inUse first (blocks ++ [.lengthPending lsb msb]) false)) := by
  refine h.changeBlock he hF (p := [BlockStatus.writingLength]) (q := [blank, blank])
    (x := [lsb, msb]) (r := []) rfl rfl ?_ rfl rfl
  simp [blank_and]

/-- The status that the data is being written is written. -/
theorem Holds.writeDataStatus (h : Holds D m F) (he : e < D.numberOfSectors) {n : Nat}
    (hF : F e = .inUse first
      (blocks ++ [.lengthPending (UInt8.ofNat n) (UInt8.ofNat (n / 256))]) false)
    (hn : 1 + size blocks + 3 + n ≤ D.sizeOfEachSector) :
    Holds D (NorMemory.program m (e * D.sizeOfEachSector + (1 + size blocks))
        [BlockStatus.writingData])
      (Function.update F e
        (.inUse first (blocks ++ [.dataPending (List.replicate n blank)]) false)) := by
  obtain ⟨k, hk⟩ : ∃ k, D.sizeOfEachSector - (1 + (size blocks + 3)) = n + k :=
    ⟨D.sizeOfEachSector - (1 + (size blocks + 3)) - n, by omega⟩
  have hsize : size (blocks ++ [.lengthPending (UInt8.ofNat n) (UInt8.ofNat (n / 256))])
      = size blocks + 3 := by
    simp [body]
  have hsize' : size (blocks ++ [.dataPending (List.replicate n blank)]) = size blocks + 3 + n := by
    simp [body]
    omega
  refine h.program he (p := [startStatus first] ++ blocks.flatMap bytes)
    (q := [BlockStatus.writingLength]) (x := [BlockStatus.writingData])
    (r := UInt8.ofNat n :: UInt8.ofNat (n / 256) :: List.replicate (n + k) blank) ?_ ?_ ?_ rfl ?_ ?_
  · rw [hF, image_lastBlock, hsize, hk]
    simp [bytes, header, body]
  · have hk' : D.sizeOfEachSector - (1 + (size blocks + 3 + n)) = k := by omega
    rw [image_lastBlock, hsize', hk', List.replicate_add]
    simp [bytes, header, body]
  · rfl
  · show 1 + size (blocks ++ [.dataPending (List.replicate n blank)]) ≤ D.sizeOfEachSector
    rw [hsize']
    omega
  · rw [length_before]

/-- A part of the data is written behind what has been written already. -/
theorem Holds.writeData (h : Holds D m F) (he : e < D.numberOfSectors) {w d : List UInt8} {k : Nat}
    (hF : F e = .inUse first (blocks ++ [.dataPending (w ++ List.replicate k blank)]) false)
    (hd : d.length ≤ k) :
    Holds D (NorMemory.program m (e * D.sizeOfEachSector + (1 + size blocks + (3 + w.length))) d)
      (Function.update F e (.inUse first
        (blocks ++ [.dataPending (w ++ d ++ List.replicate (k - d.length) blank)]) false)) := by
  have hsplit : List.replicate k blank
      = List.replicate d.length blank ++ List.replicate (k - d.length) blank := by
    rw [← List.replicate_add, Nat.add_sub_cancel' hd]
  have hheader : (dataPending (w ++ d ++ List.replicate (k - d.length) blank)).header
      = (dataPending (w ++ List.replicate k blank)).header := by
    simp only [header, List.length_append, List.length_replicate]
    rw [show w.length + d.length + (k - d.length) = w.length + k by omega]
  have hbody : (dataPending (w ++ List.replicate k blank)).body
      = w ++ (List.replicate d.length blank ++ List.replicate (k - d.length) blank) := by
    rw [← hsplit]
    rfl
  refine h.changeBlock he hF
    (p := [(dataPending (w ++ List.replicate k blank)).header.status,
      (dataPending (w ++ List.replicate k blank)).header.lengthLsb,
      (dataPending (w ++ List.replicate k blank)).header.lengthMsb] ++ w)
    (q := List.replicate d.length blank) (x := d) (r := List.replicate (k - d.length) blank)
    ?_ ?_ (zipWith_blank d) (by simp) ?_
  · rw [bytes, hbody]
    simp
  · rw [bytes, hheader]
    simp [body]
  · simp only [List.length_append, List.length_cons, List.length_nil]

/-- The record is complete. -/
theorem Holds.writeReady (h : Holds D m F) (he : e < D.numberOfSectors) {d : List UInt8}
    (hF : F e = .inUse first (blocks ++ [.dataPending d]) false) :
    Holds D (NorMemory.program m (e * D.sizeOfEachSector + (1 + size blocks))
        [BlockStatus.dataReady])
      (Function.update F e (.inUse first (blocks ++ [.ready d]) false)) :=
  h.changeBlock he hF (p := []) (q := [BlockStatus.writingData]) (x := [BlockStatus.dataReady])
    (r := UInt8.ofNat d.length :: UInt8.ofNat (d.length / 256) :: d) rfl rfl rfl rfl rfl

end

end EmbeddedInfra.CyclicStore
