import EmbeddedInfra.Services.CyclicStore.Model

set_option autoImplicit false

/-! # Sector images

What the store writes to a sector is a status byte, a list of blocks, and either erased bytes or a
marker that the rest of the sector stays empty. This file says what the bytes of such a sector are
(`Sector.image`), when a flash holds given sectors (`Holds`), and what the store reads from them.
-/

namespace EmbeddedInfra.CyclicStore

open NorMemory

/-! ## Blocks and sectors -/

/-- A block: a record that is complete, or one whose header or data is still being written. The
data of a pending record is what its place in flash contains. -/
inductive Block where
  | ready (record : List UInt8)
  | lengthPending (lsb msb : UInt8)
  | dataPending (data : List UInt8)

namespace Block

def header : Block → BlockHeader
  | ready d => ⟨BlockStatus.dataReady, UInt8.ofNat d.length, UInt8.ofNat (d.length / 256)⟩
  | lengthPending lsb msb => ⟨BlockStatus.writingLength, lsb, msb⟩
  | dataPending d => ⟨BlockStatus.writingData, UInt8.ofNat d.length, UInt8.ofNat (d.length / 256)⟩

def body : Block → List UInt8
  | ready d => d
  | lengthPending _ _ => []
  | dataPending d => d

def bytes (b : Block) : List UInt8 :=
  b.header.status :: b.header.lengthLsb :: b.header.lengthMsb :: b.body

/-- The record of a complete block. -/
def record : Block → Option (List UInt8)
  | ready d => some d
  | _ => none

end Block

/-- The number of bytes of a list of blocks. -/
def size (blocks : List Block) : Nat := (blocks.flatMap Block.bytes).length

/-- The complete records among blocks. -/
def records (blocks : List Block) : List (List UInt8) := blocks.filterMap Block.record

@[simp] theorem Block.length_bytes (b : Block) : b.bytes.length = 3 + b.body.length := by
  simp [Block.bytes]
  omega

@[simp] theorem size_nil : size [] = 0 := rfl

@[simp] theorem size_cons (b : Block) (blocks : List Block) :
    size (b :: blocks) = 3 + b.body.length + size blocks := by
  simp [size]

@[simp] theorem size_append (l r : List Block) : size (l ++ r) = size l + size r := by
  simp [size]

@[simp] theorem records_nil : records [] = [] := rfl

theorem records_cons (b : Block) (blocks : List Block) :
    records (b :: blocks) = b.record.toList ++ records blocks := by
  cases h : b.record <;> rw [records, List.filterMap_cons, h] <;> rfl

@[simp] theorem records_append (l r : List Block) : records (l ++ r) = records l ++ records r := by
  simp [records]

theorem records_ready (rs : List (List UInt8)) : records (rs.map Block.ready) = rs := by
  induction rs with
  | nil => rfl
  | cons d rs ih => rw [List.map_cons, records_cons, ih]; rfl

/-- A length as the two bytes of a header. -/
theorem blockLength_ofNat {status : UInt8} {n : Nat} (h : n < 65536) :
    (BlockHeader.mk status (UInt8.ofNat n) (UInt8.ofNat (n / 256))).blockLength = n := by
  simp only [BlockHeader.blockLength, UInt8.toNat_ofNat']
  omega

theorem blockLength_lt (h : BlockHeader) : h.blockLength < 65536 := by
  have h1 := h.lengthLsb.toNat_lt
  have h2 := h.lengthMsb.toNat_lt
  simp only [BlockHeader.blockLength]
  omega

/-- What a sector contains. The blocks of a `closed` sector are followed by the marker, if there is
room for it. -/
inductive Sector where
  | erased
  | inUse (first : Bool) (blocks : List Block) (closed : Bool)

/-- The `k` bytes after the blocks. -/
def tailBytes (closed : Bool) (k : Nat) : List UInt8 :=
  if closed = true ∧ 0 < k then BlockStatus.emptyUntilEnd :: List.replicate (k - 1) blank
  else List.replicate k blank

theorem tailBytes_open (k : Nat) : tailBytes false k = List.replicate k blank := rfl

namespace Sector

def status : Sector → UInt8
  | erased => SectorStatus.empty
  | inUse true _ _ => SectorStatus.firstInCycle
  | inUse false _ _ => SectorStatus.used

/-- The blocks fit in a sector of `S` bytes. -/
def Fits (S : Nat) : Sector → Prop
  | erased => 1 ≤ S
  | inUse _ blocks _ => 1 + size blocks ≤ S

/-- The bytes of a sector of `S` bytes. -/
def image (S : Nat) : Sector → List UInt8
  | erased => List.replicate S blank
  | inUse first blocks closed =>
      [(inUse first blocks closed).status] ++ blocks.flatMap Block.bytes
        ++ tailBytes closed (S - (1 + size blocks))

/-- The status is the first byte. -/
theorem image_eq_cons {S : Nat} {c : Sector} (h : c.Fits S) :
    ∃ rest, c.image S = c.status :: rest := by
  cases c with
  | erased =>
      obtain ⟨k, rfl⟩ : ∃ k, S = k + 1 := ⟨S - 1, by have : 1 ≤ S := h; omega⟩
      exact ⟨List.replicate k blank, rfl⟩
  | inUse first blocks closed => exact ⟨_, rfl⟩

end Sector

/-! ## Flash contents -/

variable {D : Device}

/-- The flash contains the given sectors. -/
def Holds (D : Device) (m : Memory) (F : Nat → Sector) : Prop :=
  ∀ e < D.numberOfSectors, (F e).Fits D.sizeOfEachSector ∧
    NorMemory.read m (e * D.sizeOfEachSector) D.sizeOfEachSector = (F e).image D.sizeOfEachSector

section

variable {m : Memory} {F : Nat → Sector} {e o : Nat}

/-- A byte that is read from the sector in which the read started. -/
theorem fetch_eq (he : e < D.numberOfSectors) {i : Nat} (ho : o + i < D.sizeOfEachSector) :
    D.fetch m (e * D.sizeOfEachSector + o) i = m (e * D.sizeOfEachSector + (o + i)) := by
  have hlt : e * D.sizeOfEachSector + o < D.totalSize := by
    have := FlashHomogeneous.mul_lt he
    rw [FlashHomogeneous.totalSize_eq]
    omega
  have hsec : D.sectorOfAddress (e * D.sizeOfEachSector + o + i)
      = D.sectorOfAddress (e * D.sizeOfEachSector + o) := by
    rw [Nat.add_assoc, FlashHomogeneous.sectorOfAddress_eq ho,
      FlashHomogeneous.sectorOfAddress_eq (by omega)]
  rw [Device.fetch, if_pos ⟨hlt, hsec⟩, Nat.add_assoc]

theorem readStatus_eq (h : Holds D m F) (he : e < D.numberOfSectors) :
    D.readStatus m (e * D.sizeOfEachSector) = (F e).status := by
  obtain ⟨hfit, hread⟩ := h e he
  obtain ⟨rest, hrest⟩ := Sector.image_eq_cons hfit
  have hbyte : m (e * D.sizeOfEachSector) = (F e).status :=
    get_part (p := []) (hread.trans hrest) rfl
  have hf := fetch_eq (m := m) (o := 0) (i := 0) he (by have := D.size_pos; omega)
  simp only [Nat.add_zero] at hf
  rw [Device.readStatus, hf, hbyte]

/-- The first byte of a header. -/
theorem readHeader_status (he : e < D.numberOfSectors) {p r : List UInt8} {x : UInt8}
    (h : NorMemory.read m (e * D.sizeOfEachSector) D.sizeOfEachSector = p ++ x :: r)
    (hp : p.length = o) :
    (D.readHeader m (e * D.sizeOfEachSector + o)).status = x := by
  have hlen := congrArg List.length h
  simp only [length_read, List.length_append, List.length_cons] at hlen
  show D.fetch m (e * D.sizeOfEachSector + o) 0 = x
  rw [fetch_eq he (by omega), Nat.add_zero]
  exact get_part h (by rw [hp])

/-- The header of a block. -/
theorem readHeader_block (he : e < D.numberOfSectors) {p r : List UInt8} {b : Block}
    (h : NorMemory.read m (e * D.sizeOfEachSector) D.sizeOfEachSector = p ++ b.bytes ++ r)
    (hp : p.length = o) :
    D.readHeader m (e * D.sizeOfEachSector + o) = b.header := by
  have hlen := congrArg List.length h
  simp only [length_read, List.length_append, Block.length_bytes] at hlen
  have h0 : D.fetch m (e * D.sizeOfEachSector + o) 0 = b.header.status := by
    rw [fetch_eq he (by omega)]
    refine get_part (p := p) (r := b.header.lengthLsb :: b.header.lengthMsb :: b.body ++ r) (h.trans ?_) ?_
    · simp [Block.bytes]
    · omega
  have h1 : D.fetch m (e * D.sizeOfEachSector + o) 1 = b.header.lengthLsb := by
    rw [fetch_eq he (by omega)]
    refine get_part (p := p ++ [b.header.status]) (r := b.header.lengthMsb :: b.body ++ r) (h.trans ?_) ?_
    · simp [Block.bytes]
    · simp only [List.length_append, List.length_singleton]
      omega
  have h2 : D.fetch m (e * D.sizeOfEachSector + o) 2 = b.header.lengthMsb := by
    rw [fetch_eq he (by omega)]
    refine get_part (p := p ++ [b.header.status, b.header.lengthLsb]) (r := b.body ++ r) (h.trans ?_) ?_
    · simp [Block.bytes]
    · simp only [List.length_append, List.length_cons, List.length_nil]
      omega
  rw [Device.readHeader, h0, h1, h2]

/-- Reading inside a sector. -/
theorem readBuffer_eq (he : e < D.numberOfSectors) {n : Nat} (hn : o + n ≤ D.sizeOfEachSector) :
    D.readBuffer m (e * D.sizeOfEachSector + o) n
      = NorMemory.read m (e * D.sizeOfEachSector + o) n := by
  refine List.map_congr_left (fun i hi => ?_)
  have := List.mem_range.mp hi
  rw [fetch_eq he (by omega), Nat.add_assoc]

/-! ## Blocks in a flash -/

variable {first closed : Bool} {done rest : List Block} {b : Block}

/-- The bytes of a sector around one of its blocks. -/
theorem image_at_block (h : Holds D m F) (he : e < D.numberOfSectors)
    (hF : F e = .inUse first (done ++ b :: rest) closed) :
    ∃ p r, NorMemory.read m (e * D.sizeOfEachSector) D.sizeOfEachSector = p ++ b.bytes ++ r ∧
      p.length = 1 + size done := by
  obtain ⟨hfit, hread⟩ := h e he
  rw [hF] at hfit hread
  refine ⟨[(Sector.inUse first (done ++ b :: rest) closed).status] ++ done.flatMap Block.bytes,
    rest.flatMap Block.bytes ++ tailBytes closed
      (D.sizeOfEachSector - (1 + size (done ++ b :: rest))), ?_, ?_⟩
  · rw [hread, Sector.image]
    simp
  · rw [List.length_append, List.length_singleton]
    rfl

theorem size_le (h : Holds D m F) (he : e < D.numberOfSectors)
    (hF : F e = .inUse first (done ++ rest) closed) :
    1 + size done + size rest ≤ D.sizeOfEachSector := by
  have hfit := (h e he).1
  rw [hF] at hfit
  have : 1 + size (done ++ rest) ≤ D.sizeOfEachSector := hfit
  rw [size_append] at this
  omega

theorem size_le_sector (h : Holds D m F) (he : e < D.numberOfSectors) {blocks : List Block}
    (hF : F e = .inUse first blocks closed) : 1 + size blocks ≤ D.sizeOfEachSector := by
  have hfit := (h e he).1
  rw [hF] at hfit
  exact hfit

theorem readHeader_of_block (h : Holds D m F) (he : e < D.numberOfSectors)
    (hF : F e = .inUse first (done ++ b :: rest) closed) :
    D.readHeader m (e * D.sizeOfEachSector + (1 + size done)) = b.header := by
  obtain ⟨p, r, hread, hp⟩ := image_at_block h he hF
  exact readHeader_block he hread hp

/-- The record behind the header of a complete block. -/
theorem readBuffer_of_block (h : Holds D m F) (he : e < D.numberOfSectors)
    (hF : F e = .inUse first (done ++ b :: rest) closed) :
    D.readBuffer m (e * D.sizeOfEachSector + (1 + size done + 3)) b.body.length = b.body := by
  have hle := size_le h he hF
  rw [size_cons] at hle
  rw [readBuffer_eq he (by omega)]
  obtain ⟨p, r, hread, hp⟩ := image_at_block h he hF
  refine read_part (p := p ++ [b.header.status, b.header.lengthLsb, b.header.lengthMsb])
    (q := b.body) (r := r) (hread.trans ?_) ?_ rfl
  · simp [Block.bytes]
  · simp only [List.length_append, List.length_cons, List.length_nil, hp]

/-- The byte after the last block, when there is one. -/
theorem readHeader_of_tail (h : Holds D m F) (he : e < D.numberOfSectors) {blocks : List Block}
    (hF : F e = .inUse first blocks closed) (hlt : 1 + size blocks < D.sizeOfEachSector) :
    (D.readHeader m (e * D.sizeOfEachSector + (1 + size blocks))).status
      = if closed then BlockStatus.emptyUntilEnd else BlockStatus.empty := by
  obtain ⟨hfit, hread⟩ := h e he
  rw [hF] at hfit hread
  obtain ⟨k, hk⟩ : ∃ k, D.sizeOfEachSector - (1 + size blocks) = k + 1 :=
    ⟨D.sizeOfEachSector - (1 + size blocks) - 1, by omega⟩
  have htail : tailBytes closed (k + 1)
      = (if closed then BlockStatus.emptyUntilEnd else BlockStatus.empty)
        :: List.replicate k blank := by
    cases closed with
    | true => simp [tailBytes]
    | false => rfl
  rw [Sector.image, hk, htail] at hread
  refine readHeader_status he hread ?_
  rw [List.length_append, List.length_singleton]
  rfl

end

end EmbeddedInfra.CyclicStore
