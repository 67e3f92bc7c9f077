import EmbeddedInfra.Hal.Flash

set_option autoImplicit false

/-! # Flash with sectors of different sizes

What `hal::Flash` promises about a device: its sectors lie one behind the other, `AddressOfSector` is where a sector
begins, and `SectorOfAddress` is the sector that an address lies in. The address behind the last sector belongs to the
sector index `NumberOfSectors()`; what a device says of addresses further on is none of its sectors.
-/

namespace EmbeddedInfra

/-- Where a sector begins. -/
def sectorStart (sizes : List Nat) (sectorIndex : Nat) : Nat := (sizes.take sectorIndex).sum

/-- `hal::Flash`. An assertion of the device that fails is `none`. -/
structure Flash where
  sizes : List Nat
  sectorOfAddress : Nat → Option Nat
  pos : ∀ size ∈ sizes, 0 < size
  fits : sizes.sum < 2 ^ 32
  inside : ∀ i < sizes.length, ∀ address, sectorStart sizes i ≤ address → address < sectorStart sizes (i + 1) →
    sectorOfAddress address = some i
  atEnd : sectorOfAddress sizes.sum = some sizes.length
  behind : ∀ address < 2 ^ 32, sizes.sum < address → ∀ i, sectorOfAddress address = some i →
    sizes.length ≤ i ∧ i < 2 ^ 32

/-! ## Where sectors begin -/

section Starts

variable {sizes : List Nat} {i j address : Nat}

theorem sectorStart_length (sizes : List Nat) : sectorStart sizes sizes.length = sizes.sum := by
  rw [sectorStart, List.take_length]

theorem sectorStart_succ (h : i < sizes.length) : sectorStart sizes (i + 1) = sectorStart sizes i + sizes[i] := by
  rw [sectorStart, sectorStart, List.take_succ_eq_append_getElem h, List.sum_append, List.sum_singleton]

theorem sectorStart_mono (h : i ≤ j) : sectorStart sizes i ≤ sectorStart sizes j := by
  obtain ⟨k, rfl⟩ := Nat.exists_eq_add_of_le h
  rw [sectorStart, sectorStart, List.take_add, List.sum_append]
  exact Nat.le_add_right _ _

/-- Every address of a device lies in a sector. -/
theorem exists_sector (h : address < sizes.sum) :
    ∃ i < sizes.length, sectorStart sizes i ≤ address ∧ address < sectorStart sizes (i + 1) := by
  have hbehind : ∃ i, address < sectorStart sizes i := ⟨sizes.length, by rwa [sectorStart_length]⟩
  -- the sector in front of the first one that begins behind the address
  have hfirst := Nat.find_spec hbehind
  have hpos : Nat.find hbehind ≠ 0 := by
    intro hzero
    rw [hzero] at hfirst
    exact absurd hfirst (Nat.not_lt_zero _)
  obtain ⟨i, hi⟩ := Nat.exists_eq_succ_of_ne_zero hpos
  rw [hi] at hfirst
  have hle : sectorStart sizes i ≤ address := by
    by_contra hlt
    have hmin := Nat.find_min' hbehind (Nat.lt_of_not_le hlt)
    omega
  refine ⟨i, ?_, hle, hfirst⟩
  by_contra hlength
  have hmono := @sectorStart_mono sizes _ _ (Nat.le_of_not_lt hlength)
  rw [sectorStart_length] at hmono
  omega

end Starts

namespace Flash

variable (f : Flash)

def numberOfSectors : Nat := f.sizes.length

def addressOfSector (sectorIndex : Nat) : Nat := u32 (sectorStart f.sizes sectorIndex)

variable {f} {i j address : Nat}

theorem start_le (h : i ≤ f.numberOfSectors) : sectorStart f.sizes i ≤ f.sizes.sum := by
  rw [← sectorStart_length]
  exact sectorStart_mono h

theorem addressOfSector_eq (h : i ≤ f.numberOfSectors) : f.addressOfSector i = sectorStart f.sizes i :=
  u32_of_lt (Nat.lt_of_le_of_lt (start_le h) f.fits)

theorem start_lt (h : i < f.numberOfSectors) : sectorStart f.sizes i < sectorStart f.sizes (i + 1) := by
  rw [sectorStart_succ h]
  exact Nat.lt_add_of_pos_right (f.pos _ (List.getElem_mem h))

/-- A device has fewer sectors than bytes. -/
theorem index_le_start (h : i ≤ f.numberOfSectors) : i ≤ sectorStart f.sizes i := by
  induction i with
  | zero => exact Nat.zero_le _
  | succ i ih => exact Nat.lt_of_le_of_lt (ih (Nat.le_of_succ_le h)) (start_lt h)

theorem numberOfSectors_lt (f : Flash) : f.numberOfSectors < 2 ^ 32 := by
  have hle := index_le_start (Nat.le_refl f.numberOfSectors)
  have hfits := f.fits
  rw [numberOfSectors, sectorStart_length] at hle
  exact Nat.lt_of_le_of_lt hle hfits

/-- The start of a sector lies in this sector, that of the sector behind the last one as well. -/
theorem sectorOfAddress_start (h : i ≤ f.numberOfSectors) : f.sectorOfAddress (sectorStart f.sizes i) = some i := by
  rcases Nat.lt_or_eq_of_le h with hlt | rfl
  · exact f.inside i hlt _ (Nat.le_refl _) (start_lt hlt)
  · rw [numberOfSectors, sectorStart_length]
    exact f.atEnd

/-- **The sector of an address says where the address is.** -/
theorem start_le_of_sector (haddress : address < 2 ^ 32) (h : f.sectorOfAddress address = some i)
    (hj : j ≤ f.numberOfSectors) : j ≤ i ↔ sectorStart f.sizes j ≤ address := by
  rcases Nat.lt_or_ge address f.sizes.sum with hlt | hge
  · obtain ⟨k, hk, hfrom, hto⟩ := exists_sector hlt
    have hsame : k = i := by
      have hsector := f.inside k hk address hfrom hto
      rw [h] at hsector
      exact (Option.some.inj hsector).symm
    rw [← hsame]
    constructor
    · intro hle
      exact Nat.le_trans (sectorStart_mono hle) hfrom
    · intro hle
      by_contra hgt
      have hmono := @sectorStart_mono f.sizes _ _ (Nat.lt_of_not_le hgt)
      rw [Nat.succ_eq_add_one] at hmono
      omega
  · have hi : f.numberOfSectors ≤ i := by
      rcases Nat.lt_or_eq_of_le hge with hlt | heq
      · exact (f.behind address haddress hlt i h).1
      · rw [← heq, f.atEnd] at h
        exact Nat.le_of_eq (Option.some.inj h)
    have hstart := start_le hj
    constructor
    · intro _
      omega
    · intro _
      omega

theorem sector_lt (haddress : address < 2 ^ 32) (h : f.sectorOfAddress address = some i) : i < 2 ^ 32 := by
  have hnumber := f.numberOfSectors_lt
  by_contra hge
  rcases Nat.lt_trichotomy address f.sizes.sum with hlt | heq | hlt
  · have hle := (start_le_of_sector haddress h (Nat.le_refl f.numberOfSectors)).mp (by omega)
    rw [numberOfSectors, sectorStart_length] at hle
    omega
  · rw [heq, f.atEnd] at h
    have hsame := Option.some.inj h
    rw [numberOfSectors] at hnumber
    omega
  · exact hge (f.behind address haddress hlt i h).2

end Flash

/-! ## Devices -/

/-- `FlashHomogeneous` as a device. -/
def FlashHomogeneous.flash (f : FlashHomogeneous) : Flash where
  sizes := List.replicate f.numberOfSectors f.sizeOfEachSector
  sectorOfAddress address := some (f.sectorOfAddress address)
  pos := by
    intro size hsize
    rw [List.eq_of_mem_replicate hsize]
    exact f.size_pos
  fits := by
    rw [List.sum_replicate_nat]
    exact f.fits
  inside := by
    intro i hi address hfrom hto
    rw [List.length_replicate] at hi
    rw [sectorStart, List.take_replicate, List.sum_replicate_nat, Nat.min_eq_left (by omega)] at hfrom hto
    have hfits := f.fits
    have hle := FlashHomogeneous.mul_lt hi
    rw [Nat.succ_mul] at hto
    have hdiv : address / f.sizeOfEachSector = i := by
      rw [Nat.div_eq_iff f.size_pos]
      constructor
      · omega
      · omega
    rw [FlashHomogeneous.sectorOfAddress, hdiv]
  atEnd := by
    rw [List.length_replicate, List.sum_replicate_nat, FlashHomogeneous.sectorOfAddress,
      Nat.mul_div_cancel _ f.size_pos]
  behind := by
    intro address haddress hlt i hi
    rw [List.sum_replicate_nat] at hlt
    rw [List.length_replicate, ← Option.some.inj hi, FlashHomogeneous.sectorOfAddress]
    constructor
    · exact (Nat.le_div_iff_mul_le f.size_pos).mpr (Nat.le_of_lt hlt)
    · exact Nat.lt_of_le_of_lt (Nat.div_le_self _ _) haddress

/-- `FlashStub`, which looks for the sector from the front. -/
def FlashStub.sectorOfAddress : List Nat → Nat → Option Nat
  | [], address => if address = 0 then some 0 else none
  | size :: sizes, address =>
      if address < size then some 0 else (sectorOfAddress sizes (address - size)).map (· + 1)

/-- The assertion behind the loop, that the address is the end. -/
theorem FlashStub.sectorOfAddress_behind {sizes : List Nat} {address : Nat} (h : sizes.sum < address) :
    sectorOfAddress sizes address = none := by
  induction sizes generalizing address with
  | nil => exact if_neg (Nat.ne_of_gt h)
  | cons size sizes ih =>
      rw [List.sum_cons] at h
      rw [sectorOfAddress, if_neg (by omega), ih (by omega)]
      rfl

def FlashStub.flash (sizes : List Nat) (hpos : ∀ size ∈ sizes, 0 < size) (hfits : sizes.sum < 2 ^ 32) : Flash where
  sizes := sizes
  sectorOfAddress := FlashStub.sectorOfAddress sizes
  pos := hpos
  fits := hfits
  inside := by
    clear hpos hfits
    induction sizes with
    | nil =>
        intro i hi
        exact absurd hi (Nat.not_lt_zero i)
    | cons size sizes ih =>
        intro i hi address hfrom hto
        rw [FlashStub.sectorOfAddress]
        cases i with
        | zero =>
            rw [sectorStart, List.take_succ_cons, List.take_zero, List.sum_singleton] at hto
            rw [if_pos hto]
        | succ i =>
            rw [sectorStart, List.take_succ_cons, List.sum_cons] at hfrom hto
            rw [if_neg (by omega), ih i (by simpa using hi) (address - size)]
            · rfl
            · rw [sectorStart]
              omega
            · rw [sectorStart]
              omega
  atEnd := by
    clear hfits
    induction sizes with
    | nil => rfl
    | cons size sizes ih =>
        have hsize := hpos size List.mem_cons_self
        rw [FlashStub.sectorOfAddress, List.sum_cons, if_neg (by omega), Nat.add_sub_cancel_left,
          ih fun size' hmem => hpos size' (List.mem_cons_of_mem _ hmem)]
        rfl
  behind := by
    intro address _ hlt i hi
    rw [FlashStub.sectorOfAddress_behind hlt] at hi
    cases hi

end EmbeddedInfra
