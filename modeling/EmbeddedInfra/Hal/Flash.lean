import EmbeddedInfra.Lib.NorMemory

set_option autoImplicit false

/-! # Flash geometry

`hal::Flash` computes addresses from four functions that a device implements: the number and the
sizes of its sectors, and the map between sectors and addresses. `hal::FlashHomogeneous` implements
them for sectors of equal size. All of them are `uint32_t`; the arithmetic is modelled modulo
`2 ^ 32`.
-/

namespace EmbeddedInfra

/-- Truncation to `uint32_t`. -/
def u32 (n : Nat) : Nat := n % 2 ^ 32

/-- `uint32_t` addition. -/
def add32 (a b : Nat) : Nat := u32 (a + b)

/-- `uint32_t` subtraction. -/
def sub32 (a b : Nat) : Nat := u32 (2 ^ 32 - b % 2 ^ 32 + a)

theorem u32_of_lt {n : Nat} (h : n < 2 ^ 32) : u32 n = n := Nat.mod_eq_of_lt h

theorem add32_of_lt {a b : Nat} (h : a + b < 2 ^ 32) : add32 a b = a + b := u32_of_lt h

theorem sub32_of_le {a b : Nat} (h : b ≤ a) (ha : a < 2 ^ 32) : sub32 a b = a - b := by
  unfold sub32 u32
  omega

/-- `hal::FlashHomogeneous`. Addresses and `TotalSize()` are `uint32_t`, so the whole device is
smaller than `2 ^ 32` bytes. -/
structure FlashHomogeneous where
  numberOfSectors : Nat
  sizeOfEachSector : Nat
  size_pos : 0 < sizeOfEachSector
  sectors_pos : 0 < numberOfSectors
  fits : numberOfSectors * sizeOfEachSector < 2 ^ 32

namespace FlashHomogeneous

variable (f : FlashHomogeneous)

def sizeOfSector (_sectorIndex : Nat) : Nat := f.sizeOfEachSector

def sectorOfAddress (address : Nat) : Nat := address / f.sizeOfEachSector

def addressOfSector (sectorIndex : Nat) : Nat := u32 (sectorIndex * f.sizeOfEachSector)

def totalSize : Nat :=
  add32 (f.addressOfSector (f.numberOfSectors - 1)) (f.sizeOfSector (f.numberOfSectors - 1))

def startOfSector (address : Nat) : Nat := f.addressOfSector (f.sectorOfAddress address)

def addressOffsetInSector (address : Nat) : Nat := sub32 address (f.startOfSector address)

def startOfNextSectorCyclical (address : Nat) : Nat :=
  let sectorIndex := add32 (f.sectorOfAddress address) 1
  f.addressOfSector (if sectorIndex == f.numberOfSectors then 0 else sectorIndex)

def startOfPreviousSectorCyclical (address : Nat) : Nat :=
  let sectorIndex := f.sectorOfAddress address
  f.addressOfSector (sub32 (if sectorIndex == 0 then f.numberOfSectors else sectorIndex) 1)

def atStartOfSector (address : Nat) : Bool := f.startOfSector address == address

/-! ## Addresses as a sector and an offset -/

variable {f} {e o : Nat}

theorem mul_lt (he : e < f.numberOfSectors) :
    e * f.sizeOfEachSector + f.sizeOfEachSector ≤ f.numberOfSectors * f.sizeOfEachSector := by
  have := Nat.mul_le_mul_right f.sizeOfEachSector (Nat.succ_le_of_lt he)
  rwa [Nat.succ_mul] at this

/-- The address of an offset in a sector, the end of the sector included. -/
theorem address_lt (he : e < f.numberOfSectors) (ho : o ≤ f.sizeOfEachSector) :
    e * f.sizeOfEachSector + o < 2 ^ 32 := by
  have := f.fits
  have := mul_lt he
  omega

@[simp] theorem sizeOfSector_eq (i : Nat) : f.sizeOfSector i = f.sizeOfEachSector := rfl

theorem sectorOfAddress_eq (ho : o < f.sizeOfEachSector) :
    f.sectorOfAddress (e * f.sizeOfEachSector + o) = e := by
  rw [sectorOfAddress, Nat.mul_comm, Nat.mul_add_div f.size_pos, Nat.div_eq_of_lt ho, Nat.add_zero]

theorem addressOfSector_eq (he : e ≤ f.numberOfSectors) :
    f.addressOfSector e = e * f.sizeOfEachSector := by
  refine u32_of_lt (Nat.lt_of_le_of_lt ?_ f.fits)
  exact Nat.mul_le_mul_right _ he

theorem totalSize_eq : f.totalSize = f.numberOfSectors * f.sizeOfEachSector := by
  have hpos := f.sectors_pos
  have hlt : f.numberOfSectors - 1 < f.numberOfSectors := by omega
  have hsum : (f.numberOfSectors - 1) * f.sizeOfEachSector + f.sizeOfEachSector
      = f.numberOfSectors * f.sizeOfEachSector := by
    rw [← Nat.succ_mul, Nat.succ_eq_add_one, Nat.sub_add_cancel hpos]
  rw [totalSize, sizeOfSector_eq, addressOfSector_eq (Nat.le_of_lt hlt),
    add32_of_lt (address_lt hlt (Nat.le_refl _)), hsum]

theorem startOfSector_eq (he : e < f.numberOfSectors) (ho : o < f.sizeOfEachSector) :
    f.startOfSector (e * f.sizeOfEachSector + o) = e * f.sizeOfEachSector := by
  rw [startOfSector, sectorOfAddress_eq ho, addressOfSector_eq (Nat.le_of_lt he)]

theorem addressOffsetInSector_eq (he : e < f.numberOfSectors) (ho : o < f.sizeOfEachSector) :
    f.addressOffsetInSector (e * f.sizeOfEachSector + o) = o := by
  rw [addressOffsetInSector, startOfSector_eq he ho,
    sub32_of_le (Nat.le_add_right _ _) (address_lt he (Nat.le_of_lt ho)), Nat.add_sub_cancel_left]

theorem atStartOfSector_eq (he : e < f.numberOfSectors) (ho : o < f.sizeOfEachSector) :
    f.atStartOfSector (e * f.sizeOfEachSector + o) = decide (o = 0) := by
  rw [atStartOfSector, startOfSector_eq he ho]
  by_cases h : o = 0
  · simp [h]
  · simp only [h, decide_false, beq_eq_false_iff_ne]
    omega

/-- The sector after a sector, cyclically. -/
def nextSector (f : FlashHomogeneous) (e : Nat) : Nat := (e + 1) % f.numberOfSectors

theorem nextSector_lt (f : FlashHomogeneous) (e : Nat) : f.nextSector e < f.numberOfSectors :=
  Nat.mod_lt _ f.sectors_pos

theorem startOfNextSectorCyclical_eq (he : e < f.numberOfSectors) (ho : o < f.sizeOfEachSector) :
    f.startOfNextSectorCyclical (e * f.sizeOfEachSector + o)
      = f.nextSector e * f.sizeOfEachSector := by
  have hlt : e + 1 < 2 ^ 32 := by
    have h1 := f.fits
    have h2 := Nat.mul_le_mul_left f.numberOfSectors f.size_pos
    rw [Nat.mul_one] at h2
    omega
  simp only [startOfNextSectorCyclical, sectorOfAddress_eq ho, add32_of_lt hlt, nextSector]
  by_cases h : e + 1 = f.numberOfSectors
  · rw [if_pos (by simpa using h), h, Nat.mod_self, addressOfSector_eq (Nat.zero_le _)]
  · rw [if_neg (by simpa using h), Nat.mod_eq_of_lt (by omega), addressOfSector_eq (by omega)]

theorem startOfPreviousSectorCyclical_eq (he : e < f.numberOfSectors) :
    f.startOfPreviousSectorCyclical (f.nextSector e * f.sizeOfEachSector)
      = e * f.sizeOfEachSector := by
  have hn : f.numberOfSectors < 2 ^ 32 := by
    have h1 := f.fits
    have h2 := Nat.mul_le_mul_left f.numberOfSectors f.size_pos
    rw [Nat.mul_one] at h2
    omega
  have hsec : f.sectorOfAddress (f.nextSector e * f.sizeOfEachSector) = f.nextSector e := by
    simpa using sectorOfAddress_eq (f := f) (e := f.nextSector e) f.size_pos
  simp only [startOfPreviousSectorCyclical, hsec]
  by_cases h : e + 1 = f.numberOfSectors
  · have h0 : f.nextSector e = 0 := by rw [nextSector, h, Nat.mod_self]
    rw [h0, if_pos (by simp), sub32_of_le (by omega) hn, addressOfSector_eq (by omega), ← h,
      Nat.add_sub_cancel]
  · have h1 : f.nextSector e = e + 1 := Nat.mod_eq_of_lt (by omega)
    rw [h1, if_neg (by simp), sub32_of_le (by omega) (by omega), Nat.add_sub_cancel,
      addressOfSector_eq (by omega)]

end FlashHomogeneous

end EmbeddedInfra
