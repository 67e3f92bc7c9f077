import EmbeddedInfra.Hal.FlashSectors

set_option autoImplicit false

/-! # Regions of a flash

`services::FlashRegion` gives a user some of the sectors of a flash as a flash of their own, and
`services::SynchronousFlashRegion` does the same for calls that return when they are done. Both check with
`SectorOfAddress` that the first byte of a request and the byte behind the last one are at most in the sector behind
the region. A request that ends inside of this sector passes as well, and then bytes behind the region are read or
written.
-/

namespace EmbeddedInfra

/-- A call of `hal::Flash`, with what is to be called when it is done. -/
inductive FlashCall (δ : Type) where
  | writeBuffer (buffer : List UInt8) (address : Nat) (onDone : δ)
  | readBuffer (size address : Nat) (onDone : δ)
  | eraseSectors (beginIndex endIndex : Nat) (onDone : δ)
deriving DecidableEq

namespace FlashCall

variable {δ : Type}

/-- The bytes that a call reads, writes or erases: the sectors to erase are `[beginIndex, endIndex)`. -/
def Touches (f : Flash) (byte : Nat) : FlashCall δ → Prop
  | writeBuffer buffer address _ => address ≤ byte ∧ byte < address + buffer.length
  | readBuffer size address _ => address ≤ byte ∧ byte < address + size
  | eraseSectors beginIndex endIndex _ =>
      ∃ i, (beginIndex ≤ i ∧ i < endIndex) ∧ sectorStart f.sizes i ≤ byte ∧ byte < sectorStart f.sizes (i + 1)

/-- The arguments are `uint32_t`, and the sizes of buffers as well. -/
def Fits : FlashCall δ → Prop
  | writeBuffer buffer address _ => address < 2 ^ 32 ∧ buffer.length < 2 ^ 32
  | readBuffer size address _ => address < 2 ^ 32 ∧ size < 2 ^ 32
  | eraseSectors beginIndex endIndex _ => beginIndex < 2 ^ 32 ∧ endIndex < 2 ^ 32

end FlashCall

/-- The members of a region, which the constructor has checked. -/
structure Region where
  master : Flash
  startSector : Nat
  numberOfSectors : Nat
  valid : startSector + numberOfSectors ≤ master.numberOfSectors

namespace Region

variable {δ : Type} (r : Region)

def masterAddressOfStartSector : Nat := r.master.addressOfSector r.startSector

def sectorOfAddress (address : Nat) : Option Nat :=
  (r.master.sectorOfAddress (add32 r.masterAddressOfStartSector address)).map fun sector =>
    sub32 sector r.startSector

def addressOfSector (sectorIndex : Nat) : Nat :=
  sub32 (r.master.addressOfSector (add32 sectorIndex r.startSector)) r.masterAddressOfStartSector

/-- The assertion in front of reading and writing. -/
def inRegion (address size : Nat) : Option Unit := do
  let first ← r.sectorOfAddress address
  guard (first ≤ r.numberOfSectors)
  let behind ← r.sectorOfAddress (add32 address size)
  guard (behind ≤ r.numberOfSectors)

/-- What the master is asked to do, if no assertion fails. -/
def call : FlashCall δ → Option (FlashCall δ)
  | .writeBuffer buffer address onDone => do
      r.inRegion address buffer.length
      some (.writeBuffer buffer (add32 address r.masterAddressOfStartSector) onDone)
  | .readBuffer size address onDone => do
      r.inRegion address size
      some (.readBuffer size (add32 address r.masterAddressOfStartSector) onDone)
  | .eraseSectors beginIndex endIndex onDone => do
      guard (beginIndex ≤ r.numberOfSectors ∧ endIndex ≤ r.numberOfSectors)
      some (.eraseSectors (add32 beginIndex r.startSector) (add32 endIndex r.startSector) onDone)

end Region

/-- `FlashRegion`: the callback goes on to the master. -/
abbrev FlashRegion.call {δ : Type} (r : Region) (c : FlashCall δ) : Option (FlashCall δ) := r.call c

/-- `SynchronousFlashRegion`: there is no callback. -/
abbrev SynchronousFlashRegion.call (r : Region) (c : FlashCall Unit) : Option (FlashCall Unit) := r.call c

namespace Region

variable {δ : Type} {r : Region} {c c' : FlashCall δ} {address size sector byte i : Nat}

/-! ## The bytes of a region -/

/-- Where the sectors of a region begin and end in the master. -/
def first (r : Region) : Nat := sectorStart r.master.sizes r.startSector

def last (r : Region) : Nat := sectorStart r.master.sizes (r.startSector + r.numberOfSectors)

/-- The byte of the master lies in a sector of the region. -/
def Contains (r : Region) (byte : Nat) : Prop :=
  ∃ i, (r.startSector ≤ i ∧ i < r.startSector + r.numberOfSectors) ∧
    sectorStart r.master.sizes i ≤ byte ∧ byte < sectorStart r.master.sizes (i + 1)

/-- A part of a device from one sector to another. -/
theorem exists_between {f : Flash} {start upTo : Nat} (hupTo : upTo ≤ f.numberOfSectors) :
    (∃ i, (start ≤ i ∧ i < upTo) ∧ sectorStart f.sizes i ≤ byte ∧ byte < sectorStart f.sizes (i + 1)) ↔
      sectorStart f.sizes start ≤ byte ∧ byte < sectorStart f.sizes upTo := by
  constructor
  · rintro ⟨i, ⟨hfrom, hlt⟩, hle, hbyte⟩
    constructor
    · exact Nat.le_trans (sectorStart_mono hfrom) hle
    · exact Nat.lt_of_lt_of_le hbyte (sectorStart_mono hlt)
  · rintro ⟨hle, hlt⟩
    obtain ⟨i, hi, hstart, hend⟩ := exists_sector (Nat.lt_of_lt_of_le hlt (Flash.start_le hupTo))
    refine ⟨i, ⟨?_, ?_⟩, hstart, hend⟩
    · by_contra hfrom
      have hmono := @sectorStart_mono f.sizes _ _ (Nat.lt_of_not_le hfrom)
      rw [Nat.succ_eq_add_one] at hmono
      omega
    · by_contra hge
      have hmono := @sectorStart_mono f.sizes _ _ (Nat.le_of_not_lt hge)
      omega

theorem contains_iff : r.Contains byte ↔ r.first ≤ byte ∧ byte < r.last := exists_between r.valid

theorem masterAddress_eq (r : Region) : r.masterAddressOfStartSector = r.first :=
  Flash.addressOfSector_eq (Nat.le_of_add_right_le r.valid)

theorem first_le_last (r : Region) : r.first ≤ r.last := sectorStart_mono (Nat.le_add_right _ _)

theorem last_lt (r : Region) : r.last < 2 ^ 32 := Nat.lt_of_le_of_lt (Flash.start_le r.valid) r.master.fits

/-! ## The check -/

/-- **What the check says of an address**: it does not wrap, and it lies before the end of the sector behind the
region. -/
theorem sectorOfAddress_le_iff (haddress : address < 2 ^ 32) (hsector : r.sectorOfAddress address = some sector) :
    sector ≤ r.numberOfSectors ↔ r.first + address < 2 ^ 32 ∧
      ∃ i, r.master.sectorOfAddress (r.first + address) = some i ∧ i ≤ r.startSector + r.numberOfSectors := by
  have hvalid := r.valid
  have hnumber := r.master.numberOfSectors_lt
  have hlast := r.last_lt
  have hle := r.first_le_last
  rw [sectorOfAddress, masterAddress_eq, Option.map_eq_some_iff] at hsector
  obtain ⟨i, hi, rfl⟩ := hsector
  have hsum : add32 r.first address < 2 ^ 32 := Nat.mod_lt _ (by norm_num)
  have hsmall := Flash.sector_lt hsum hi
  have hstart := Flash.start_le_of_sector hsum hi (Nat.le_of_add_right_le hvalid)
  rw [← first] at hstart
  rcases Nat.lt_or_ge (r.first + address) (2 ^ 32) with hfits | hwraps
  · rw [add32_of_lt hfits] at hi hstart
    rw [sub32_of_le (hstart.mpr (Nat.le_add_right _ _)) hsmall]
    constructor
    · intro hsector
      exact ⟨hfits, i, hi, by omega⟩
    · rintro ⟨-, j, hj, hle⟩
      rw [hi] at hj
      have hsame := Option.some.inj hj
      omega
  · -- an address that wraps lies in front of the region, and the difference is larger than any number of sectors
    have hwrapped : add32 r.first address = r.first + address - 2 ^ 32 := by
      rw [add32, u32, Nat.mod_eq_sub_mod hwraps, Nat.mod_eq_of_lt (by omega)]
    rw [hwrapped] at hstart
    have hfront : i < r.startSector := by
      by_contra hge
      have hfirst := hstart.mp (Nat.le_of_not_lt hge)
      omega
    rw [sub32, u32]
    constructor
    · intro hsector
      omega
    · rintro ⟨hlt, -⟩
      omega

theorem sectorOfAddress_inside (h : r.first + address ≤ r.last) :
    ∃ sector ≤ r.numberOfSectors, r.sectorOfAddress address = some sector := by
  have hlast := r.last_lt
  -- the last address belongs to the sector behind the region
  obtain ⟨i, hi⟩ : ∃ i, r.master.sectorOfAddress (r.first + address) = some i := by
    rcases Nat.lt_or_eq_of_le h with hlt | heq
    · obtain ⟨i, hi, hstart, hend⟩ := exists_sector (Nat.lt_of_lt_of_le hlt (Flash.start_le r.valid))
      exact ⟨i, r.master.inside i hi _ hstart hend⟩
    · rw [heq]
      exact ⟨_, Flash.sectorOfAddress_start r.valid⟩
  have hsector : r.sectorOfAddress address = some (sub32 i r.startSector) := by
    rw [sectorOfAddress, masterAddress_eq, add32_of_lt (by omega), hi]
    rfl
  refine ⟨_, (sectorOfAddress_le_iff (by omega) hsector).mpr ⟨by omega, i, hi, ?_⟩, hsector⟩
  by_contra hgt
  rcases Nat.lt_or_eq_of_le r.valid with hvalid | hvalid
  · have hbehind := (Flash.start_le_of_sector (by omega) hi (Nat.succ_le_of_lt hvalid)).mp (by omega)
    have hlt := Flash.start_lt hvalid
    rw [last] at h
    rw [Nat.succ_eq_add_one] at hbehind
    omega
  · rcases Nat.lt_or_eq_of_le h with hlt | heq
    · have hbehind := (Flash.start_le_of_sector (by omega) hi r.valid).mp (by omega)
      rw [last] at hlt
      omega
    · rw [heq, last, Flash.sectorOfAddress_start r.valid] at hi
      have hsame := Option.some.inj hi
      omega

/-! ## What passes, and what it touches -/

/-- The byte behind the last one is not in the middle of the sector behind the region. -/
def EndsAtBorder (r : Region) (address size : Nat) : Prop :=
  size = 0 ∨ address + size < 2 ^ 32 ∧
    (r.sectorOfAddress (address + size) = some r.numberOfSectors →
      r.addressOfSector r.numberOfSectors = address + size)

/-- **The condition**: where a request ends, as its check should ask. -/
def StopsAtBorder (r : Region) : FlashCall δ → Prop
  | .writeBuffer buffer address _ => r.EndsAtBorder address buffer.length
  | .readBuffer size address _ => r.EndsAtBorder address size
  | .eraseSectors _ _ _ => True

/-- The request lies inside the region. -/
def Lies (r : Region) : FlashCall δ → Prop
  | .writeBuffer buffer address _ => address + buffer.length ≤ r.last - r.first
  | .readBuffer size address _ => address + size ≤ r.last - r.first
  | .eraseSectors beginIndex endIndex _ => beginIndex ≤ r.numberOfSectors ∧ endIndex ≤ r.numberOfSectors

/-- Two regions have no sector in common. -/
def Apart (r r' : Region) : Prop :=
  r'.master = r.master ∧ ∀ i, r.startSector ≤ i → i < r.startSector + r.numberOfSectors →
    ¬ (r'.startSector ≤ i ∧ i < r'.startSector + r'.numberOfSectors)

/-- What the master does touches bytes of the region alone, and none of a region with other sectors. -/
def Confines (r : Region) (c : FlashCall δ) : Prop :=
  (∀ byte, c.Touches r.master byte → r.Contains byte) ∧
    ∀ r' : Region, r.Apart r' → ∀ byte, c.Touches r.master byte → ¬ r'.Contains byte

theorem addressOfSector_numberOfSectors (r : Region) : r.addressOfSector r.numberOfSectors = r.last - r.first := by
  have hnumber := r.master.numberOfSectors_lt
  have hvalid := r.valid
  rw [addressOfSector, masterAddress_eq, add32_of_lt (by omega), Nat.add_comm, Flash.addressOfSector_eq hvalid, ← last,
    sub32_of_le r.first_le_last r.last_lt]

theorem Apart.not_contains {r' : Region} (h : r.Apart r') (hbyte : r.Contains byte) : ¬ r'.Contains byte := by
  rintro ⟨j, hj, hstart', hend'⟩
  obtain ⟨i, hi, hstart, hend⟩ := hbyte
  rw [h.1] at hstart' hend'
  have hsame : i = j := by
    rcases Nat.lt_trichotomy i j with hlt | heq | hlt
    · have hmono := @sectorStart_mono r.master.sizes _ _ (Nat.succ_le_of_lt hlt)
      rw [Nat.succ_eq_add_one] at hmono
      omega
    · exact heq
    · have hmono := @sectorStart_mono r.master.sizes _ _ (Nat.succ_le_of_lt hlt)
      rw [Nat.succ_eq_add_one] at hmono
      omega
  exact h.2 i hi.1 hi.2 (hsame ▸ hj)

theorem confines_iff : r.Confines c ↔ ∀ byte, c.Touches r.master byte → r.Contains byte := by
  constructor
  · exact And.left
  · intro h
    exact ⟨h, fun r' hapart byte htouches => hapart.not_contains (h byte htouches)⟩

theorem inRegion_of_lies (h : address + size ≤ r.last - r.first) : r.inRegion address size = some () := by
  have hle := r.first_le_last
  have hlast := r.last_lt
  obtain ⟨sector, hsector, hfirst⟩ := @sectorOfAddress_inside r address (by omega)
  obtain ⟨sector', hsector', hbehind⟩ := @sectorOfAddress_inside r (address + size) (by omega)
  rw [← add32_of_lt (show address + size < 2 ^ 32 by omega)] at hbehind
  simp only [inRegion, hfirst, hbehind, guard, if_pos hsector, if_pos hsector', Option.bind_eq_bind, Option.bind_some]
  rfl

/-- What has passed the check. -/
theorem inRegion_spec (h : r.inRegion address size = some ()) :
    (∃ sector ≤ r.numberOfSectors, r.sectorOfAddress address = some sector) ∧
      ∃ sector ≤ r.numberOfSectors, r.sectorOfAddress (add32 address size) = some sector := by
  simp only [inRegion, guard, Option.bind_eq_bind, Option.bind_eq_some_iff] at h
  obtain ⟨sector, hfirst, _, hsector, sector', hbehind, hsector'⟩ := h
  split_ifs at hsector hsector' with hle hle'
  exact ⟨⟨sector, hle, hfirst⟩, sector', hle', hbehind⟩

/-- **Which bytes lie in the region** after a request has passed. -/
theorem bytes_contained_iff (haddress : address < 2 ^ 32) (h : r.inRegion address size = some ()) :
    (∀ byte, add32 address r.masterAddressOfStartSector ≤ byte ∧
        byte < add32 address r.masterAddressOfStartSector + size → r.Contains byte) ↔
      r.EndsAtBorder address size := by
  have hle := r.first_le_last
  have hlast := r.last_lt
  obtain ⟨⟨sector, hsector, hfirst⟩, sector', hsector', hbehind⟩ := inRegion_spec h
  obtain ⟨hwraps, -⟩ := (sectorOfAddress_le_iff haddress hfirst).mp hsector
  rw [masterAddress_eq, Nat.add_comm, add32_of_lt (by omega)]
  constructor
  · intro hcontained
    rcases Nat.eq_zero_or_pos size with hzero | hpos
    · exact Or.inl hzero
    · -- the last byte says where the request ends
      have hend := (contains_iff.mp (hcontained (address + r.first + size - 1) (by omega))).2
      refine Or.inr ⟨by omega, ?_⟩
      intro hat
      rw [add32_of_lt (by omega)] at hbehind
      obtain ⟨-, i, hi, -⟩ := (sectorOfAddress_le_iff (by omega) hbehind).mp hsector'
      have hfront : r.startSector ≤ i := by
        rw [Flash.start_le_of_sector (by omega) hi (Nat.le_of_add_right_le r.valid), ← first]
        exact Nat.le_add_right _ _
      rw [sectorOfAddress, masterAddress_eq, add32_of_lt (by omega), hi, Option.map_some,
        sub32_of_le hfront (Flash.sector_lt (by omega) hi)] at hat
      have hsame := Option.some.inj hat
      have hstart := (Flash.start_le_of_sector (by omega) hi r.valid).mp (by omega)
      rw [← last] at hstart
      rw [addressOfSector_numberOfSectors]
      omega
  · rintro (hzero | ⟨hfits, hborder⟩) byte ⟨hfrom, hto⟩
    · omega
    · rw [add32_of_lt hfits] at hbehind
      obtain ⟨hwraps', i, hi, hbound⟩ := (sectorOfAddress_le_iff hfits hbehind).mp hsector'
      have hend : r.first + (address + size) ≤ r.last := by
        by_contra hgt
        have hstart := (Flash.start_le_of_sector hwraps' hi r.valid).mpr (by rw [← last]; omega)
        have hat : r.sectorOfAddress (address + size) = some r.numberOfSectors := by
          rw [sectorOfAddress, masterAddress_eq, add32_of_lt hwraps', hi, Option.map_some,
            sub32_of_le (by omega) (Flash.sector_lt hwraps' hi)]
          congr 1
          omega
        have hsize := hborder hat
        rw [addressOfSector_numberOfSectors] at hsize
        omega
      exact contains_iff.mpr ⟨by omega, by omega⟩

/-- What is promised of a request. -/
structure Guards (r : Region) (c : FlashCall δ) (forwarded : Option (FlashCall δ)) : Prop where
  passes : r.Lies c → forwarded.isSome
  confines_iff : ∀ c', forwarded = some c' → (r.Confines c' ↔ r.StopsAtBorder c)

theorem guards (hfits : c.Fits) : r.Guards c (r.call c) := by
  have hvalid := r.valid
  have hnumber := r.master.numberOfSectors_lt
  cases c with
  | eraseSectors beginIndex endIndex onDone =>
      constructor
      · intro hlies
        rw [Lies] at hlies
        simp only [call, guard, if_pos hlies]
        rfl
      · intro c' hcall
        simp only [call, guard, Option.bind_eq_bind, Option.bind_eq_some_iff] at hcall
        obtain ⟨_, hcheck, hsame⟩ := hcall
        obtain rfl := Option.some.inj hsame
        split_ifs at hcheck with hindices
        rw [confines_iff, StopsAtBorder, iff_true]
        rintro byte ⟨i, ⟨hfrom, hto⟩, hbyte⟩
        rw [add32_of_lt (by omega)] at hfrom hto
        exact ⟨i, ⟨by omega, by omega⟩, hbyte⟩
  | _ =>
      -- a request for bytes
      constructor
      · intro hlies
        rw [call, inRegion_of_lies hlies]
        rfl
      · intro c' hcall
        obtain ⟨_, hcheck, hsame⟩ := Option.bind_eq_some_iff.mp hcall
        obtain rfl := Option.some.inj hsame
        rw [confines_iff]
        exact bytes_contained_iff hfits.1 hcheck

end Region

end EmbeddedInfra
