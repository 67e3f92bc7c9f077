import EmbeddedInfra.Services.Util.SerialFlash

set_option autoImplicit false

/-! # `services::FlashSpi` and `services::FlashQuadSpi`

The commands of the drivers: a write is cut at the borders of the pages, and an erase takes the largest unit that is
aligned and fits. Both loops come to an end on a device of at most `2 ^ 24` bytes, the addresses of which fit into the
three bytes of a command.
-/

namespace EmbeddedInfra.SerialFlash

open Sequencer

def sizePage : Nat := 256

def sizeSubSector : Nat := 4096

/-- `sizeSector / sizeSubSector` -/
def subSectorsPerSector : Nat := 65536 / sizeSubSector

/-- A device of at most `2 ^ 24` bytes. -/
structure Size where
  numberOfSubSectors : Nat
  pos : 0 < numberOfSubSectors
  le : numberOfSubSectors * sizeSubSector ≤ 2 ^ 24

def Size.flash (size : Size) : FlashHomogeneous where
  numberOfSectors := size.numberOfSubSectors
  sizeOfEachSector := sizeSubSector
  size_pos := Nat.zero_lt_succ _
  sectors_pos := size.pos
  fits := Nat.lt_of_le_of_lt size.le (by decide)

theorem Size.numberOfSubSectors_le (size : Size) : size.numberOfSubSectors ≤ 4096 :=
  Nat.le_of_mul_le_mul_right size.le (by decide)

section Definitions

variable {τ : Type} (f : FlashHomogeneous)

/-! ## Commands

What the drivers have in common; `programPage`, `bulk`, `sector` and `subSector` are the commands as they send them. -/

/-- The part of the buffer that is left of the page. -/
def currentBuffer (m : Members) : List UInt8 :=
  m.buffer.take (sizePage - f.addressOffsetInSector m.address % sizePage)

def pageProgram (programPage : Nat → List UInt8 → τ) (m : Members) : Members × τ :=
  ({ m with
      buffer := m.buffer.drop (currentBuffer f m).length
      address := add32 m.address (currentBuffer f m).length },
    programPage m.address (currentBuffer f m))

def eraseSomeSectors (bulk : τ) (sector subSector : Nat → τ) (endIndex : Nat) (m : Members) : Members × τ :=
  if m.sectorIndex = 0 ∧ endIndex = f.numberOfSectors then
    ({ m with sectorIndex := add32 m.sectorIndex f.numberOfSectors }, bulk)
  else if m.sectorIndex % subSectorsPerSector = 0 ∧ add32 m.sectorIndex subSectorsPerSector ≤ endIndex then
    ({ m with sectorIndex := add32 m.sectorIndex subSectorsPerSector }, sector m.sectorIndex)
  else
    ({ m with sectorIndex := add32 m.sectorIndex 1 }, subSector m.sectorIndex)

/-- The loop of `WriteBuffer`. -/
def writing (turn : Members → Members × τ) : Job τ where
  more := fun m => !m.buffer.isEmpty
  turn := turn

/-- The loop of `EraseSectors`. -/
def erasing (endIndex : Nat) (turn : Members → Members × τ) : Job τ where
  more := fun m => m.sectorIndex != endIndex
  turn := turn

def startWrite (buffer : List UInt8) (address : Nat) (s : State τ) : State τ :=
  { s with members := { s.members with buffer := buffer, address := address } }

def startErase (beginIndex : Nat) (s : State τ) : State τ :=
  { s with members := { s.members with sectorIndex := beginIndex } }

end Definitions

/-! ## `services::FlashSpi` -/

namespace FlashSpi

/-- The bytes of a command, from the selection of the chip to its end. -/
abbrev Session : Type := List UInt8

def commandPageProgram : UInt8 := 0x02
def commandWriteEnable : UInt8 := 0x06
def commandEraseSubSector : UInt8 := 0x20
def commandEraseSector : UInt8 := 0xd8
def commandEraseBulk : UInt8 := 0xc7

def convertAddress (address : Nat) : List UInt8 :=
  [UInt8.ofNat (address >>> 16), UInt8.ofNat (address >>> 8), UInt8.ofNat address]

def writeEnable : Session := [commandWriteEnable]

variable (f : FlashHomogeneous)

def pageProgram : Members → Members × Session :=
  SerialFlash.pageProgram f fun address data => commandPageProgram :: convertAddress address ++ data

def sendEraseSubSector (subSectorIndex : Nat) : Session :=
  commandEraseSubSector :: convertAddress (f.addressOfSector subSectorIndex)

def sendEraseSector (subSectorIndex : Nat) : Session :=
  commandEraseSector :: convertAddress (f.addressOfSector subSectorIndex)

def sendEraseBulk : Session := [commandEraseBulk]

def eraseSomeSectors (endIndex : Nat) : Members → Members × Session :=
  SerialFlash.eraseSomeSectors f sendEraseBulk (sendEraseSector f) (sendEraseSubSector f) endIndex

def writeBuffer (timing : Timing Session) (buffer : List UInt8) (address : Nat) : List (Stmt (State Session)) :=
  [.execute (startWrite buffer address),
    (writing (pageProgram f)).loop .asynchronous writeEnable (delayedHold timing), .execute State.schedule]

def eraseSectors (timing : Timing Session) (beginIndex endIndex : Nat) : List (Stmt (State Session)) :=
  [.execute (startErase beginIndex),
    (erasing endIndex (eraseSomeSectors f endIndex)).loop .asynchronous writeEnable (delayedHold timing),
    .execute State.schedule]

end FlashSpi

/-! ## `services::FlashQuadSpi` -/

namespace FlashQuadSpi

/-- `hal::QuadSpi::Header`, as the commands use it. -/
structure Header where
  instruction : UInt8
  address : List UInt8
  deriving DecidableEq

/-- A header and the data that are sent with it. -/
abbrev Transfer : Type := Header × List UInt8

/-- `hal::QuadSpi::AddressToVector` -/
def addressToVector (address : Nat) : Nat → List UInt8
  | 0 => []
  | n + 1 => UInt8.ofNat address :: addressToVector (address >>> 8) n

/-- `hal::QuadSpi::VectorToAddress` -/
def vectorToAddress (vector : List UInt8) : Nat :=
  vector.foldr (fun byte result => add32 (u32 (result <<< 8)) byte.toNat) 0

def convertAddress (address : Nat) : List UInt8 := addressToVector address 3

/-- The classes that are derived from it. -/
inductive Derived
  | micronN25q
  | cypressFll
  | singleSpeed

def Derived.commandPageProgram : Derived → UInt8
  | .micronN25q => 0x32
  | .cypressFll => 0x02
  | .singleSpeed => 0x02

def commandWriteEnable : UInt8 := 0x06

def writeEnable : Transfer := (⟨commandWriteEnable, []⟩, [])

variable (derived : Derived) (f : FlashHomogeneous)

def pageProgram : Members → Members × Transfer :=
  SerialFlash.pageProgram f fun address data => (⟨derived.commandPageProgram, convertAddress address⟩, data)

def writeBuffer (timing : Timing Transfer) (buffer : List UInt8) (address : Nat) : List (Stmt (State Transfer)) :=
  [.execute (startWrite buffer address),
    (writing (pageProgram derived f)).loop .asynchronous writeEnable [.step (State.pollStatus timing)],
    .execute State.schedule]

end FlashQuadSpi

/-! ## The loops come to an end -/

theorem FlashQuadSpi.vectorToAddress_convertAddress {address : Nat} (h : address < 2 ^ 24) :
    vectorToAddress (convertAddress address) = address := by
  simp only [convertAddress, addressToVector, vectorToAddress, List.foldr_cons, List.foldr_nil, add32, u32,
    Nat.shiftLeft_eq, Nat.shiftRight_eq_div_pow, UInt8.toNat_ofNat']
  omega

section Ends

variable {τ : Type} {size : Size} {m : Members}

theorem offset_eq {address : Nat} (h : address < size.numberOfSubSectors * sizeSubSector) :
    size.flash.addressOffsetInSector address % sizePage = address % sizePage := by
  have hsector : address / sizeSubSector < size.flash.numberOfSectors :=
    Nat.div_lt_of_lt_mul (by rwa [Nat.mul_comm] at h)
  have hoffset := FlashHomogeneous.addressOffsetInSector_eq hsector
    (Nat.mod_lt address size.flash.size_pos : address % sizeSubSector < size.flash.sizeOfEachSector)
  have haddress : address / sizeSubSector * size.flash.sizeOfEachSector + address % sizeSubSector = address :=
    Nat.div_add_mod' address sizeSubSector
  rw [haddress] at hoffset
  rw [hoffset]
  exact Nat.mod_mod_of_dvd address (by decide)

theorem currentBuffer_eq (h : m.address < size.numberOfSubSectors * sizeSubSector) :
    currentBuffer size.flash m = m.buffer.take (sizePage - m.address % sizePage) := by
  rw [currentBuffer, offset_eq h]

theorem length_currentBuffer (f : FlashHomogeneous) (m : Members) (h : m.buffer ≠ []) :
    0 < (currentBuffer f m).length ∧ (currentBuffer f m).length ≤ m.buffer.length := by
  have hpos := List.length_pos_iff.mpr h
  have hmod := Nat.mod_lt (f.addressOffsetInSector m.address) (show 0 < sizePage by decide)
  rw [currentBuffer, List.length_take]
  omega

/-- A turn of a write is inside of the device. -/
theorem address_pageProgram {programPage : Nat → List UInt8 → τ}
    (h : m.address + m.buffer.length ≤ size.numberOfSubSectors * sizeSubSector) :
    (pageProgram size.flash programPage m).1.address = m.address + (currentBuffer size.flash m).length := by
  have hle : (currentBuffer size.flash m).length ≤ m.buffer.length := List.length_take_le' _ _
  have hsize := size.le
  exact add32_of_lt (by omega)

/-- Every turn takes something of the buffer. -/
theorem write_sends {f : FlashHomogeneous} {turn : Members → Members × τ}
    (hturn : ∀ m, (turn m).1.buffer = m.buffer.drop (currentBuffer f m).length) :
    ∃ transfers, (writing turn).Sends m transfers := by
  induction hn : m.buffer.length using Nat.strong_induction_on generalizing m with
  | _ n ih =>
      by_cases hempty : m.buffer = []
      · exact ⟨[], .stop (by simp [writing, hempty])⟩
      · obtain ⟨hpos, hle⟩ := length_currentBuffer f m hempty
        have hlength := congrArg List.length (hturn m)
        rw [List.length_drop] at hlength
        obtain ⟨transfers, hrest⟩ := @ih (turn m).1.buffer.length (by omega) (turn m).1 rfl
        exact ⟨_, .turn (by simp [writing, hempty]) hrest⟩

theorem erase_sends {turn : Members → Members × τ} {endIndex : Nat}
    (hturn : ∀ m, m.sectorIndex < endIndex →
      m.sectorIndex < (turn m).1.sectorIndex ∧ (turn m).1.sectorIndex ≤ endIndex)
    (h : m.sectorIndex ≤ endIndex) : ∃ transfers, (erasing endIndex turn).Sends m transfers := by
  induction hn : endIndex - m.sectorIndex using Nat.strong_induction_on generalizing m with
  | _ n ih =>
      by_cases hend : m.sectorIndex = endIndex
      · exact ⟨[], .stop (by simp [erasing, hend])⟩
      · obtain ⟨hlt, hle⟩ := hturn m (by omega)
        obtain ⟨transfers, hrest⟩ := ih _ (by omega) hle rfl
        exact ⟨_, .turn (by simp [erasing, hend]) hrest⟩

/-- A turn of an erase does not go beyond its end. -/
theorem sectorIndex_eraseSomeSectors {bulk : τ} {sector subSector : Nat → τ} {endIndex : Nat}
    (hend : endIndex ≤ size.numberOfSubSectors) (h : m.sectorIndex < endIndex) :
    let turned := eraseSomeSectors size.flash bulk sector subSector endIndex m
    m.sectorIndex < turned.1.sectorIndex ∧ turned.1.sectorIndex ≤ endIndex := by
  have hsize := size.numberOfSubSectors_le
  have hsectors : size.flash.numberOfSectors = size.numberOfSubSectors := rfl
  have hcount : subSectorsPerSector = 16 := rfl
  have hadd : ∀ n ≤ 4096, add32 m.sectorIndex n = m.sectorIndex + n := fun n hn => add32_of_lt (by omega)
  dsimp only [eraseSomeSectors]
  rw [hsectors, hcount, hadd 16 (by decide), hadd 1 (by decide), hadd _ hsize]
  split
  next hbulk =>
      constructor
      · show m.sectorIndex < m.sectorIndex + size.numberOfSubSectors
        omega
      · show m.sectorIndex + size.numberOfSubSectors ≤ endIndex
        omega
  next =>
      split
      next hsector => exact ⟨Nat.lt_add_of_pos_right (by decide), hsector.2⟩
      next => exact ⟨Nat.lt_succ_self _, h⟩

end Ends

end EmbeddedInfra.SerialFlash
