import EmbeddedInfra.Hal.Flash
import EmbeddedInfra.Infra.SequencerRuns

set_option autoImplicit false

/-! # The cyclic store

`services::CyclicStore` appends records to a flash whose sectors it uses one after the other; when
all of them are in use, the oldest one is erased to make room. Every sector starts with a status
byte, followed by blocks: a header of three bytes (a status and the length) and the record.

`add`, `clear`, `recover` and `read` are the statements that `Add`, `Clear`, `Recover` and
`Iterator::Read` hand to the sequencer. A `Step` starts one flash operation and pauses until it is
done, so the pauses of a run are the points between two flash operations. The claimable resource
lets one operation run at a time; an operation is a complete run of its sequence.
-/

namespace EmbeddedInfra.CyclicStore

open NorMemory Sequencer

/-! ## The flash -/

/-- A flash of at least two sectors of equal size. `past m a` is what a read delivers for the
address `a` when it started in another sector, or outside of the flash. -/
structure Device extends FlashHomogeneous where
  two_le : 2 ≤ numberOfSectors
  past : Memory → Nat → UInt8

namespace Device

variable (D : Device)

/-- Byte number `i` of a `ReadBuffer` at `address`. -/
def fetch (m : Memory) (address i : Nat) : UInt8 :=
  if address < D.totalSize ∧ D.sectorOfAddress (address + i) = D.sectorOfAddress address then
    m (address + i)
  else D.past m (address + i)

def readBuffer (m : Memory) (address size : Nat) : List UInt8 :=
  (List.range size).map (D.fetch m address)

def eraseSector (m : Memory) (sectorIndex : Nat) : Memory :=
  erase m (D.addressOfSector sectorIndex) (D.sizeOfSector sectorIndex)

def eraseAll (m : Memory) : Memory := erase m 0 D.totalSize

end Device

/-! ## Status bytes and headers -/

namespace SectorStatus

def empty : UInt8 := 0xff
def used : UInt8 := 0xfe
def firstInCycle : UInt8 := 0xfc

end SectorStatus

namespace BlockStatus

def empty : UInt8 := 0xff
def emptyUntilEnd : UInt8 := 0x7f
def writingLength : UInt8 := 0xfe
def writingData : UInt8 := 0xfc
def dataReady : UInt8 := 0xf8

end BlockStatus

open BlockStatus

structure BlockHeader where
  status : UInt8 := BlockStatus.empty
  lengthLsb : UInt8 := 0
  lengthMsb : UInt8 := 0
deriving DecidableEq

def BlockHeader.blockLength (h : BlockHeader) : Nat := h.lengthLsb.toNat + h.lengthMsb.toNat * 256

/-- `SetBlockLength(static_cast<Length>(length))`, where `Length` is `uint16_t`. -/
def BlockHeader.setBlockLength (length : Nat) (h : BlockHeader) : BlockHeader :=
  { h with lengthLsb := UInt8.ofNat length, lengthMsb := UInt8.ofNat (length / 256) }

/-- `sizeof(BlockHeader)`. -/
def sizeofBlockHeader : Nat := 3

/-- `ReadBuffer` of a status byte. -/
def Device.readStatus (D : Device) (m : Memory) (address : Nat) : UInt8 := D.fetch m address 0

/-- `ReadBuffer` of a block header. -/
def Device.readHeader (D : Device) (m : Memory) (address : Nat) : BlockHeader :=
  ⟨D.fetch m address 0, D.fetch m address 1, D.fetch m address 2⟩

inductive RecoverPhase where
  | searchingStartOrEmpty
  | checkingAllUsed
  | checkingUsedFollowedByEmpty
  | checkingAllEmpty
  | checkingAllUsedOrAllEmpty
  | corrupt
  | done
deriving DecidableEq

/-! ## The state -/

structure Iterator where
  loadStartAddressDelayed : Bool := true
  address : Nat := 0
  sectorStatus : UInt8 := SectorStatus.used
  firstSectorToRead : Bool := true
  blockHeader : BlockHeader := {}
  readBuffer : List UInt8 := []
  found : Bool := false
  reachedEnd : Bool := false
deriving DecidableEq

/-- The store and its flash. `assertionFailed` records that an `assert` did not hold. -/
structure Store where
  flash : Memory
  startAddress : Nat := 0
  endAddress : Nat := 0
  sectorIndex : UInt32 := 0
  remainingPartialSize : Nat := 0
  partialSizeWritten : Nat := 0
  partialAddStarted : Bool := false
  sectorStatus : UInt8 := SectorStatus.empty
  blockHeader : BlockHeader := {}
  recoverPhase : RecoverPhase := .searchingStartOrEmpty
  iterators : List Iterator := []
  assertionFailed : Bool := false

section

variable (D : Device)

/-! ## Recover -/

/-- What `RecoverSector` does with the status it has read. -/
def classifySector (s : Store) : Store :=
  let address := D.addressOfSector s.sectorIndex.toNat
  if s.sectorStatus = SectorStatus.firstInCycle then
    if s.recoverPhase = .searchingStartOrEmpty then
      { s with startAddress := address, endAddress := address,
               recoverPhase := if s.sectorIndex = 0 then .checkingUsedFollowedByEmpty
                 else .checkingAllUsed }
    else { s with recoverPhase := .corrupt }
  else if s.sectorStatus = SectorStatus.used then
    match s.recoverPhase with
    | .checkingAllUsedOrAllEmpty => { s with recoverPhase := .checkingAllUsed }
    | .checkingUsedFollowedByEmpty | .searchingStartOrEmpty | .checkingAllUsed => s
    | _ => { s with recoverPhase := .corrupt }
  else if s.sectorStatus = SectorStatus.empty then
    match s.recoverPhase with
    | .searchingStartOrEmpty =>
        { s with startAddress := D.startOfNextSectorCyclical address, endAddress := address,
                 recoverPhase := .checkingAllUsedOrAllEmpty }
    | .checkingAllUsedOrAllEmpty =>
        { s with startAddress := 0, endAddress := 0, recoverPhase := .checkingAllEmpty }
    | .checkingUsedFollowedByEmpty =>
        { s with endAddress := address, recoverPhase := .checkingAllEmpty }
    | .checkingAllEmpty => s
    | _ => { s with recoverPhase := .corrupt }
  else { s with recoverPhase := .corrupt }

def recoverSector : List (Stmt Store) :=
  [.step (fun s =>
      { s with sectorStatus := D.readStatus s.flash (D.addressOfSector s.sectorIndex.toNat) }),
    .execute (classifySector D)]

/-- Reading the block header at `endAddress`. -/
def loadHeader (s : Store) : Store :=
  { s with blockHeader := D.readHeader s.flash s.endAddress }

/-- `endAddress = flash.StartOfNextSectorCyclical(endAddress)`. -/
def skipSector (s : Store) : Store :=
  { s with endAddress := D.startOfNextSectorCyclical s.endAddress }

/-- `endAddress += size`. -/
def advance (size : BlockHeader → Nat) (s : Store) : Store :=
  { s with endAddress := add32 s.endAddress (size s.blockHeader) }

/-- The condition on the status of the header that was read last. -/
def headerIs (status : UInt8) : Store → Bool × Store :=
  test (fun s => s.blockHeader.status == status)

/-- The body of the loop in `RecoverEndAddress`. -/
def recoverBlock : List (Stmt Store) :=
  [.ifBlock (headerIs dataReady)
    [.execute (advance (fun _ => sizeofBlockHeader)),
      .ifBlock (test (fun s =>
          add32 s.endAddress s.blockHeader.blockLength ≤ D.totalSize &&
          D.sectorOfAddress s.endAddress
            == D.sectorOfAddress (add32 s.endAddress s.blockHeader.blockLength)))
        [.step (fun s => loadHeader D (advance BlockHeader.blockLength s))]
        (.elseBlock [.execute (skipSector D)])]
    (.elseIf (headerIs writingLength)
      [.step (fun s => loadHeader D (advance (fun _ => sizeofBlockHeader) s))]
    (.elseIf (headerIs writingData)
      [.execute (advance (fun h => sizeofBlockHeader + h.blockLength)),
        .ifBlock (test (fun s => D.addressOffsetInSector s.endAddress
            ≤ D.sizeOfSector (D.sectorOfAddress s.endAddress)))
          [.step (loadHeader D)]
          (.elseBlock [.execute (skipSector D)])]
    (.elseIf (headerIs emptyUntilEnd)
      [.execute (skipSector D)]
    (.elseBlock [.execute (skipSector D)]))))]

/-- The condition of the loop in `RecoverEndAddress`. -/
def blocksLeft (s : Store) : Bool :=
  s.blockHeader.status != BlockStatus.empty && !D.atStartOfSector s.endAddress

def recoverEndAddress : List (Stmt Store) :=
  [.step (fun s => loadHeader D
      { s with endAddress := add32 (D.startOfPreviousSectorCyclical s.endAddress) 1 }),
    .whileLoop (test (blocksLeft D)) (recoverBlock D)]

def sectorIndexVariable : Variable Store where
  get := Store.sectorIndex
  set := fun i s => { s with sectorIndex := i }

def recover : List (Stmt Store) :=
  [.forEach sectorIndexVariable 0 (UInt32.ofNat D.numberOfSectors) (recoverSector D),
    .ifBlock (test (fun s => s.recoverPhase == .corrupt || s.recoverPhase == .searchingStartOrEmpty))
      [.step (fun s => { s with startAddress := 0, endAddress := 0, flash := D.eraseAll s.flash })]
    (.elseIf (test (fun s => s.endAddress != s.startAddress))
      (recoverEndAddress D)
    .endIf),
    .execute (fun s => { s with recoverPhase := .done })]

/-! ## Add -/

def Iterator.sectorIsErased (sectorIndex : Nat) (it : Iterator) : Iterator :=
  if D.sectorOfAddress it.address = sectorIndex then
    { it with address := D.startOfNextSectorCyclical it.address, firstSectorToRead := true }
  else it

def Store.writeBuffer (bytes : List UInt8) (address : Nat) (s : Store) : Store :=
  { s with flash := program s.flash address bytes }

/-- Reading the status of the sector after `endAddress`. -/
def readNextSectorStatus (s : Store) : Store :=
  { s with sectorStatus := D.readStatus s.flash (D.startOfNextSectorCyclical s.endAddress) }

def eraseSectorIfAtStart : List (Stmt Store) :=
  [.ifBlock (test (fun s => D.addressOffsetInSector s.endAddress == 0))
    [.step (fun s => { s with flash := D.eraseSector s.flash (D.sectorOfAddress s.endAddress) }),
      .step (readNextSectorStatus D),
      .ifBlock (test (fun s => s.sectorStatus == SectorStatus.used))
        [.step (fun s =>
          { s with
            iterators := s.iterators.map
              (Iterator.sectorIsErased D (D.sectorOfAddress s.startAddress)),
            sectorStatus := SectorStatus.firstInCycle,
            startAddress := D.startOfNextSectorCyclical s.endAddress
          }.writeBuffer [SectorStatus.firstInCycle] (D.startOfNextSectorCyclical s.endAddress))]
        .endIf]
    .endIf]

def fillSectorIfDataDoesNotFit (range : List UInt8) : List (Stmt Store) :=
  [.ifBlock (test (fun s => decide (D.sizeOfSector (D.sectorOfAddress s.endAddress)
      < D.addressOffsetInSector s.endAddress + sizeofBlockHeader
        + (range.length + s.remainingPartialSize))))
    [.step (fun s =>
      { s with
        blockHeader := { s.blockHeader with status := emptyUntilEnd },
        endAddress := D.startOfNextSectorCyclical s.endAddress
      }.writeBuffer [emptyUntilEnd] s.endAddress)]
    .endIf]

/-- `if (address == flash.TotalSize()) address = 0`. -/
def wrapAddress (address : Nat) : Nat := if address = D.totalSize then 0 else address

/-- The status that the sector at `endAddress` is given. -/
def newSectorStatus (s : Store) : UInt8 :=
  if s.endAddress = s.startAddress then SectorStatus.firstInCycle else SectorStatus.used

def writeSectorStatusIfAtStartOfSector : List (Stmt Store) :=
  [.ifBlock (test (fun s => D.atStartOfSector s.endAddress))
    [.step (readNextSectorStatus D),
      .ifBlock (test (fun s => s.sectorStatus == SectorStatus.used))
        [.step (fun s => { s with sectorStatus := SectorStatus.firstInCycle
          }.writeBuffer [SectorStatus.firstInCycle] (D.startOfNextSectorCyclical s.endAddress))]
        .endIf,
      .step (fun s =>
        { s with
          sectorStatus := newSectorStatus s,
          endAddress := wrapAddress D (add32 s.endAddress 1)
        }.writeBuffer [newSectorStatus s] s.endAddress)]
    .endIf]

def setStatus (status : UInt8) (s : Store) : Store :=
  { s with blockHeader := { s.blockHeader with status := status } }

def writeRange (range : List UInt8) : List (Stmt Store) :=
  [.ifBlock (test (fun s => !s.partialAddStarted))
    [.step (fun s => (setStatus writingLength
        { s with assertionFailed := s.assertionFailed || !decide (sizeofBlockHeader + range.length
            + s.remainingPartialSize + 1 ≤ D.sizeOfSector (D.sectorOfAddress s.endAddress))
        }).writeBuffer [writingLength] s.endAddress),
      .step (fun s =>
        let h := s.blockHeader.setBlockLength (range.length + s.remainingPartialSize)
        { s with blockHeader := h }.writeBuffer [h.lengthLsb, h.lengthMsb] (add32 s.endAddress 1)),
      .step (fun s => (setStatus writingData s).writeBuffer [writingData]
        (add32 s.endAddress s.partialSizeWritten))]
    .endIf,
    .step (fun s =>
      { s with partialSizeWritten := add32 s.partialSizeWritten range.length
      }.writeBuffer range (add32 (add32 s.endAddress s.partialSizeWritten) 3)),
    .step (fun s =>
      if s.remainingPartialSize = 0 then
        { setStatus dataReady s with
          endAddress := wrapAddress D (add32 s.endAddress (add32 s.partialSizeWritten 3)),
          partialSizeWritten := 0,
          partialAddStarted := false
        }.writeBuffer [dataReady] s.endAddress
      else { s with partialAddStarted := true })]

/-- The sequence that `Add` loads. -/
def add (range : List UInt8) : List (Stmt Store) :=
  .ifBlock (test (fun s => !s.partialAddStarted))
    (fillSectorIfDataDoesNotFit D range ++ (eraseSectorIfAtStart D
      ++ writeSectorStatusIfAtStartOfSector D)) .endIf
  :: writeRange D range

/-- What `Add` does before it claims the resource. -/
def prepareAdd (range : List UInt8) (s : Store) : Store :=
  { s with assertionFailed := s.assertionFailed || range.isEmpty,
           remainingPartialSize := if s.partialAddStarted then
             sub32 s.remainingPartialSize range.length else s.remainingPartialSize }

/-- What `AddPartial` does before it claims the resource. -/
def prepareAddPartial (range : List UInt8) (totalSize : Nat) (s : Store) : Store :=
  prepareAdd range (if s.partialAddStarted then s
    else { s with remainingPartialSize := sub32 totalSize range.length })

/-! ## Clear -/

/-- The sequence that `Clear` loads, and what it does before. -/
def clear : List (Stmt Store) :=
  [.execute (fun s => { s with startAddress := 0, endAddress := 0 }),
    .step (fun s => { s with flash := D.eraseAll s.flash })]

/-! ## Reading -/

/-- An iterator that reads, and its store. -/
structure Reader where
  store : Store
  iterator : Iterator

/-- A change of the iterator. -/
def onIterator (f : Store → Iterator → Iterator) (r : Reader) : Reader :=
  { r with iterator := f r.store r.iterator }

/-- A condition on the iterator. -/
def asks (p : Iterator → Bool) : Reader → Bool × Reader := test (fun r => p r.iterator)

/-- What `ReadSectorStatusIfAtStart` does with the status it has read. -/
def enterSector (it : Iterator) : Iterator :=
  { it with
    address := if it.sectorStatus ≠ SectorStatus.empty then add32 it.address 1 else it.address,
    sectorStatus := if it.sectorStatus = SectorStatus.firstInCycle then
      (if it.firstSectorToRead then SectorStatus.used else SectorStatus.empty) else it.sectorStatus,
    firstSectorToRead := false }

def readSectorStatusIfAtStart : List (Stmt Reader) :=
  [.ifBlock (asks (fun it => D.atStartOfSector it.address))
    [.step (onIterator (fun s it => { it with sectorStatus := D.readStatus s.flash it.address })),
      .execute (onIterator (fun _ => enterSector))]
    .endIf]

/-- Reading a block header, and moving behind it. -/
def takeHeader (s : Store) (it : Iterator) : Iterator :=
  { it with
    blockHeader := D.readHeader s.flash it.address,
    address := if D.sectorOfAddress (add32 it.address sizeofBlockHeader)
        = D.sectorOfAddress it.address then add32 it.address sizeofBlockHeader
      else D.startOfNextSectorCyclical it.address }

/-- Reading the record behind the header. -/
def takeRecord (s : Store) (it : Iterator) : Iterator :=
  { it with
    readBuffer := D.readBuffer s.flash it.address
      (min it.readBuffer.length it.blockHeader.blockLength),
    address := wrapAddress D (add32 it.address it.blockHeader.blockLength),
    found := true }

/-- `address = store.flash.StartOfNextSectorCyclical(address)`. -/
def leaveSector (it : Iterator) : Iterator :=
  { it with address := D.startOfNextSectorCyclical it.address }

/-- The end of the data: back to the place where the next header will be. -/
def reachEnd (it : Iterator) : Iterator :=
  { it with reachedEnd := true, address := sub32 it.address sizeofBlockHeader }

def readBlock : List (Stmt Reader) :=
  [.step (onIterator (takeHeader D)),
    .ifBlock (asks (fun it => it.blockHeader.status == dataReady))
      [.ifBlock (asks (fun it => add32 (D.addressOffsetInSector it.address) it.blockHeader.blockLength
          ≤ D.sizeOfSector (D.sectorOfAddress it.address)))
        [.step (onIterator (takeRecord D))]
        (.elseBlock [.execute (onIterator (fun _ => leaveSector D))])]
    (.elseIf (asks (fun it => it.blockHeader.status == emptyUntilEnd))
      [.execute (onIterator (fun _ it =>
        if D.atStartOfSector it.address then it else leaveSector D it))]
    (.elseIf (asks (fun it => it.blockHeader.status == BlockStatus.empty))
      [.execute (onIterator (fun _ => reachEnd))]
    (.elseIf (asks (fun it => it.blockHeader.status == writingLength))
      []
    (.elseIf (asks (fun it => it.blockHeader.status == writingData))
      [.execute (onIterator (fun _ it =>
        { it with address := add32 it.address it.blockHeader.blockLength }))]
    (.elseBlock [.execute (onIterator (fun _ => leaveSector D))])))))]
  ++ readSectorStatusIfAtStart D

/-- The condition of the loop in `Read`. -/
def readsOn (it : Iterator) : Bool :=
  it.sectorStatus == SectorStatus.used && !it.found && !it.reachedEnd

/-- The sequence that `Read` loads. -/
def read : List (Stmt Reader) :=
  readSectorStatusIfAtStart D
  ++ [.whileLoop (asks readsOn) (readBlock D),
    .execute (onIterator (fun _ it => if it.found then it else { it with readBuffer := [] }))]

/-- What `Read` does before it loads the sequence. -/
def prepareRead (s : Store) (buffer : List UInt8) (it : Iterator) : Iterator :=
  { it with
    readBuffer := buffer,
    found := false,
    reachedEnd := false,
    loadStartAddressDelayed := false,
    address := if it.loadStartAddressDelayed then s.startAddress else it.address }

end

/-! ## Operations -/

section

variable (D : Device)

/-- A new store on given flash contents; its constructor calls `Recover`. -/
def Constructs (flash : Memory) (pauses : List Store) (t : Store) : Prop :=
  Runs (recover D) { flash := flash } pauses t

/-- `Add`, from its call to its completion. -/
def Adds (range : List UInt8) (s : Store) (pauses : List Store) (t : Store) : Prop :=
  Runs (add D range) (prepareAdd range s) pauses t

/-- `AddPartial`, from its call to its completion. -/
def AddsPartial (range : List UInt8) (totalSize : Nat) (s : Store) (pauses : List Store)
    (t : Store) : Prop :=
  Runs (add D range) (prepareAddPartial range totalSize s) pauses t

/-- `Clear`, from its call to its completion. -/
def Clears (s : Store) (pauses : List Store) (t : Store) : Prop :=
  Runs (clear D) s pauses t

/-- `Read`, from its call to its completion: the result, and the iterator afterwards. -/
def Reads (s : Store) (buffer : List UInt8) (it : Iterator) (result : List UInt8)
    (it' : Iterator) : Prop :=
  ∃ pauses, Runs (read D) ⟨s, prepareRead s buffer it⟩ pauses ⟨s, it'⟩ ∧ it'.readBuffer = result

end

end EmbeddedInfra.CyclicStore
