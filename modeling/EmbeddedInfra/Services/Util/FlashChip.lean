import EmbeddedInfra.Services.Util.FlashSpi

set_option autoImplicit false

/-! # The contents of a serial flash

A serial flash executes the commands of its driver: a page program stays in its page, whatever the length of the data,
and an erase clears the unit that its address lies in. The drivers of an SPI flash and of two kinds of QuadSPI flash
program and erase with these commands what they are asked to.
-/

namespace EmbeddedInfra.SerialFlash

open Sequencer NorMemory

/-! ## The drivers of two kinds of QuadSPI flash -/

namespace FlashQuadSpiMicronN25q

open FlashQuadSpi

def commandEraseSubSector : UInt8 := 0x20
def commandEraseSector : UInt8 := 0xd8
def commandEraseBulk : UInt8 := 0xc7

variable (f : FlashHomogeneous)

def sendEraseSubSector (subSectorIndex : Nat) : Transfer :=
  (⟨commandEraseSubSector, convertAddress (f.addressOfSector subSectorIndex)⟩, [])

def sendEraseSector (subSectorIndex : Nat) : Transfer :=
  (⟨commandEraseSector, convertAddress (f.addressOfSector subSectorIndex)⟩, [])

def sendEraseBulk : Transfer := (⟨commandEraseBulk, []⟩, [])

def eraseSomeSectors (endIndex : Nat) : Members → Members × Transfer :=
  SerialFlash.eraseSomeSectors f sendEraseBulk (sendEraseSector f) (sendEraseSubSector f) endIndex

def eraseSectors (timing : Timing Transfer) (beginIndex endIndex : Nat) : List (Stmt (State Transfer)) :=
  [.execute (startErase beginIndex),
    (erasing endIndex (eraseSomeSectors f endIndex)).loop .asynchronous writeEnable [.step (State.pollStatus timing)],
    .execute State.schedule]

end FlashQuadSpiMicronN25q

namespace FlashQuadSpiCypressFll

open FlashQuadSpi

def commandEraseSector : UInt8 := 0x20
def commandEraseHalfBlock : UInt8 := 0x52
def commandEraseBlock : UInt8 := 0xd8
def commandEraseChip : UInt8 := 0x60

/-- `sizeHalfBlock / sizeSector` -/
def sectorsPerHalfBlock : Nat := 32768 / sizeSubSector

/-- `sizeBlock / sizeSector` -/
def sectorsPerBlock : Nat := 65536 / sizeSubSector

variable (f : FlashHomogeneous)

def sendEraseSector (sectorIndex : Nat) : Transfer :=
  (⟨commandEraseSector, convertAddress (f.addressOfSector sectorIndex)⟩, [])

def sendEraseHalfBlock (sectorIndex : Nat) : Transfer :=
  (⟨commandEraseHalfBlock, convertAddress (f.addressOfSector sectorIndex)⟩, [])

def sendEraseBlock (sectorIndex : Nat) : Transfer :=
  (⟨commandEraseBlock, convertAddress (f.addressOfSector sectorIndex)⟩, [])

def sendEraseChip : Transfer := (⟨commandEraseChip, []⟩, [])

/-- It has half blocks besides what the others have. -/
def eraseSomeSectors (endIndex : Nat) (m : Members) : Members × Transfer :=
  if m.sectorIndex = 0 ∧ endIndex = f.numberOfSectors then
    ({ m with sectorIndex := add32 m.sectorIndex f.numberOfSectors }, sendEraseChip)
  else if m.sectorIndex % sectorsPerBlock = 0 ∧ add32 m.sectorIndex sectorsPerBlock ≤ endIndex then
    ({ m with sectorIndex := add32 m.sectorIndex sectorsPerBlock }, sendEraseBlock f m.sectorIndex)
  else if m.sectorIndex % sectorsPerHalfBlock = 0 ∧ add32 m.sectorIndex sectorsPerHalfBlock ≤ endIndex then
    ({ m with sectorIndex := add32 m.sectorIndex sectorsPerHalfBlock }, sendEraseHalfBlock f m.sectorIndex)
  else
    ({ m with sectorIndex := add32 m.sectorIndex 1 }, sendEraseSector f m.sectorIndex)

def eraseSectors (timing : Timing Transfer) (beginIndex endIndex : Nat) : List (Stmt (State Transfer)) :=
  [.execute (startErase beginIndex),
    (erasing endIndex (eraseSomeSectors f endIndex)).loop .asynchronous writeEnable [.step (State.pollStatus timing)],
    .execute State.schedule]

end FlashQuadSpiCypressFll

/-! ## The flash -/

inductive Command
  | writeEnable
  | pageProgram (address : Nat) (data : List UInt8)
  | eraseUnit (address size : Nat)
  | eraseAll

structure Chip where
  memory : Memory
  writeEnabled : Bool
  busy : Bool

/-- The data of a page program: behind the last byte of the page comes the first one. -/
def programPage (page : Nat) : Nat → Memory → List UInt8 → Memory
  | _, memory, [] => memory
  | offset, memory, byte :: data =>
      programPage page ((offset + 1) % sizePage) (program memory (page + offset) [byte]) data

/-- What a command does to the contents of a flash of this size. -/
def Command.effect (totalSize : Nat) : Command → Memory → Memory
  | .writeEnable, memory => memory
  | .pageProgram address data, memory => programPage (address / sizePage * sizePage) (address % sizePage) memory data
  | .eraseUnit address size, memory => erase memory (address / size * size) size
  | .eraseAll, memory => erase memory 0 totalSize

/-- A command is executed once writing has been enabled for it. -/
def Chip.execute (totalSize : Nat) (chip : Chip) : Command → Chip
  | .writeEnable => { chip with writeEnabled := true }
  | command =>
      if chip.writeEnabled then ⟨command.effect totalSize chip.memory, false, true⟩
      else chip

section Accesses

variable {τ : Type} (decode : τ → Option Command) (totalSize : Nat)

/-- As long as it is busy, the flash ignores commands. -/
def Chip.access (chip : Chip) : Access τ → Chip
  | .send transfer =>
      match decode transfer with
      | some command => if chip.busy then chip else chip.execute totalSize command
      | none => chip
  | .readStatus reply => { chip with busy := chip.busy && writeInProgress reply }

def Chip.run (chip : Chip) (log : List (Access τ)) : Chip := log.foldl (Chip.access decode totalSize) chip

/-- The function ends with the scheduling of `onDone`; it has been scheduled at no pause before, the flash is not busy
then, and its contents are what they shall be. -/
def Performs (p : List (Stmt (State τ))) (effect : Memory → Memory) : Prop :=
  ∀ (s : State τ) (chip : Chip), chip.busy = false → ∃ (t : State τ) (log : List (Access τ)),
    EndsIn (fun x => x.scheduled = s.scheduled) p s t.schedule ∧ t.scheduled = s.scheduled ∧ t.log = s.log ++ log ∧
      (chip.run decode totalSize log).memory = effect chip.memory ∧ (chip.run decode totalSize log).busy = false

/-- Writing programs the bytes one by one, and erasing erases the sectors one by one. -/
def Correct (size : Size) (write erase : Timing τ → List (Stmt (State τ))) (buffer : List UInt8)
    (address beginIndex endIndex : Nat) : Prop :=
  ∀ timing, Performs decode size.flash.totalSize (write timing) (fun memory => programBytes memory address buffer) ∧
    Performs decode size.flash.totalSize (erase timing)
      (fun memory => eraseUnits sizeSubSector memory beginIndex (endIndex - beginIndex))

end Accesses

def FlashSpi.decode : FlashSpi.Session → Option Command
  | [instruction] =>
      if instruction = 0x06 then some .writeEnable
      else if instruction = 0xc7 then some .eraseAll
      else none
  | instruction :: high :: middle :: low :: data =>
      let address := high.toNat * 65536 + middle.toNat * 256 + low.toNat
      if instruction = 0x02 then some (.pageProgram address data)
      else if instruction = 0x20 then some (.eraseUnit address 4096)
      else if instruction = 0xd8 then some (.eraseUnit address 65536)
      else none
  | _ => none

def FlashQuadSpiMicronN25q.decode (transfer : FlashQuadSpi.Transfer) : Option Command :=
  let address := FlashQuadSpi.vectorToAddress transfer.1.address
  if transfer.1.instruction = 0x06 then some .writeEnable
  else if transfer.1.instruction = 0x32 then some (.pageProgram address transfer.2)
  else if transfer.1.instruction = 0x20 then some (.eraseUnit address 4096)
  else if transfer.1.instruction = 0xd8 then some (.eraseUnit address 65536)
  else if transfer.1.instruction = 0xc7 then some .eraseAll
  else none

def FlashQuadSpiCypressFll.decode (transfer : FlashQuadSpi.Transfer) : Option Command :=
  let address := FlashQuadSpi.vectorToAddress transfer.1.address
  if transfer.1.instruction = 0x06 then some .writeEnable
  else if transfer.1.instruction = 0x02 then some (.pageProgram address transfer.2)
  else if transfer.1.instruction = 0x20 then some (.eraseUnit address 4096)
  else if transfer.1.instruction = 0x52 then some (.eraseUnit address 32768)
  else if transfer.1.instruction = 0xd8 then some (.eraseUnit address 65536)
  else if transfer.1.instruction = 0x60 then some .eraseAll
  else none

/-! ## What the flash executes -/

section Runs

variable {τ : Type} {decode : τ → Option Command} {totalSize : Nat} {writeEnable : τ} {transfers : List τ}
  {log : List (Access τ)} {chip : Chip} {replies : List UInt8}

/-- What a command on the bus does to the contents. -/
def effectOf (decode : τ → Option Command) (totalSize : Nat) (memory : Memory) (transfer : τ) : Memory :=
  match decode transfer with
  | some command => command.effect totalSize memory
  | none => memory

/-- Reading the status changes nothing but whether the flash is busy. -/
theorem run_replies (chip : Chip) (replies : List UInt8) : chip.run decode totalSize (replies.map .readStatus)
    = { chip with busy := chip.busy && replies.all writeInProgress } := by
  induction replies generalizing chip with
  | nil => simp [Chip.run]
  | cons reply replies ih =>
      calc chip.run decode totalSize ((reply :: replies).map .readStatus)
        _ = (chip.access decode totalSize (.readStatus reply)).run decode totalSize (replies.map .readStatus) := rfl
        _ = _ := by rw [ih, List.all_cons, ← Bool.and_assoc]; rfl

/-- Behind a command that has been waited for. -/
theorem run_waited (hwait : Waited replies) (chip : Chip) :
    chip.run decode totalSize (replies.map .readStatus) = { chip with busy := false } := by
  obtain ⟨busy, last, rfl, hlast⟩ := hwait
  rw [run_replies, List.all_append]
  simp [hlast]

/-- **The flash executes every command**: each has been enabled, and the one before has been waited for. -/
theorem Performed.run (h : Performed writeEnable transfers log) (henable : decode writeEnable = some .writeEnable)
    (hcommands : ∀ transfer ∈ transfers, ∃ command, decode transfer = some command ∧ command ≠ .writeEnable)
    (hbusy : chip.busy = false) :
    (chip.run decode totalSize log).memory = transfers.foldl (effectOf decode totalSize) chip.memory ∧
      (chip.run decode totalSize log).busy = false := by
  induction h generalizing chip with
  | nil => exact ⟨rfl, hbusy⟩
  | @cons transfer transfers replies log hwait hrest ih =>
      obtain ⟨command, hcommand, hne⟩ := hcommands transfer List.mem_cons_self
      have hfirst : chip.run decode totalSize [.send writeEnable, .send transfer]
          = ⟨effectOf decode totalSize chip.memory transfer, false, true⟩ := by
        cases command with
        | writeEnable => exact absurd rfl hne
        | _ => simp [Chip.run, Chip.access, Chip.execute, effectOf, henable, hcommand, hbusy]
      have hsplit : chip.run decode totalSize ([.send writeEnable, .send transfer] ++ replies.map .readStatus ++ log)
          = (⟨effectOf decode totalSize chip.memory transfer, false, false⟩ : Chip).run decode totalSize log := by
        rw [Chip.run, List.foldl_append, List.foldl_append]
        exact congrArg (fun chip => Chip.run decode totalSize chip log)
          ((congrArg (fun chip => Chip.run decode totalSize chip (replies.map .readStatus)) hfirst).trans
            (run_waited hwait _))
      rw [hsplit]
      exact ih (fun transfer h => hcommands transfer (List.mem_cons_of_mem _ h)) rfl

variable {job : Job τ} {m : Members} {P : Members → Prop} {effect : Members → Memory → Memory}

/-- What the commands of a loop do together, from what each of its turns does. -/
theorem Job.Sends.executes (h : job.Sends m transfers) (hm : P m)
    (hstop : ∀ m, P m → job.more m = false → ∀ memory, effect m memory = memory)
    (hturn : ∀ m, P m → job.more m = true → P (job.turn m).1 ∧ ∃ command, decode (job.turn m).2 = some command ∧
      command ≠ .writeEnable ∧ ∀ memory, effect (job.turn m).1 (command.effect totalSize memory) = effect m memory)
    (memory : Memory) :
    (∀ transfer ∈ transfers, ∃ command, decode transfer = some command ∧ command ≠ .writeEnable) ∧
      transfers.foldl (effectOf decode totalSize) memory = effect m memory := by
  induction h generalizing memory with
  | stop hdone => exact ⟨by simp, (hstop _ hm hdone memory).symm⟩
  | @turn m transfers hmore hrest ih =>
      obtain ⟨hnext, command, hcommand, hne, heffect⟩ := hturn m hm hmore
      obtain ⟨hcommands, hfold⟩ := ih hnext (command.effect totalSize memory)
      constructor
      · intro transfer htransfer
        rcases List.mem_cons.mp htransfer with rfl | hmem
        · exact ⟨command, hcommand, hne⟩
        · exact hcommands transfer hmem
      · have hfirst : effectOf decode totalSize memory (job.turn m).2 = command.effect totalSize memory := by
          rw [effectOf, hcommand]
        rw [List.foldl_cons, hfirst, hfold, heffect]

variable (P effect) in
/-- A function of a driver does what its loop does. -/
theorem performs_loop {start : State τ → State τ} {hold : List (Stmt (State τ))} {whole : Memory → Memory}
    (hstart : ∀ s, (start s).log = s.log ∧ (start s).scheduled = s.scheduled)
    (hwhole : ∀ s memory, effect (start s).members memory = whole memory) (hP : ∀ s, P (start s).members)
    (hsends : ∀ m, P m → ∃ transfers, job.Sends m transfers) (hhold : Holds hold)
    (henable : decode writeEnable = some .writeEnable)
    (hstop : ∀ m, P m → job.more m = false → ∀ memory, effect m memory = memory)
    (hturn : ∀ m, P m → job.more m = true → P (job.turn m).1 ∧ ∃ command, decode (job.turn m).2 = some command ∧
      command ≠ .writeEnable ∧ ∀ memory, effect (job.turn m).1 (command.effect totalSize memory) = effect m memory) :
    Performs decode totalSize
      [.execute start, job.loop .asynchronous writeEnable hold, .execute State.schedule] whole := by
  intro s chip hbusy
  obtain ⟨transfers, hsent⟩ := hsends _ (hP s)
  obtain ⟨t, log, hends, hscheduled, hlog, hperformed⟩ :=
    @Job.Sends.ends _ _ .asynchronous writeEnable _ _ _ _ hsent hhold rfl
  obtain ⟨hcommands, hfold⟩ := hsent.executes (hP s) hstop hturn chip.memory
  obtain ⟨hmemory, hready⟩ := hperformed.run henable hcommands hbusy
  refine ⟨t, log, ?_, ?_, ?_, ?_, hready⟩
  · rw [(hstart s).2] at hends
    exact EndsIn.execute (EndsIn.append hends (EndsIn.execute (EndsIn.nil _)))
  · rw [hscheduled, (hstart s).2]
  · rw [hlog, (hstart s).1]
  · rw [hmemory, hfold, hwhole]

end Runs

/-! ## Writing -/

section Writing

variable {τ : Type} {size : Size} {decode : τ → Option Command} {totalSize : Nat} {m : Members}

/-- A page program that ends in its page. -/
theorem programPage_eq {page offset : Nat} {data : List UInt8} (h : offset + data.length ≤ sizePage) (memory : Memory) :
    programPage page offset memory data = program memory (page + offset) data := by
  induction data generalizing offset memory with
  | nil => exact (program_nil memory _).symm
  | cons byte data ih =>
      rw [List.length_cons] at h
      by_cases hlast : data = []
      · subst hlast
        rfl
      · have hpos := List.length_pos_iff.mpr hlast
        calc programPage page offset memory (byte :: data)
          _ = programPage page (offset + 1) (program memory (page + offset) [byte]) data := by
            rw [programPage, Nat.mod_eq_of_lt (by omega)]
          _ = program (program memory (page + offset) [byte]) (page + offset + [byte].length) data := ih (by omega) _
          _ = program memory (page + offset) (byte :: data) := program_append memory _ [byte] data

/-- What is left of a write is what has been asked for without what has been programmed. -/
theorem turn_writes {command : Nat → List UInt8 → τ}
    (hdecode : ∀ address < 2 ^ 24, ∀ data, decode (command address data) = some (.pageProgram address data))
    (hfit : m.address + m.buffer.length ≤ size.numberOfSubSectors * sizeSubSector) (hne : m.buffer ≠ []) :
    let turned := pageProgram size.flash command m
    turned.1.address + turned.1.buffer.length ≤ size.numberOfSubSectors * sizeSubSector ∧
      ∃ sent, decode turned.2 = some sent ∧ sent ≠ .writeEnable ∧ ∀ memory,
        program (sent.effect totalSize memory) turned.1.address turned.1.buffer = program memory m.address m.buffer := by
  have hpos := List.length_pos_iff.mpr hne
  have hsize := size.le
  have hlt : m.address < size.numberOfSubSectors * sizeSubSector := by omega
  have haddress := @address_pageProgram _ _ _ command hfit
  have hmod := Nat.mod_lt m.address (show 0 < sizePage by decide)
  have hpage : m.address / sizePage * sizePage + m.address % sizePage = m.address := Nat.div_add_mod' _ _
  have hcut : currentBuffer size.flash m ++ m.buffer.drop (currentBuffer size.flash m).length = m.buffer :=
    List.prefix_iff_eq_append.mp (List.take_prefix _ _)
  have hpiece : (currentBuffer size.flash m).length ≤ sizePage - m.address % sizePage := by
    rw [currentBuffer_eq hlt]
    exact List.length_take_le _ _
  refine ⟨?_, .pageProgram m.address (currentBuffer size.flash m), hdecode _ (by omega) _, nofun, ?_⟩
  · have hlength := congrArg List.length hcut
    rw [List.length_append] at hlength
    show (pageProgram size.flash command m).1.address + (m.buffer.drop (currentBuffer size.flash m).length).length ≤ _
    rw [haddress]
    omega
  · intro memory
    show program (programPage _ _ memory _) (pageProgram size.flash command m).1.address
      (m.buffer.drop (currentBuffer size.flash m).length) = _
    rw [haddress, programPage_eq (by omega), hpage, program_append, hcut]

end Writing

/-! ## Erasing -/

section Erasing

variable {τ : Type} {size : Size} {decode : τ → Option Command} {totalSize endIndex : Nat} {m : Members}

/-- A turn of an erase clears the sectors that it goes over. -/
def Erases (decode : τ → Option Command) (totalSize endIndex : Nat) (turn : Members → Members × τ) : Prop :=
  ∀ m, m.sectorIndex < endIndex → ∃ n command, (turn m).1.sectorIndex = m.sectorIndex + n ∧ 0 < n ∧
    m.sectorIndex + n ≤ endIndex ∧ decode (turn m).2 = some command ∧ command ≠ .writeEnable ∧
      ∀ memory, command.effect totalSize memory = erase memory (m.sectorIndex * sizeSubSector) (n * sizeSubSector)

/-- A unit of so many sectors at a sector that is aligned. -/
theorem effect_eraseUnit {i n : Nat} (haligned : i % n = 0) (memory : Memory) :
    (Command.eraseUnit (i * sizeSubSector) (n * sizeSubSector)).effect totalSize memory
      = erase memory (i * sizeSubSector) (n * sizeSubSector) := by
  have hstart : i * sizeSubSector / (n * sizeSubSector) * (n * sizeSubSector) = i * sizeSubSector := by
    rw [Nat.mul_div_mul_right _ _ (by decide : 0 < sizeSubSector), ← Nat.mul_assoc,
      Nat.div_mul_cancel (Nat.dvd_of_mod_eq_zero haligned)]
  rw [Command.effect, hstart]

/-- What is left of an erase is what has been asked for without what has been erased. -/
theorem turn_erases {turn : Members → Members × τ} (hturn : Erases decode totalSize endIndex turn)
    (hlt : m.sectorIndex < endIndex) :
    (turn m).1.sectorIndex ≤ endIndex ∧ ∃ sent, decode (turn m).2 = some sent ∧ sent ≠ .writeEnable ∧ ∀ memory,
      erase (sent.effect totalSize memory) ((turn m).1.sectorIndex * sizeSubSector)
          ((endIndex - (turn m).1.sectorIndex) * sizeSubSector)
        = erase memory (m.sectorIndex * sizeSubSector) ((endIndex - m.sectorIndex) * sizeSubSector) := by
  obtain ⟨n, command, hindex, hpos, hend, hcommand, hne, heffect⟩ := hturn m hlt
  refine ⟨by omega, command, hcommand, hne, fun memory => ?_⟩
  rw [heffect, hindex, Nat.add_mul, erase_append, ← Nat.add_mul]
  congr 2
  omega

theorem addressOfSector_eq {i : Nat} (h : i < size.numberOfSubSectors) :
    size.flash.addressOfSector i = i * sizeSubSector ∧ i * sizeSubSector < 2 ^ 24 := by
  have hsize := size.numberOfSubSectors_le
  constructor
  · exact FlashHomogeneous.addressOfSector_eq (f := size.flash) (Nat.le_of_lt h)
  · show i * 4096 < 2 ^ 24
    omega

/-- `EraseSomeSectors` of two of the drivers. -/
theorem erases_eraseSomeSectors {bulk : τ} {sector subSector : Nat → τ} (hend : endIndex ≤ size.numberOfSubSectors)
    (hbulk : decode bulk = some .eraseAll)
    (hsector : ∀ i < size.numberOfSubSectors, decode (sector i) = some (.eraseUnit (i * sizeSubSector) 65536))
    (hsubSector : ∀ i < size.numberOfSubSectors, decode (subSector i) = some (.eraseUnit (i * sizeSubSector) 4096)) :
    Erases decode (size.numberOfSubSectors * sizeSubSector) endIndex
      (eraseSomeSectors size.flash bulk sector subSector endIndex) := by
  intro m hlt
  have hsize := size.numberOfSubSectors_le
  have hsectors : size.flash.numberOfSectors = size.numberOfSubSectors := rfl
  have hcount : subSectorsPerSector = 16 := rfl
  have hadd : ∀ n ≤ 4096, add32 m.sectorIndex n = m.sectorIndex + n := fun n hn => add32_of_lt (by omega)
  dsimp only [eraseSomeSectors]
  rw [hsectors, hcount, hadd 16 (by decide), hadd 1 (by decide), hadd _ hsize]
  split
  next hall =>
      refine ⟨size.numberOfSubSectors, .eraseAll, rfl, size.pos, by omega, hbulk, nofun, fun memory => ?_⟩
      rw [hall.1, Nat.zero_mul]
      rfl
  next =>
      split
      next hunit =>
          exact ⟨16, _, rfl, by decide, hunit.2, hsector _ (by omega), nofun, effect_eraseUnit hunit.1⟩
      next =>
          exact ⟨1, _, rfl, by decide, hlt, hsubSector _ (by omega), nofun,
            effect_eraseUnit (Nat.mod_one _)⟩

/-- `EraseSomeSectors` with half blocks. -/
theorem erases_cypressFll (hend : endIndex ≤ size.numberOfSubSectors) :
    Erases FlashQuadSpiCypressFll.decode (size.numberOfSubSectors * sizeSubSector) endIndex
      (FlashQuadSpiCypressFll.eraseSomeSectors size.flash endIndex) := by
  intro m hlt
  have hsize := size.numberOfSubSectors_le
  have hsectors : size.flash.numberOfSectors = size.numberOfSubSectors := rfl
  have hcount : FlashQuadSpiCypressFll.sectorsPerBlock = 16 := rfl
  have hhalf : FlashQuadSpiCypressFll.sectorsPerHalfBlock = 8 := rfl
  have hadd : ∀ n ≤ 4096, add32 m.sectorIndex n = m.sectorIndex + n := fun n hn => add32_of_lt (by omega)
  obtain ⟨haddress, hinside⟩ := addressOfSector_eq (show m.sectorIndex < size.numberOfSubSectors by omega)
  have hvector := FlashQuadSpi.vectorToAddress_convertAddress hinside
  dsimp only [FlashQuadSpiCypressFll.eraseSomeSectors]
  rw [hsectors, hcount, hhalf, hadd 16 (by decide), hadd 8 (by decide), hadd 1 (by decide), hadd _ hsize]
  split
  next hall =>
      refine ⟨size.numberOfSubSectors, .eraseAll, rfl, size.pos, by omega, rfl, nofun, fun memory => ?_⟩
      rw [hall.1, Nat.zero_mul]
      rfl
  next =>
      split
      next hunit =>
          refine ⟨16, .eraseUnit (m.sectorIndex * sizeSubSector) 65536, rfl, by decide, hunit.2, ?_, nofun,
            effect_eraseUnit hunit.1⟩
          rw [FlashQuadSpiCypressFll.sendEraseBlock, haddress]
          simp [FlashQuadSpiCypressFll.decode, FlashQuadSpiCypressFll.commandEraseBlock, hvector]
      next =>
          split
          next hunit =>
              refine ⟨8, .eraseUnit (m.sectorIndex * sizeSubSector) 32768, rfl, by decide, hunit.2, ?_, nofun,
                effect_eraseUnit hunit.1⟩
              rw [FlashQuadSpiCypressFll.sendEraseHalfBlock, haddress]
              simp [FlashQuadSpiCypressFll.decode, FlashQuadSpiCypressFll.commandEraseHalfBlock, hvector]
          next =>
              refine ⟨1, .eraseUnit (m.sectorIndex * sizeSubSector) 4096, rfl, by decide, hlt, ?_, nofun,
                effect_eraseUnit (Nat.mod_one _)⟩
              rw [FlashQuadSpiCypressFll.sendEraseSector, haddress]
              simp [FlashQuadSpiCypressFll.decode, FlashQuadSpiCypressFll.commandEraseSector, hvector]

end Erasing

/-! ## The commands as the flash reads them -/

section Decoding

variable {size : Size} {address endIndex : Nat} {data : List UInt8}

/-- The three bytes of an address. -/
theorem FlashSpi.decode_address (h : address < 2 ^ 24) : (UInt8.ofNat (address >>> 16)).toNat * 65536
    + (UInt8.ofNat (address >>> 8)).toNat * 256 + (UInt8.ofNat address).toNat = address := by
  simp only [UInt8.toNat_ofNat', Nat.shiftRight_eq_div_pow]
  omega

theorem FlashSpi.decode_command (instruction : UInt8) (h : address < 2 ^ 24) (data : List UInt8) :
    FlashSpi.decode (instruction :: FlashSpi.convertAddress address ++ data)
      = if instruction = 0x02 then some (.pageProgram address data)
        else if instruction = 0x20 then some (.eraseUnit address 4096)
        else if instruction = 0xd8 then some (.eraseUnit address 65536)
        else none := by
  simp only [FlashSpi.convertAddress, List.cons_append, List.nil_append, FlashSpi.decode, FlashSpi.decode_address h]

theorem erases_flashSpi (hend : endIndex ≤ size.numberOfSubSectors) :
    Erases FlashSpi.decode (size.numberOfSubSectors * sizeSubSector) endIndex
      (FlashSpi.eraseSomeSectors size.flash endIndex) := by
  refine erases_eraseSomeSectors hend rfl (fun i hi => ?_) (fun i hi => ?_)
  all_goals
    obtain ⟨haddress, hinside⟩ := addressOfSector_eq hi
    have hdecode := fun instruction => FlashSpi.decode_command instruction hinside []
    simp only [List.append_nil] at hdecode
  · rw [FlashSpi.sendEraseSector, haddress, hdecode]
    rfl
  · rw [FlashSpi.sendEraseSubSector, haddress, hdecode]
    rfl

theorem erases_micronN25q (hend : endIndex ≤ size.numberOfSubSectors) :
    Erases FlashQuadSpiMicronN25q.decode (size.numberOfSubSectors * sizeSubSector) endIndex
      (FlashQuadSpiMicronN25q.eraseSomeSectors size.flash endIndex) := by
  refine erases_eraseSomeSectors hend rfl (fun i hi => ?_) (fun i hi => ?_)
  all_goals
    obtain ⟨haddress, hinside⟩ := addressOfSector_eq hi
    have hvector := FlashQuadSpi.vectorToAddress_convertAddress hinside
  · rw [FlashQuadSpiMicronN25q.sendEraseSector, haddress]
    simp [FlashQuadSpiMicronN25q.decode, FlashQuadSpiMicronN25q.commandEraseSector, hvector]
  · rw [FlashQuadSpiMicronN25q.sendEraseSubSector, haddress]
    simp [FlashQuadSpiMicronN25q.decode, FlashQuadSpiMicronN25q.commandEraseSubSector, hvector]

end Decoding

/-! ## The drivers -/

section Drivers

variable {τ : Type} {size : Size} {decode : τ → Option Command} {writeEnable : τ} {hold : List (Stmt (State τ))}
  {buffer : List UInt8} {address beginIndex endIndex : Nat}

/-- `WriteBuffer` of a driver. -/
theorem performs_write {command : Nat → List UInt8 → τ} (hhold : Holds hold)
    (henable : decode writeEnable = some .writeEnable)
    (hdecode : ∀ address < 2 ^ 24, ∀ data, decode (command address data) = some (.pageProgram address data))
    (hfit : address + buffer.length ≤ size.flash.totalSize) :
    Performs decode size.flash.totalSize
      [.execute (startWrite buffer address),
        (writing (pageProgram size.flash command)).loop .asynchronous writeEnable hold, .execute State.schedule]
      (fun memory => programBytes memory address buffer) := by
  rw [FlashHomogeneous.totalSize_eq] at hfit ⊢
  refine performs_loop (fun m => m.address + m.buffer.length ≤ size.numberOfSubSectors * sizeSubSector)
    (fun m memory => program memory m.address m.buffer) (fun _ => ⟨rfl, rfl⟩)
    (fun _ memory => (programBytes_eq memory address buffer).symm) (fun _ => hfit) (fun _ _ => write_sends fun _ => rfl)
    hhold henable ?_ ?_
  · intro m _ hstop memory
    have hempty : m.buffer = [] := by simpa [writing] using hstop
    show program memory m.address m.buffer = memory
    rw [hempty, program_nil]
  · intro m hm hmore
    exact turn_writes hdecode hm (by simpa [writing] using hmore)

/-- `EraseSectors` of a driver. -/
theorem performs_erase {turn : Members → Members × τ} (hhold : Holds hold)
    (henable : decode writeEnable = some .writeEnable)
    (hturn : Erases decode (size.numberOfSubSectors * sizeSubSector) endIndex turn) (hbegin : beginIndex ≤ endIndex) :
    Performs decode size.flash.totalSize
      [.execute (startErase beginIndex), (erasing endIndex turn).loop .asynchronous writeEnable hold,
        .execute State.schedule]
      (fun memory => eraseUnits sizeSubSector memory beginIndex (endIndex - beginIndex)) := by
  rw [FlashHomogeneous.totalSize_eq]
  refine performs_loop (fun m => m.sectorIndex ≤ endIndex)
    (fun m memory => erase memory (m.sectorIndex * sizeSubSector) ((endIndex - m.sectorIndex) * sizeSubSector))
    (fun _ => ⟨rfl, rfl⟩)
    (fun _ memory => (eraseUnits_eq sizeSubSector memory beginIndex _).symm) (fun _ => hbegin)
    (fun m hm => erase_sends (fun m hlt => ?_) hm) hhold henable ?_ ?_
  · obtain ⟨n, _, hindex, hpos, hle, -⟩ := hturn m hlt
    omega
  · intro m _ hstop memory
    have hequal : m.sectorIndex = endIndex := by simpa [erasing] using hstop
    show erase memory _ ((endIndex - m.sectorIndex) * sizeSubSector) = memory
    rw [hequal, Nat.sub_self, Nat.zero_mul]
    exact funext fun x => if_neg (by omega)
  · intro m hm hmore
    have hne : m.sectorIndex ≠ endIndex := by simpa [erasing] using hmore
    exact turn_erases hturn (Nat.lt_of_le_of_ne hm hne)

/-- **The drivers program and erase exactly what they are asked to**, and come to an end. -/
theorem serialFlash_correct (size : Size) (buffer : List UInt8) (address beginIndex endIndex : Nat)
    (haddress : address + buffer.length ≤ size.flash.totalSize) (hbegin : beginIndex ≤ endIndex)
    (hend : endIndex ≤ size.flash.numberOfSectors) :
    Correct FlashSpi.decode size (fun timing => FlashSpi.writeBuffer size.flash timing buffer address)
        (fun timing => FlashSpi.eraseSectors size.flash timing beginIndex endIndex)
        buffer address beginIndex endIndex ∧
      Correct FlashQuadSpiMicronN25q.decode size
        (fun timing => FlashQuadSpi.writeBuffer .micronN25q size.flash timing buffer address)
        (fun timing => FlashQuadSpiMicronN25q.eraseSectors size.flash timing beginIndex endIndex)
        buffer address beginIndex endIndex ∧
      Correct FlashQuadSpiCypressFll.decode size
        (fun timing => FlashQuadSpi.writeBuffer .cypressFll size.flash timing buffer address)
        (fun timing => FlashQuadSpiCypressFll.eraseSectors size.flash timing beginIndex endIndex)
        buffer address beginIndex endIndex := by
  refine ⟨fun timing => ⟨?_, ?_⟩, fun timing => ⟨?_, ?_⟩, fun timing => ⟨?_, ?_⟩⟩
  · exact performs_write (holds_delayedHold timing) rfl (fun _ h data => FlashSpi.decode_command 0x02 h data) haddress
  · exact performs_erase (holds_delayedHold timing) rfl (erases_flashSpi hend) hbegin
  · refine performs_write (holds_pollStatus timing) rfl (fun _ h data => ?_) haddress
    simp [FlashQuadSpiMicronN25q.decode, FlashQuadSpi.Derived.commandPageProgram,
      FlashQuadSpi.vectorToAddress_convertAddress h]
  · exact performs_erase (holds_pollStatus timing) rfl (erases_micronN25q hend) hbegin
  · refine performs_write (holds_pollStatus timing) rfl (fun _ h data => ?_) haddress
    simp [FlashQuadSpiCypressFll.decode, FlashQuadSpi.Derived.commandPageProgram,
      FlashQuadSpi.vectorToAddress_convertAddress h]
  · exact performs_erase (holds_pollStatus timing) rfl (erases_cypressFll hend) hbegin

/-- Two bytes at the border of two pages, and a device that is erased as a whole. -/
theorem serialFlash_correct_twoBytes :
    let size : Size := ⟨1, by decide, by decide⟩
    Correct FlashSpi.decode size (fun timing => FlashSpi.writeBuffer size.flash timing [0x5a, 0xa5] 255)
        (fun timing => FlashSpi.eraseSectors size.flash timing 0 1) [0x5a, 0xa5] 255 0 1 ∧
      Correct FlashQuadSpiMicronN25q.decode size
        (fun timing => FlashQuadSpi.writeBuffer .micronN25q size.flash timing [0x5a, 0xa5] 255)
        (fun timing => FlashQuadSpiMicronN25q.eraseSectors size.flash timing 0 1) [0x5a, 0xa5] 255 0 1 ∧
      Correct FlashQuadSpiCypressFll.decode size
        (fun timing => FlashQuadSpi.writeBuffer .cypressFll size.flash timing [0x5a, 0xa5] 255)
        (fun timing => FlashQuadSpiCypressFll.eraseSectors size.flash timing 0 1) [0x5a, 0xa5] 255 0 1 :=
  serialFlash_correct ⟨1, by decide, by decide⟩ [0x5a, 0xa5] 255 0 1 (by decide) (by decide) (by decide)

end Drivers

end EmbeddedInfra.SerialFlash
