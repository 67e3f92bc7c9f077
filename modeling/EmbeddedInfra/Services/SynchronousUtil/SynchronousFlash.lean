import EmbeddedInfra.Services.Util.FlashSpi

set_option autoImplicit false

/-! # The synchronous flash drivers

`services::SynchronousFlashSpi` sends what `services::FlashSpi` sends. `services::SynchronousFlashQuadSpi` does not
count on its address: when a write goes beyond its page, the next page is programmed at the address of the first one.
-/

namespace EmbeddedInfra.SerialFlash

open Sequencer

/-! ## `services::SynchronousFlashSpi` -/

namespace SynchronousFlashSpi

open FlashSpi (Session convertAddress)

def commandPageProgram : UInt8 := 0x02
def commandWriteEnable : UInt8 := 0x06
def commandEraseSubSector : UInt8 := 0x20
def commandEraseSector : UInt8 := 0xd8
def commandEraseBulk : UInt8 := 0xc7

def writeEnable : Session := [commandWriteEnable]

variable (f : FlashHomogeneous)

def pageProgram : Members → Members × Session :=
  SerialFlash.pageProgram f fun address data => commandPageProgram :: convertAddress address ++ data

def eraseSomeSectors (endIndex : Nat) : Members → Members × Session :=
  SerialFlash.eraseSomeSectors f [commandEraseBulk]
    (fun subSectorIndex => commandEraseSector :: convertAddress (f.addressOfSector subSectorIndex))
    (fun subSectorIndex => commandEraseSubSector :: convertAddress (f.addressOfSector subSectorIndex)) endIndex

def writeBuffer (timing : Timing Session) (buffer : List UInt8) (address : Nat) : List (Stmt (State Session)) :=
  [.execute (startWrite buffer address), (writing (pageProgram f)).loop .synchronous writeEnable (busyHold timing)]

def eraseSectors (timing : Timing Session) (beginIndex endIndex : Nat) : List (Stmt (State Session)) :=
  [.execute (startErase beginIndex),
    (erasing endIndex (eraseSomeSectors f endIndex)).loop .synchronous writeEnable (busyHold timing)]

end SynchronousFlashSpi

/-! ## `services::SynchronousFlashQuadSpi` -/

namespace SynchronousFlashQuadSpi

/-- `hal::SynchronousQuadSpi::Header`, as the commands use it. -/
structure Header where
  instruction : UInt8
  address : Nat
  deriving DecidableEq

abbrev Transfer : Type := Header × List UInt8

def commandWriteEnable : UInt8 := 0x06
def commandPageProgram : UInt8 := 0x32

/-- `std::numeric_limits<uint32_t>::max()` stands for no address. -/
def writeEnable : Transfer := (⟨commandWriteEnable, 2 ^ 32 - 1⟩, [])

/-- `SynchronousFlashHomogeneous(4096, 4096)` -/
def size : Size := ⟨4096, by decide, by decide⟩

/-- The address stays what it is. -/
def pageProgram (m : Members) : Members × Transfer :=
  ({ m with buffer := m.buffer.drop (currentBuffer size.flash m).length },
    (⟨commandPageProgram, m.address⟩, currentBuffer size.flash m))

def writeBuffer (timing : Timing Transfer) (buffer : List UInt8) (address : Nat) : List (Stmt (State Transfer)) :=
  [.execute (startWrite buffer address), (writing pageProgram).loop .synchronous writeEnable (busyHold timing)]

end SynchronousFlashQuadSpi

/-! ## What a driver sends -/

section Issues

variable {τ : Type}

def Access.sent : Access τ → Option τ
  | .send transfer => some transfer
  | .readStatus _ => none

/-- From every state of the driver the function comes to its end, and has sent these commands then. -/
def Issues (p : List (Stmt (State τ))) (transfers : List τ) : Prop :=
  ∀ s, ∃ t log, Ends p s t ∧ t.log = s.log ++ log ∧ log.filterMap Access.sent = transfers

/-- The address and the data of the page programs among the commands. -/
def FlashQuadSpi.pagePrograms (derived : FlashQuadSpi.Derived) (transfers : List FlashQuadSpi.Transfer) :
    List (Nat × List UInt8) :=
  transfers.filterMap fun transfer =>
    if transfer.1.instruction = derived.commandPageProgram then
      some (FlashQuadSpi.vectorToAddress transfer.1.address, transfer.2)
    else none

def SynchronousFlashQuadSpi.pagePrograms (transfers : List SynchronousFlashQuadSpi.Transfer) :
    List (Nat × List UInt8) :=
  transfers.filterMap fun transfer =>
    if transfer.1.instruction = SynchronousFlashQuadSpi.commandPageProgram then
      some (transfer.1.address, transfer.2)
    else none

/-- The drivers on the same bus send the same commands. -/
def SpiAgrees (size : Size) (buffer : List UInt8) (address beginIndex endIndex : Nat) : Prop :=
  ∀ timing timing', (∃ transfers, Issues (FlashSpi.writeBuffer size.flash timing buffer address) transfers ∧
      Issues (SynchronousFlashSpi.writeBuffer size.flash timing' buffer address) transfers) ∧
    ∃ transfers, Issues (FlashSpi.eraseSectors size.flash timing beginIndex endIndex) transfers ∧
      Issues (SynchronousFlashSpi.eraseSectors size.flash timing' beginIndex endIndex) transfers

/-- The drivers program the same data at the same addresses. -/
def QuadSpiAgrees (size : Size) (buffer : List UInt8) (address : Nat) : Prop :=
  ∀ derived timing timing', ∃ transfers transfers',
    Issues (FlashQuadSpi.writeBuffer derived size.flash timing buffer address) transfers ∧
      Issues (SynchronousFlashQuadSpi.writeBuffer timing' buffer address) transfers' ∧
        FlashQuadSpi.pagePrograms derived transfers = SynchronousFlashQuadSpi.pagePrograms transfers'

def Agrees (size : Size) (buffer : List UInt8) (address beginIndex endIndex : Nat) : Prop :=
  SpiAgrees size buffer address beginIndex endIndex ∧ QuadSpiAgrees size buffer address

variable {p : List (Stmt (State τ))} {transfers transfers' : List τ} {writeEnable : τ} {job : Job τ} {m : Members}

/-- A function sends the same commands whatever the state it starts in. -/
theorem Issues.unique (h : Issues p transfers) (h' : Issues p transfers') : transfers = transfers' := by
  obtain ⟨t, log, ⟨pauses, hruns, -⟩, hlog, rfl⟩ := h ⟨⟨[], 0, 0⟩, 0, [], 0⟩
  obtain ⟨t', log', ⟨pauses', hruns', -⟩, hlog', rfl⟩ := h' ⟨⟨[], 0, 0⟩, 0, [], 0⟩
  have hsame := (Runs.unique hruns hruns').2
  rw [hsame, hlog'] at hlog
  rw [List.append_cancel_left hlog]

theorem sent_of_performed {log : List (Access τ)} (h : Performed writeEnable transfers log) :
    log.filterMap Access.sent = transfers.flatMap fun transfer => [writeEnable, transfer] := by
  induction h with
  | nil => rfl
  | @cons transfer transfers replies log hwait hrest ih =>
      have hreplies : (replies.map (Access.readStatus (τ := τ))).filterMap Access.sent = [] := by
        simp [List.filterMap_map, Function.comp_def, Access.sent]
      rw [List.filterMap_append, List.filterMap_append, hreplies, List.append_nil, ih]
      rfl

/-- The members that a loop does not look at make no difference. -/
theorem Job.Sends.map (other : Members → Members) (hmore : ∀ m, job.more (other m) = job.more m)
    (hturn : ∀ m, job.turn (other m) = (other (job.turn m).1, (job.turn m).2)) (h : job.Sends m transfers) :
    job.Sends (other m) transfers := by
  induction h with
  | stop hstop => exact .stop (by rw [hmore, hstop])
  | @turn m transfers hcontinue hrest ih =>
      have hrest : job.Sends (other m) ((job.turn (other m)).2 :: transfers) :=
        .turn (by rw [hmore, hcontinue]) (by rw [hturn]; exact ih)
      rwa [hturn] at hrest

/-- Writing and erasing is one loop. -/
theorem issues_loop {start : State τ → State τ} {style : Style} {hold : List (Stmt (State τ))}
    {rest : List (Stmt (State τ))} (hstart : ∀ s, (start s).log = s.log)
    (hsends : ∀ s, job.Sends (start s).members transfers) (hhold : Holds hold)
    (hrest : ∀ s, ∃ t, Ends rest s t ∧ t.log = s.log) :
    Issues (.execute start :: job.loop style writeEnable hold :: rest)
      (transfers.flatMap fun transfer => [writeEnable, transfer]) := by
  intro s
  obtain ⟨t, log, hends, -, hlog, hperformed⟩ := @Job.Sends.ends _ _ style writeEnable _ _ _ _ (hsends s) hhold rfl
  obtain ⟨u, hlast, hu⟩ := hrest t
  refine ⟨u, log, ?_, ?_, sent_of_performed hperformed⟩
  · exact EndsIn.execute (EndsIn.append (hends.mono fun _ _ => trivial) hlast)
  · rw [hu, hlog, hstart]

theorem ends_schedule (s : State τ) : ∃ t, Ends [.execute State.schedule] s t ∧ t.log = s.log :=
  ⟨s.schedule, EndsIn.execute (EndsIn.nil _), rfl⟩

theorem ends_nil (s : State τ) : ∃ t, Ends [] s t ∧ t.log = s.log := ⟨s, EndsIn.nil s, rfl⟩

/-- What a write sends depends on the buffer and on the address only. -/
theorem sends_startWrite {turn : Members → Members × τ} {buffer : List UInt8} {address : Nat}
    (hturn : ∀ m i, turn { m with sectorIndex := i } = ({ (turn m).1 with sectorIndex := i }, (turn m).2))
    (h : (writing turn).Sends ⟨buffer, address, 0⟩ transfers) (s : State τ) :
    (writing turn).Sends (startWrite buffer address s).members transfers :=
  h.map (fun m => { m with sectorIndex := s.members.sectorIndex }) (fun _ => rfl) fun m => hturn m _

/-- What an erase sends depends on the sectors only. -/
theorem sends_startErase {turn : Members → Members × τ} {beginIndex endIndex : Nat}
    (hturn : ∀ m buffer address, turn { m with buffer := buffer, address := address }
      = ({ (turn m).1 with buffer := buffer, address := address }, (turn m).2))
    (h : (erasing endIndex turn).Sends ⟨[], 0, beginIndex⟩ transfers) (s : State τ) :
    (erasing endIndex turn).Sends (startErase beginIndex s).members transfers :=
  h.map (fun m => { m with buffer := s.members.buffer, address := s.members.address }) (fun _ => rfl)
    fun m => hturn m _ _

theorem eraseSomeSectors_frame (f : FlashHomogeneous) (bulk : τ) (sector subSector : Nat → τ) (endIndex : Nat)
    (m : Members) (buffer : List UInt8) (address : Nat) :
    eraseSomeSectors f bulk sector subSector endIndex { m with buffer := buffer, address := address }
      = ({ (eraseSomeSectors f bulk sector subSector endIndex m).1 with buffer := buffer, address := address },
          (eraseSomeSectors f bulk sector subSector endIndex m).2) := by
  simp only [eraseSomeSectors]
  split_ifs
  all_goals rfl

end Issues

/-! ## Agreement -/

section Agreement

variable {size : Size} {buffer : List UInt8} {address beginIndex endIndex : Nat}
  {derived : FlashQuadSpi.Derived} {transfers : List FlashQuadSpi.Transfer} {m : Members}

/-- A flash that is always ready. -/
def neverBusy {τ : Type} : Timing τ := ⟨fun _ => 0, fun _ => ⟨0, rfl⟩⟩

/-- The two drivers of an SPI flash agree. -/
theorem spi_agrees (hbegin : beginIndex ≤ endIndex) (hend : endIndex ≤ size.numberOfSubSectors) :
    SpiAgrees size buffer address beginIndex endIndex := by
  intro timing timing'
  obtain ⟨written, hwritten⟩ := @write_sends _ ⟨buffer, address, 0⟩ size.flash (FlashSpi.pageProgram size.flash)
    fun _ => rfl
  obtain ⟨erased, herased⟩ := @erase_sends _ ⟨[], 0, beginIndex⟩ (FlashSpi.eraseSomeSectors size.flash endIndex)
    endIndex (fun m hm => sectorIndex_eraseSomeSectors hend hm) hbegin
  have hwrite := sends_startWrite (fun _ _ => rfl) hwritten
  have herase := sends_startErase (fun m => eraseSomeSectors_frame _ _ _ _ _ m) herased
  refine ⟨⟨written.flatMap fun transfer => [FlashSpi.writeEnable, transfer], ?_, ?_⟩,
    ⟨erased.flatMap fun transfer => [FlashSpi.writeEnable, transfer], ?_, ?_⟩⟩
  · exact issues_loop (fun _ => rfl) hwrite (holds_delayedHold timing) ends_schedule
  · exact issues_loop (fun _ => rfl) hwrite (holds_busyHold timing') ends_nil
  · exact issues_loop (fun _ => rfl) herase (holds_delayedHold timing) ends_schedule
  · exact issues_loop (fun _ => rfl) herase (holds_busyHold timing') ends_nil

/-- The page programs among the commands of a write. -/
theorem pagePrograms_pageProgram (derived : FlashQuadSpi.Derived) (transfers : List FlashQuadSpi.Transfer) :
    FlashQuadSpi.pagePrograms derived (transfers.flatMap fun transfer => [FlashQuadSpi.writeEnable, transfer])
      = FlashQuadSpi.pagePrograms derived transfers := by
  have henable : FlashQuadSpi.writeEnable.1.instruction ≠ derived.commandPageProgram := by cases derived <;> decide
  induction transfers with
  | nil => rfl
  | cons transfer transfers ih =>
      rw [FlashQuadSpi.pagePrograms] at ih ⊢
      rw [List.flatMap_cons, List.filterMap_append, ih, List.filterMap_cons, if_neg henable]
      exact (List.filterMap_append (l := [transfer])).symm

theorem pagePrograms_synchronous (transfers : List SynchronousFlashQuadSpi.Transfer) :
    SynchronousFlashQuadSpi.pagePrograms
        (transfers.flatMap fun transfer => [SynchronousFlashQuadSpi.writeEnable, transfer])
      = SynchronousFlashQuadSpi.pagePrograms transfers := by
  induction transfers with
  | nil => rfl
  | cons transfer transfers ih =>
      rw [SynchronousFlashQuadSpi.pagePrograms] at ih ⊢
      rw [List.flatMap_cons, List.filterMap_append, ih, List.filterMap_cons, if_neg (by decide)]
      exact (List.filterMap_append (l := [transfer])).symm

/-- One turn of `FlashQuadSpi`. -/
theorem sends_turn
    (hne : m.buffer ≠ []) (hfit : m.address + m.buffer.length ≤ size.numberOfSubSectors * sizeSubSector)
    (h : (writing (FlashQuadSpi.pageProgram derived size.flash)).Sends m transfers) :
    ∃ rest m', FlashQuadSpi.pagePrograms derived transfers
        = (m.address, currentBuffer size.flash m) :: FlashQuadSpi.pagePrograms derived rest ∧
      (writing (FlashQuadSpi.pageProgram derived size.flash)).Sends m' rest ∧
        m'.buffer = m.buffer.drop (currentBuffer size.flash m).length ∧
          m'.address = m.address + (currentBuffer size.flash m).length := by
  cases h with
  | stop hstop => simp [writing, hne] at hstop
  | @turn _ transfers hmore hrest =>
      have hpos := List.length_pos_iff.mpr hne
      have hsize := size.le
      refine ⟨transfers, _, ?_, hrest, rfl, address_pageProgram hfit⟩
      show FlashQuadSpi.pagePrograms derived ((⟨derived.commandPageProgram, FlashQuadSpi.convertAddress m.address⟩,
        currentBuffer size.flash m) :: transfers) = _
      rw [FlashQuadSpi.pagePrograms, List.filterMap_cons, if_pos rfl]
      simp only [FlashQuadSpi.vectorToAddress_convertAddress (show m.address < 2 ^ 24 by omega)]
      rfl

/-- One turn of `SynchronousFlashQuadSpi`. -/
theorem sends_turn_synchronous {transfers : List SynchronousFlashQuadSpi.Transfer} (hne : m.buffer ≠ [])
    (h : (writing SynchronousFlashQuadSpi.pageProgram).Sends m transfers) :
    ∃ rest m', SynchronousFlashQuadSpi.pagePrograms transfers
        = (m.address, currentBuffer SynchronousFlashQuadSpi.size.flash m)
          :: SynchronousFlashQuadSpi.pagePrograms rest ∧
      (writing SynchronousFlashQuadSpi.pageProgram).Sends m' rest ∧
        m'.buffer = m.buffer.drop (currentBuffer SynchronousFlashQuadSpi.size.flash m).length ∧
          m'.address = m.address := by
  cases h with
  | stop hstop => simp [writing, hne] at hstop
  | @turn _ transfers hmore hrest => exact ⟨transfers, _, rfl, hrest, rfl, rfl⟩

theorem sends_nil {τ : Type} {turn : Members → Members × τ} {transfers : List τ}
    (h : (writing turn).Sends m transfers) (hempty : m.buffer = []) : transfers = [] := by
  cases h with
  | stop hstop => rfl
  | turn hmore hrest => simp [writing, hempty] at hmore

/-- The page programs of one write are the same exactly where the write stays in its page. -/
theorem pagePrograms_eq_iff {transfers' : List SynchronousFlashQuadSpi.Transfer}
    (hfit : m.address + m.buffer.length ≤ size.numberOfSubSectors * sizeSubSector)
    (h : (writing (FlashQuadSpi.pageProgram derived size.flash)).Sends m transfers)
    (h' : (writing SynchronousFlashQuadSpi.pageProgram).Sends m transfers') :
    FlashQuadSpi.pagePrograms derived transfers = SynchronousFlashQuadSpi.pagePrograms transfers'
      ↔ m.buffer.length ≤ sizePage - m.address % sizePage := by
  by_cases hempty : m.buffer = []
  · rw [sends_nil h hempty, sends_nil h' hempty, hempty]
    exact iff_of_true rfl (Nat.zero_le _)
  · have hpos := List.length_pos_iff.mpr hempty
    have hsize := size.le
    have hmod := Nat.mod_lt m.address (show 0 < sizePage by decide)
    have hpiece := currentBuffer_eq (show m.address < size.numberOfSubSectors * sizeSubSector by omega)
    have hpiece' := @currentBuffer_eq SynchronousFlashQuadSpi.size m
      (Nat.lt_of_lt_of_le (by omega) (show 2 ^ 24 ≤ _ by decide))
    obtain ⟨rest, m₁, hprograms, hrest, hbuffer, haddress⟩ := sends_turn hempty hfit h
    obtain ⟨rest', m₁', hprograms', hrest', hbuffer', haddress'⟩ := sends_turn_synchronous hempty h'
    rw [hprograms, hprograms', hpiece, hpiece']
    rw [hpiece, List.length_take] at hbuffer haddress
    rw [hpiece', List.length_take] at hbuffer'
    constructor
    · -- the second pages differ
      intro hsame
      by_contra hlong
      have hne : m₁.buffer ≠ [] := by
        rw [hbuffer, ne_eq, List.drop_eq_nil_iff]
        omega
      have hne' : m₁'.buffer ≠ [] := by
        rw [hbuffer', ne_eq, List.drop_eq_nil_iff]
        omega
      have hfit₁ : m₁.address + m₁.buffer.length ≤ size.numberOfSubSectors * sizeSubSector := by
        rw [haddress, hbuffer, List.length_drop]
        omega
      obtain ⟨_, _, hsecond, -⟩ := sends_turn hne hfit₁ hrest
      obtain ⟨_, _, hsecond', -⟩ := sends_turn_synchronous hne' hrest'
      rw [hsecond, hsecond', haddress, haddress'] at hsame
      have hequal := congrArg Prod.fst (List.cons.inj (List.cons.inj hsame).2).1
      dsimp only at hequal
      omega
    · intro hshort
      have hdone : m₁.buffer = [] := by
        rw [hbuffer, List.drop_eq_nil_iff]
        omega
      have hdone' : m₁'.buffer = [] := by
        rw [hbuffer', List.drop_eq_nil_iff]
        omega
      rw [sends_nil hrest hdone, sends_nil hrest' hdone']
      rfl

theorem issues_quadSpi
    (h : (writing (FlashQuadSpi.pageProgram derived size.flash)).Sends ⟨buffer, address, 0⟩ transfers)
    (timing : Timing FlashQuadSpi.Transfer) :
    Issues (FlashQuadSpi.writeBuffer derived size.flash timing buffer address)
      (transfers.flatMap fun transfer => [FlashQuadSpi.writeEnable, transfer]) :=
  issues_loop (fun _ => rfl) (sends_startWrite (fun _ _ => rfl) h) (holds_pollStatus timing) ends_schedule

theorem issues_synchronousQuadSpi {transfers : List SynchronousFlashQuadSpi.Transfer}
    (h : (writing SynchronousFlashQuadSpi.pageProgram).Sends ⟨buffer, address, 0⟩ transfers)
    (timing : Timing SynchronousFlashQuadSpi.Transfer) :
    Issues (SynchronousFlashQuadSpi.writeBuffer timing buffer address)
      (transfers.flatMap fun transfer => [SynchronousFlashQuadSpi.writeEnable, transfer]) :=
  issues_loop (fun _ => rfl) (sends_startWrite (fun _ _ => rfl) h) (holds_busyHold timing) ends_nil

/-- The two drivers of a QuadSPI flash agree exactly where the write stays in its page. -/
theorem quadSpi_agrees_iff (hfit : address + buffer.length ≤ size.numberOfSubSectors * sizeSubSector) :
    QuadSpiAgrees size buffer address ↔ buffer.length ≤ sizePage - address % sizePage := by
  have hsends (derived : FlashQuadSpi.Derived) := @write_sends _ ⟨buffer, address, 0⟩ size.flash
    (FlashQuadSpi.pageProgram derived size.flash) fun _ => rfl
  obtain ⟨sent', hsent'⟩ := @write_sends _ ⟨buffer, address, 0⟩ SynchronousFlashQuadSpi.size.flash
    SynchronousFlashQuadSpi.pageProgram fun _ => rfl
  constructor
  · intro hagrees
    obtain ⟨sent, hsent⟩ := hsends .micronN25q
    obtain ⟨transfers, transfers', hissues, hissues', hsame⟩ := hagrees .micronN25q neverBusy neverBusy
    rw [hissues.unique (issues_quadSpi hsent neverBusy), pagePrograms_pageProgram,
      hissues'.unique (issues_synchronousQuadSpi hsent' neverBusy), pagePrograms_synchronous] at hsame
    exact (pagePrograms_eq_iff hfit hsent hsent').mp hsame
  · intro hshort derived timing timing'
    obtain ⟨sent, hsent⟩ := hsends derived
    refine ⟨_, _, issues_quadSpi hsent timing, issues_synchronousQuadSpi hsent' timing', ?_⟩
    rw [pagePrograms_pageProgram, pagePrograms_synchronous]
    exact (pagePrograms_eq_iff hfit hsent hsent').mpr hshort

/-- **The synchronous drivers agree with the asynchronous ones exactly on the writes that stay in their page**: the
driver of a QuadSPI flash programs every further page at the address of the first one. -/
theorem synchronousFlash_agrees_iff (size : Size) (buffer : List UInt8) (address beginIndex endIndex : Nat)
    (haddress : address + buffer.length ≤ size.flash.totalSize) (hbegin : beginIndex ≤ endIndex)
    (hend : endIndex ≤ size.flash.numberOfSectors) :
    Agrees size buffer address beginIndex endIndex ↔ buffer.length ≤ sizePage - address % sizePage := by
  rw [FlashHomogeneous.totalSize_eq] at haddress
  rw [Agrees, and_iff_right (spi_agrees hbegin hend)]
  exact quadSpi_agrees_iff haddress

/-- The last byte of a page. -/
theorem synchronousFlash_agrees_iff_oneByte : Agrees ⟨1, by decide, by decide⟩ [0x5a] 255 0 1 :=
  (synchronousFlash_agrees_iff ⟨1, by decide, by decide⟩ [0x5a] 255 0 1 (by decide) (by decide) (by decide)).mpr
    (by decide)

/-- The last byte of a page and the first one of the next. -/
theorem synchronousFlash_not_agrees :
    ¬ ∀ (size : Size) (buffer : List UInt8) (address beginIndex endIndex : Nat),
      address + buffer.length ≤ size.flash.totalSize → beginIndex ≤ endIndex →
        endIndex ≤ size.flash.numberOfSectors → Agrees size buffer address beginIndex endIndex := by
  intro hagrees
  have hquad := (hagrees ⟨1, by decide, by decide⟩ [0x5a, 0xa5] 255 0 1 (by decide) (by decide) (by decide)).2
  exact absurd ((quadSpi_agrees_iff (by decide)).mp hquad) (by decide)

end Agreement

end EmbeddedInfra.SerialFlash
