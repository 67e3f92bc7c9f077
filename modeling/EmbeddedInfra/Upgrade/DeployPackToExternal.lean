import EmbeddedInfra.Infra.SequencerRelations
import EmbeddedInfra.Upgrade.Decryptor
import EmbeddedInfra.Upgrade.StoredPack

set_option autoImplicit false

/-! # Deploying a pack to an external flash

`application::DeployPackToExternal` copies an upgrade pack from one flash to another with a sequencer. It reads and
writes whole buffers, and it compares the size of the pack with the size of the flash that it reads from.
-/

namespace EmbeddedInfra.Upgrade.DeployPackToExternal

open NorMemory Sequencer UpgradePackStatus

/-- A flash: its size, which is a `uint32_t`, and its contents. -/
structure Device where
  size : Nat
  size_lt : size < 2 ^ 32
  memory : Memory

inductive Notification
  | notDeployable
  | doesntFit
  | done
  deriving DecidableEq, Repr

/-- The members, with what the flashes and the observer have seen: the ranges that have been read from the source and
written to the destination, each an address with a size, and the notifications. -/
structure State where
  source : Device
  destination : Device
  header : UpgradePackHeaderPrologue
  buffer : List UInt8
  sizeToDo : Nat
  currentSize : Nat
  currentReadAddress : Nat
  currentWriteAddress : Nat
  reads : List (Nat × Nat)
  writes : List (Nat × Nat)
  notifications : List Notification

open State

/-! ## The sequence -/

def bufferSize : Nat := 256

def State.readHeader (s : State) : State :=
  { s with header := .ofBytes (read s.source.memory 0 16), reads := s.reads ++ [(0, 16)] }

/-- The sum is a `std::size_t` of 32 bits. -/
def State.determineSize (s : State) : State :=
  { s with sizeToDo := u32 (s.header.signedContentsLength.toNat + 16 + s.header.signatureLength.toNat) }

def State.notify (notification : Notification) (s : State) : State :=
  { s with notifications := s.notifications ++ [notification] }

def State.eraseAll (s : State) : State :=
  { s with destination := { s.destination with memory := erase s.destination.memory 0 s.destination.size } }

/-- The whole buffer is read. -/
def State.readPart (s : State) : State :=
  { s with
    currentSize := min bufferSize s.sizeToDo
    buffer := read s.source.memory s.currentReadAddress bufferSize
    reads := s.reads ++ [(s.currentReadAddress, bufferSize)] }

/-- The whole buffer is written. -/
def State.writePart (s : State) : State :=
  { s with
    destination := { s.destination with memory := program s.destination.memory s.currentWriteAddress s.buffer }
    writes := s.writes ++ [(s.currentWriteAddress, s.buffer.length)] }

def State.advance (s : State) : State :=
  { s with
    currentReadAddress := add32 s.currentReadAddress s.currentSize
    currentWriteAddress := add32 s.currentWriteAddress s.currentSize
    sizeToDo := s.sizeToDo - s.currentSize }

def State.markDeployed (s : State) : State :=
  { s with
    source := { s.source with memory := program s.source.memory 0 [deployed.toByte] } }

/-- A turn of the loop. -/
def copyPart : List (Stmt State) := [.step readPart, .step writePart, .execute advance]

def copyPack : List (Stmt State) :=
  [.step eraseAll, .whileLoop (test fun s => s.sizeToDo ≠ 0) copyPart, .step markDeployed,
    .execute (notify .done)]

def sequence : List (Stmt State) :=
  [.step readHeader, .execute determineSize,
    .ifBlock (test fun s => s.header.status ≠ readyToDeploy.toByte)
      [.execute (notify .notDeployable)]
      (.elseIf (test fun s => s.sizeToDo ≤ s.source.size) copyPack (.elseBlock [.execute (notify .doesntFit)]))]

/-- The members at first; the buffer is not initialised. -/
def start (source destination : Device) (buffer : List UInt8) : State :=
  { source := source
    destination := destination
    header := .ofBytes []
    buffer := buffer
    sizeToDo := 0
    currentSize := 0
    currentReadAddress := 0
    currentWriteAddress := 0
    reads := []
    writes := []
    notifications := [] }

/-! ## What is promised -/

def headerOf (source : Device) : UpgradePackHeaderPrologue := .ofBytes (read source.memory 0 16)

/-- `signedContentsLength + 16 + signatureLength` -/
def packSize (source : Device) : Nat :=
  (headerOf source).signedContentsLength.toNat + 16 + (headerOf source).signatureLength.toNat

/-- **What is promised at the end**: one notification, and no access outside of the flashes; the pack in the
destination, where it is done; and nothing changed, where the pack does not fit. -/
structure Deployed (source destination : Device) (s : State) : Prop where
  notifies : ∃ notification, s.notifications = [notification]
  readsInside : ∀ range ∈ s.reads, range.1 + range.2 ≤ source.size
  writesInside : ∀ range ∈ s.writes, range.1 + range.2 ≤ destination.size
  copied : s.notifications = [.done] →
    read s.destination.memory 0 (packSize source) = read source.memory 0 (packSize source) ∧
      s.source.memory 0 = deployed.toByte
  doesntFit : source.size < packSize source ∨ destination.size < packSize source →
    s.notifications = [.doesntFit] ∧ s.source = source ∧ s.destination = destination

/-- Where it is done, the rest of the destination is blank, and the source is as it was but for its status. -/
def NothingElse (source : Device) (s : State) : Prop :=
  s.notifications = [.done] →
    (∀ address, packSize source ≤ address → address < s.destination.size → s.destination.memory address = blank) ∧
      ∀ address, address ≠ 0 → s.source.memory address = source.memory address

/-- The sequence ends, and what is promised holds then. -/
def Deploys (source destination : Device) (promise : State → Prop) : Prop :=
  ∀ buffer, ∃ pauses s, Runs sequence (start source destination buffer) pauses s ∧ promise s

/-- The size of as many buffers as the pack takes. -/
def copiedSize (source : Device) : Nat := (packSize source + 255) / 256 * 256

/-- What is behind the pack in its last buffer is blank. -/
def BlankBehind (source : Device) : Prop :=
  (headerOf source).status = readyToDeploy.toByte → copiedSize source ≤ source.size →
    ∀ address, packSize source ≤ address → address < copiedSize source → source.memory address = blank

/-- The header can be read. A pack that is ready to deploy fits in both flashes with its last buffer, or it is too
large for the source even when its size is truncated. Any other pack fits, too. -/
def Fits (source destination : Device) : Prop :=
  16 ≤ source.size ∧
    if (headerOf source).status = readyToDeploy.toByte then
      copiedSize source ≤ source.size ∧ copiedSize source ≤ destination.size ∨ source.size < u32 (packSize source)
    else packSize source ≤ source.size ∧ packSize source ≤ destination.size

variable {source destination : Device} {buffer : List UInt8} {s t : State} {pauses : List State} {size turns : Nat}

/-! ## The loop -/

/-- The ranges of so many buffers. -/
def parts (turns : Nat) : List (Nat × Nat) := (List.range turns).map fun turn => (bufferSize * turn, bufferSize)

/-- What holds after some turns of the loop. -/
structure Copying (source destination : Device) (size turns : Nat) (s : State) : Prop where
  source_eq : s.source = source
  size_eq : s.destination.size = destination.size
  left : s.sizeToDo = size - bufferSize * turns
  readAddress : s.currentReadAddress = min (bufferSize * turns) size
  writeAddress : s.currentWriteAddress = min (bufferSize * turns) size
  reads_eq : s.reads = (0, 16) :: parts turns
  writes_eq : s.writes = parts turns
  silent : s.notifications = []
  copied : ∀ address, address < destination.size → s.destination.memory address =
    if address < bufferSize * turns then source.memory address else blank

theorem runs_copyPart (s : State) : ∃ pauses, Runs copyPart s pauses s.readPart.writePart.advance := by
  refine ⟨[s.readPart, s.readPart.writePart], ?_⟩
  rw [copyPart, runs_step]
  refine ⟨[s.readPart.writePart], ?_, rfl⟩
  rw [runs_step]
  refine ⟨[], ?_, rfl⟩
  rw [runs_execute]
  exact Runs.nil _

theorem parts_succ (turns : Nat) : parts (turns + 1) = parts turns ++ [(bufferSize * turns, bufferSize)] := by
  rw [parts, List.range_succ, List.map_append]
  rfl

/-- A turn copies one more buffer. -/
theorem Copying.turn (h : Copying source destination size turns s) (hsize : size < 2 ^ 32)
    (hturn : bufferSize * turns < size) :
    Copying source destination size (turns + 1) s.readPart.writePart.advance := by
  have hread : s.currentReadAddress = bufferSize * turns := by rw [h.readAddress, Nat.min_eq_left hturn.le]
  have hwrite : s.currentWriteAddress = bufferSize * turns := by rw [h.writeAddress, Nat.min_eq_left hturn.le]
  have hleft := h.left
  have hnext : add32 (bufferSize * turns) (min bufferSize (size - bufferSize * turns)) =
      min (bufferSize * (turns + 1)) size := by
    rw [add32_of_lt (by omega), Nat.mul_succ]
    omega
  constructor
  · exact h.source_eq
  · exact h.size_eq
  · change s.sizeToDo - min bufferSize s.sizeToDo = size - bufferSize * (turns + 1)
    rw [Nat.mul_succ]
    omega
  · change add32 s.currentReadAddress (min bufferSize s.sizeToDo) = _
    rw [hread, hleft, hnext]
  · change add32 s.currentWriteAddress (min bufferSize s.sizeToDo) = _
    rw [hwrite, hleft, hnext]
  · change s.reads ++ [(s.currentReadAddress, bufferSize)] = _
    rw [h.reads_eq, hread, parts_succ, List.cons_append]
  · change s.writes ++ [(s.currentWriteAddress, (read s.source.memory s.currentReadAddress bufferSize).length)] = _
    rw [h.writes_eq, hwrite, length_read, parts_succ]
  · exact h.silent
  · intro address haddress
    change program s.destination.memory s.currentWriteAddress (read s.source.memory s.currentReadAddress bufferSize)
      address = _
    rw [program, length_read, hread, hwrite, h.copied address haddress, h.source_eq, Nat.mul_succ]
    by_cases hhere : bufferSize * turns ≤ address ∧ address < bufferSize * turns + bufferSize
    · have hbyte : (read source.memory (bufferSize * turns) bufferSize).getD (address - bufferSize * turns) blank =
          source.memory address := by
        have hlt : address - bufferSize * turns < bufferSize := by omega
        rw [List.getD_eq_getElem?_getD, List.getElem?_eq_getElem (by rwa [length_read]), Option.getD_some]
        simp only [NorMemory.read, List.getElem_map, List.getElem_range]
        congr 1
        omega
      rw [if_pos hhere, if_neg (by omega), if_pos (by omega), hbyte, blank_and]
    · rw [if_neg hhere]
      by_cases hbefore : address < bufferSize * turns
      · rw [if_pos hbefore, if_pos (by omega)]
      · rw [if_neg hbefore, if_neg (by omega)]

/-- **The loop copies the buffers that the pack takes.** -/
theorem Copying.runs_loop (h : Copying source destination size 0 s) (hsize : size < 2 ^ 32) :
    ∃ pauses t, Runs [.whileLoop (test fun s => s.sizeToDo ≠ 0) copyPart] s pauses t ∧
      Copying source destination size ((size + 255) / 256) t := by
  have hiterate (turns : Nat) (hturns : turns ≤ (size + 255) / 256) :
      Copying source destination size turns ((fun s => s.readPart.writePart.advance)^[turns] s) := by
    induction turns with
    | zero => exact h
    | succ turns ih =>
        rw [Function.iterate_succ_apply']
        exact (ih (by omega)).turn hsize (by unfold bufferSize; omega)
  have hend := hiterate _ le_rfl
  have hruns := (runs_while_iff (s := s) (c := fun s => s.sizeToDo ≠ 0) runs_copyPart).mpr
    ⟨(size + 255) / 256, fun turn hturn => ?_, ?_, rfl⟩
  · obtain ⟨pauses, hruns⟩ := hruns
    exact ⟨pauses, _, hruns, hend⟩
  · have hleft := (hiterate turn hturn.le).left
    rw [decide_eq_true_eq, hleft]
    unfold bufferSize
    omega
  · have hleft := hend.left
    rw [decide_eq_false_iff_not, not_not, hleft]
    unfold bufferSize
    omega

/-! ## The ways in which the sequence ends -/

/-- The header has been read, and nothing else has been done. -/
structure Untouched (source destination : Device) (notification : Notification) (s : State) : Prop where
  source_eq : s.source = source
  destination_eq : s.destination = destination
  reads_eq : s.reads = [(0, 16)]
  writes_eq : s.writes = []
  notifies : s.notifications = [notification]

/-- All buffers have been copied. -/
def Copied (source destination : Device) (s : State) : Prop :=
  ∃ t, Copying source destination (u32 (packSize source)) ((u32 (packSize source) + 255) / 256) t ∧
    s = t.markDeployed.notify .done

def State.begun (source destination : Device) (buffer : List UInt8) : State :=
  (start source destination buffer).readHeader.determineSize

theorem runs_sequence {rest : List (Stmt State)}
    (hrest : Runs rest (begun source destination buffer) pauses t)
    (hbranch : (if (headerOf source).status ≠ readyToDeploy.toByte then
        [.execute (notify .notDeployable)]
      else if u32 (packSize source) ≤ source.size then copyPack
      else [.execute (notify .doesntFit)]) = rest) :
    ∃ pauses, Runs sequence (start source destination buffer) pauses t := by
  refine ⟨(start source destination buffer).readHeader :: pauses, ?_⟩
  rw [sequence, runs_step]
  refine ⟨pauses, ?_, rfl⟩
  rw [runs_execute, runs_ifBlock, List.append_nil]
  change Runs (if decide ((headerOf source).status ≠ readyToDeploy.toByte) = true then
      [.execute (notify .notDeployable)]
    else [.ifBlock (test fun s : State => decide (s.sizeToDo ≤ s.source.size)) copyPack
      (.elseBlock [.execute (notify .doesntFit)])]) (begun source destination buffer) pauses t
  subst hbranch
  by_cases hready : (headerOf source).status ≠ readyToDeploy.toByte
  · rw [if_pos hready] at hrest
    rw [if_pos (decide_eq_true hready)]
    exact hrest
  · rw [if_neg hready] at hrest
    rw [if_neg (by simpa using hready), runs_ifBlock, List.append_nil]
    change Runs (if decide (u32 (packSize source) ≤ source.size) = true then copyPack
      else [.execute (notify .doesntFit)]) (begun source destination buffer) pauses t
    by_cases hfits : u32 (packSize source) ≤ source.size
    · rw [if_pos hfits] at hrest
      rw [if_pos (decide_eq_true hfits)]
      exact hrest
    · rw [if_neg hfits] at hrest
      rw [if_neg (by simpa using hfits)]
      exact hrest

theorem runs_untouched (notification : Notification) :
    ∃ t, Runs [.execute (notify notification)] (begun source destination buffer) [] t ∧
      Untouched source destination notification t :=
  ⟨(begun source destination buffer).notify notification, by rw [runs_execute]; exact Runs.nil _,
    { source_eq := rfl
      destination_eq := rfl
      reads_eq := rfl
      writes_eq := rfl
      notifies := rfl }⟩

theorem runs_copyPack : ∃ pauses t, Runs copyPack (begun source destination buffer) pauses t ∧
    Copied source destination t := by
  have hbegin : Copying source destination (u32 (packSize source)) 0
      (begun source destination buffer).eraseAll := by
    constructor
    · rfl
    · rfl
    · rfl
    · exact (Nat.zero_min _).symm
    · exact (Nat.zero_min _).symm
    · rfl
    · rfl
    · rfl
    · intro address haddress
      change erase destination.memory 0 destination.size address = _
      rw [erase, if_pos (by omega), if_neg (by omega)]
  obtain ⟨pauses, t, hloop, hcopied⟩ := hbegin.runs_loop (Nat.mod_lt _ (by decide))
  have hlast : Runs [.step markDeployed, .execute (notify .done)] t [t.markDeployed]
      (t.markDeployed.notify .done) := by
    rw [runs_step]
    refine ⟨[], ?_, rfl⟩
    rw [runs_execute]
    exact Runs.nil _
  exact ⟨_, t.markDeployed.notify .done, runs_step.mpr ⟨_, hloop.append hlast, rfl⟩, t, hcopied, rfl⟩

/-- The sequence always ends. -/
theorem sequence_ends (source destination : Device) (buffer : List UInt8) :
    ∃ pauses s, Runs sequence (start source destination buffer) pauses s ∧
      if (headerOf source).status = readyToDeploy.toByte then
        if u32 (packSize source) ≤ source.size then Copied source destination s
        else Untouched source destination .doesntFit s
      else Untouched source destination .notDeployable s := by
  by_cases hready : (headerOf source).status = readyToDeploy.toByte
  · by_cases hfits : u32 (packSize source) ≤ source.size
    · obtain ⟨pauses, s, hruns, hcopied⟩ := runs_copyPack
      obtain ⟨pauses, hruns⟩ := runs_sequence hruns (by rw [if_neg (not_not.mpr hready), if_pos hfits])
      exact ⟨pauses, s, hruns, by rwa [if_pos hready, if_pos hfits]⟩
    · obtain ⟨s, hruns, huntouched⟩ := runs_untouched
        .doesntFit
      obtain ⟨pauses, hruns⟩ := runs_sequence hruns (by rw [if_neg (not_not.mpr hready), if_neg hfits])
      exact ⟨pauses, s, hruns, by rwa [if_pos hready, if_neg hfits]⟩
  · obtain ⟨s, hruns, huntouched⟩ := runs_untouched
      .notDeployable
    obtain ⟨pauses, hruns⟩ := runs_sequence hruns (by rw [if_pos hready])
    exact ⟨pauses, s, hruns, by rwa [if_neg hready]⟩

/-- What holds of the state that the sequence ends in is what is promised. -/
theorem deploys_iff_of_ends {promise facts : State → Prop} {condition : Prop}
    (hends : ∀ buffer, ∃ pauses s, Runs sequence (start source destination buffer) pauses s ∧ facts s)
    (hpromise : ∀ s, facts s → (promise s ↔ condition)) :
    Deploys source destination promise ↔ condition := by
  constructor
  · intro h
    obtain ⟨pauses, s, hruns, hfacts⟩ := hends []
    obtain ⟨pauses', s', hruns', hs'⟩ := h []
    obtain rfl : s = s' := (Runs.unique hruns hruns').2
    exact (hpromise s hfacts).mp hs'
  · intro hcondition buffer
    obtain ⟨pauses, s, hruns, hfacts⟩ := hends buffer
    exact ⟨pauses, s, hruns, (hpromise s hfacts).mpr hcondition⟩

/-! ## When packs are deployed -/

theorem deployed_untouched_iff {notification : Notification} (h : Untouched source destination notification s)
    (hnotification : notification ≠ .done) :
    Deployed source destination s ↔ 16 ≤ source.size ∧
      (source.size < packSize source ∨ destination.size < packSize source → notification = .doesntFit) := by
  constructor
  · intro hdeployed
    constructor
    · have hinside := hdeployed.readsInside (0, 16) (h.reads_eq ▸ List.mem_singleton_self _)
      simpa using hinside
    · intro hlarge
      have hsame := (hdeployed.doesntFit hlarge).1
      rw [h.notifies] at hsame
      exact (List.cons.inj hsame).1
  · rintro ⟨hheader, hlarge⟩
    constructor
    · exact ⟨notification, h.notifies⟩
    · intro range hrange
      rw [h.reads_eq, List.mem_singleton] at hrange
      rw [hrange]
      exact (Nat.zero_add 16).le.trans hheader
    · intro range hrange
      rw [h.writes_eq] at hrange
      cases hrange
    · intro hdone
      rw [h.notifies] at hdone
      exact absurd (List.cons.inj hdone).1 hnotification
    · intro hdoesnt
      rw [h.notifies, hlarge hdoesnt]
      exact ⟨rfl, h.source_eq, h.destination_eq⟩

theorem mem_parts {range : Nat × Nat} :
    range ∈ parts turns ↔ ∃ turn < turns, range = (bufferSize * turn, bufferSize) := by
  rw [parts, List.mem_map]
  simp only [List.mem_range, eq_comm]

theorem status_eq (source : Device) : (headerOf source).status = source.memory 0 := rfl

theorem and_deployed : readyToDeploy.toByte &&& deployed.toByte = deployed.toByte := by
  decide

/-- A pack that is copied has to fit with its last buffer. -/
theorem deployed_copied_iff (hready : (headerOf source).status = readyToDeploy.toByte)
    (h : Copied source destination s) :
    Deployed source destination s ↔ copiedSize source ≤ source.size ∧ copiedSize source ≤ destination.size := by
  obtain ⟨t, ht, rfl⟩ := h
  have hsource := source.size_lt
  have hpack : 16 ≤ packSize source := by
    unfold packSize
    omega
  have hnotified : (t.markDeployed.notify .done).notifications = [.done] := by
    change t.notifications ++ [.done] = _
    rw [ht.silent]
    rfl
  constructor
  · intro hdeployed
    have hfits : ¬ (source.size < packSize source ∨ destination.size < packSize source) := by
      intro hlarge
      have hsame := (hdeployed.doesntFit hlarge).1
      rw [hnotified] at hsame
      cases hsame
    have hsize : u32 (packSize source) = packSize source := u32_of_lt (by omega)
    have hlast : (bufferSize * ((packSize source + 255) / 256 - 1), bufferSize) ∈
        parts ((packSize source + 255) / 256) := mem_parts.mpr ⟨_, by omega, rfl⟩
    rw [hsize] at ht
    constructor
    · have hinside := hdeployed.readsInside _ (ht.reads_eq ▸ List.mem_cons_of_mem _ hlast)
      unfold copiedSize
      unfold bufferSize at hinside
      dsimp only at hinside
      omega
    · have hinside := hdeployed.writesInside _ (ht.writes_eq ▸ hlast)
      unfold copiedSize
      unfold bufferSize at hinside
      dsimp only at hinside
      omega
  · rintro ⟨hread, hwrite⟩
    unfold copiedSize at hread hwrite
    have hsize : u32 (packSize source) = packSize source := u32_of_lt (by omega)
    rw [hsize] at ht
    have hinside : ∀ range ∈ parts ((packSize source + 255) / 256),
        range.1 + range.2 ≤ source.size ∧ range.1 + range.2 ≤ destination.size := by
      intro range hrange
      obtain ⟨turn, hturn, rfl⟩ := mem_parts.mp hrange
      unfold bufferSize
      dsimp only
      omega
    constructor
    · exact ⟨.done, hnotified⟩
    · intro range hrange
      change range ∈ t.reads at hrange
      rw [ht.reads_eq, List.mem_cons] at hrange
      rcases hrange with rfl | hrange
      · dsimp only
        omega
      · exact (hinside range hrange).1
    · intro range hrange
      change range ∈ t.writes at hrange
      rw [ht.writes_eq] at hrange
      exact (hinside range hrange).2
    · intro _
      constructor
      · refine read_congr fun address _ haddress => ?_
        change t.destination.memory address = _
        rw [ht.copied address (by omega), if_pos (by unfold bufferSize; omega)]
      · change program t.source.memory 0 [deployed.toByte] 0 = _
        rw [program, if_pos ⟨le_rfl, Nat.zero_lt_one⟩, ht.source_eq, ← status_eq, hready]
        exact and_deployed
    · intro hlarge
      omega

/-- A pack is deployed if and only if it fits with its last buffer, or it is too large for the source even when its
size is truncated. -/
theorem deploys_deployed_iff (source destination : Device) :
    Deploys source destination (Deployed source destination) ↔ Fits source destination := by
  refine deploys_iff_of_ends (sequence_ends source destination) ?_
  intro s hends
  rw [Fits]
  have hsize := Nat.mod_le (packSize source) (2 ^ 32)
  by_cases hready : (headerOf source).status = readyToDeploy.toByte
  · rw [if_pos hready] at hends ⊢
    by_cases hfits : u32 (packSize source) ≤ source.size
    · rw [if_pos hfits] at hends
      rw [deployed_copied_iff hready hends, or_iff_left (by omega)]
      refine (and_iff_right_of_imp fun hcopied => ?_).symm
      have hpack : 16 ≤ packSize source := by
        unfold packSize
        omega
      unfold copiedSize at hcopied
      omega
    · rw [if_neg hfits] at hends
      rw [deployed_untouched_iff hends (by decide)]
      refine and_congr_right fun _ => iff_of_true (fun _ => rfl) (Or.inr (by omega))
  · rw [if_neg hready] at hends ⊢
    rw [deployed_untouched_iff hends (by decide)]
    refine and_congr_right fun _ => ?_
    constructor
    · intro hlarge
      by_contra hnot
      have hwrong := hlarge (by omega)
      cases hwrong
    · rintro hsmall hlarge
      omega

theorem nothingElse_copied_iff (hready : (headerOf source).status = readyToDeploy.toByte)
    (hread : copiedSize source ≤ source.size) (hwrite : copiedSize source ≤ destination.size)
    (h : Copied source destination s) : NothingElse source s ↔ BlankBehind source := by
  obtain ⟨t, ht, rfl⟩ := h
  have hsource := source.size_lt
  have hsize : u32 (packSize source) = packSize source := by
    refine u32_of_lt ?_
    unfold copiedSize at hread
    omega
  rw [hsize] at ht
  have hcopied (address : Nat) (haddress : address < destination.size) : t.destination.memory address =
      if address < copiedSize source then source.memory address else blank := by
    have hbytes := ht.copied address haddress
    rwa [bufferSize, Nat.mul_comm] at hbytes
  have hdone : (t.markDeployed.notify .done).notifications = [.done] := by
    change t.notifications ++ [.done] = _
    rw [ht.silent]
    rfl
  constructor
  · intro hnothing _ _ address hbehind hinside
    have hblank : t.destination.memory address = blank :=
      (hnothing hdone).1 address hbehind (ht.size_eq ▸ hinside.trans_le hwrite)
    rwa [hcopied address (hinside.trans_le hwrite), if_pos hinside] at hblank
  · intro hblank _
    constructor
    · intro address hbehind haddress
      change t.destination.memory address = blank
      change address < t.destination.size at haddress
      rw [hcopied address (ht.size_eq ▸ haddress)]
      split_ifs with hinside
      · exact hblank hready hread address hbehind hinside
      · rfl
    · intro address hne
      change program t.source.memory 0 [deployed.toByte] address = _
      rw [program, List.length_singleton, if_neg (by omega), ht.source_eq]

/-- Nothing but the pack is copied if and only if the rest of its last buffer is blank. -/
theorem deploys_nothingElse_iff (hfits : Fits source destination) :
    Deploys source destination (NothingElse source) ↔ BlankBehind source := by
  refine deploys_iff_of_ends (sequence_ends source destination) ?_
  intro s hends
  have huntouched {notification : Notification} (h : Untouched source destination notification s)
      (hnotification : notification ≠ .done) : NothingElse source s := by
    intro hdone
    rw [h.notifies] at hdone
    exact absurd (List.cons.inj hdone).1 hnotification
  obtain ⟨-, hfits⟩ := hfits
  by_cases hready : (headerOf source).status = readyToDeploy.toByte
  · rw [if_pos hready] at hends hfits
    by_cases hsmall : u32 (packSize source) ≤ source.size
    · rw [if_pos hsmall] at hends
      obtain ⟨hread, hwrite⟩ := hfits.resolve_right (by omega)
      exact nothingElse_copied_iff hready hread hwrite hends
    · rw [if_neg hsmall] at hends
      refine iff_of_true (huntouched hends (by decide)) ?_
      intro _ hread
      have hsize := Nat.mod_le (packSize source) (2 ^ 32)
      unfold copiedSize at hread
      unfold u32 at hsmall
      omega
  · rw [if_neg hready] at hends
    exact iff_of_true (huntouched hends (by decide)) fun hready' => absurd hready' hready

/-- **A pack is deployed as promised** if and only if it fits with its last buffer, or it is too large for the source
even when its size is truncated; and nothing else is copied if and only if the rest of that buffer is blank. -/
theorem deploys_iff (source destination : Device) :
    (Deploys source destination (Deployed source destination) ↔ Fits source destination) ∧
      (Fits source destination → (Deploys source destination (NothingElse source) ↔ BlankBehind source)) :=
  ⟨deploys_deployed_iff source destination, deploys_nothingElse_iff⟩

/-! ## Devices -/

/-- A flash with a header that is ready to deploy, and no contents. -/
def readyDevice (size : Nat) (hsize : size < 2 ^ 32) : Device where
  size := size
  size_lt := hsize
  memory := fun address => if address = 0 then readyToDeploy.toByte else 0

theorem deploys_one_buffer :
    Deploys (readyDevice 256 (by decide)) (readyDevice 256 (by decide))
        (Deployed (readyDevice 256 (by decide)) (readyDevice 256 (by decide))) ∧
      ¬ Deploys (readyDevice 256 (by decide)) (readyDevice 256 (by decide))
        (NothingElse (readyDevice 256 (by decide))) := by
  have hfits : Fits (readyDevice 256 (by decide)) (readyDevice 256 (by decide)) := by
    rw [Fits]
    decide
  constructor
  · exact (deploys_iff _ _).1.mpr hfits
  · rw [(deploys_iff _ _).2 hfits]
    intro hblank
    have hbyte := hblank rfl (by decide) 16 (by decide) (by decide)
    exact absurd hbyte (by decide)

/-- The header alone fits in flashes of 16 bytes, but a whole buffer is read. -/
theorem not_deploys_last_buffer :
    packSize (readyDevice 16 (by decide)) = 16 ∧
      ¬ Deploys (readyDevice 16 (by decide)) (readyDevice 16 (by decide))
        (Deployed (readyDevice 16 (by decide)) (readyDevice 16 (by decide))) := by
  refine ⟨by decide, ?_⟩
  rw [deploys_deployed_iff, Fits]
  decide

/-- **A stored pack that fits is stored in the destination afterwards**, and deployed in the source. -/
theorem deploys_stored {b : UpgradePackBuilder} (h : b.Stored source.memory)
    (hsource : copiedSize source ≤ source.size) (hdestination : copiedSize source ≤ destination.size) :
    Deploys source destination fun s => s.notifications = [.done] ∧ b.Stored s.destination.memory ∧
      s.source.memory 0 = deployed.toByte := by
  have hready : (headerOf source).status = readyToDeploy.toByte := h.status_eq
  have hsize : packSize source = b.upgradePack.length := by
    have hheader : headerOf source = b.prologue := h.prologue_eq
    rw [packSize, hheader, h.signedContentsLength_toNat, b.signatureLength_toNat, b.length_upgradePack]
    omega
  have hfits : u32 (packSize source) ≤ source.size := by
    rw [u32_of_lt (hsize ▸ h.length_lt)]
    unfold copiedSize at hsource
    omega
  intro buffer
  obtain ⟨pauses, s, hruns, hends⟩ := sequence_ends source destination buffer
  rw [if_pos hready, if_pos hfits] at hends
  have hdeployed := (deployed_copied_iff hready hends).mpr ⟨hsource, hdestination⟩
  have hdone : s.notifications = [.done] := by
    obtain ⟨t, ht, rfl⟩ := hends
    exact congrArg (· ++ [Notification.done]) ht.silent
  obtain ⟨hcopied, hstatus⟩ := hdeployed.copied hdone
  rw [hsize, h.read_eq] at hcopied
  exact ⟨pauses, s, hruns, hdone, ⟨hcopied, h.length_lt⟩, hstatus⟩

/-- An image of 40 bytes, with which a pack is larger than a buffer. -/
def largeInput : Input :=
  .binary
    { targetName := [0x69, 0x6d, 0x67], targetName_le := by decide, destinationAddress := 0
      contents := List.replicate 40 0x5a, imageSecurity := imageEncryptorNone }

theorem deploys_stored_image :
    let device : Device := ⟨512, by decide, burned (packFor [0x41] [largeInput])⟩
    256 < packSize device ∧
      Deploys device device fun s => s.notifications = [.done] ∧
        (packFor [0x41] [largeInput]).Stored s.destination.memory ∧
        s.source.memory 0 = deployed.toByte :=
  ⟨by decide +kernel, deploys_stored (stored_packFor (by decide)) (by decide +kernel) (by decide +kernel)⟩

end EmbeddedInfra.Upgrade.DeployPackToExternal
