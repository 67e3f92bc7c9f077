import EmbeddedInfra.Services.ConfigurationStore

set_option autoImplicit false

/-! # What a configuration store keeps through power failures

Between two writes the active blob is erased and the inactive blob holds what was written last.
While a write is busy the inactive blob stays as it is until the active one is complete, and
recovery takes either of them. `FlashInv` follows the two blobs through `Write` and `Recover`; it
holds after every event, and after power is lost in the middle of any flash operation.
-/

namespace EmbeddedInfra.ConfigurationStore

open NorMemory Store
open Function (update update_eq_self update_of_ne update_self)

variable {T : Type} {m : Memory} {success : Bool} {c : T} {s : Store T}

/-! ## What the log says about the flash -/

/-- The configuration that is being written: the last blob write that was started has not been
completed, and no recovery has completed since. -/
def beingWritten : List (Entry T) → Option T
  | [] => none
  | .blobWriteStarted w :: _ => some w.configuration
  | .blobWriteDone :: _ => none
  | .recovered _ _ :: _ => none
  | .writeCalled _ _ :: log => beingWritten log
  | .invoked _ :: log => beingWritten log
  | .powerLost :: log => beingWritten log

/-- What is known to be in flash. -/
inductive Persisted (T : Type) where
  /-- nothing is known before the first recovery -/
  | unknown
  /-- the configuration that the last recovery delivered, if any -/
  | delivered (c : Option T)
  /-- the configuration of the last completed write -/
  | written (c : T)

def Persisted.configuration : Persisted T → Option T
  | .unknown => none
  | .delivered c => c
  | .written c => some c

def persisted : List (Entry T) → Persisted T
  | [] => .unknown
  | .blobWriteDone :: log => ((beingWritten log).map .written).getD (persisted log)
  | .recovered success c :: _ => .delivered (if success then some c else none)
  | .blobWriteStarted _ :: log => persisted log
  | .writeCalled _ _ :: log => persisted log
  | .invoked _ :: log => persisted log
  | .powerLost :: log => persisted log

/-! ## The invariant -/

/-- The other blob. -/
def BlobId.other : BlobId → BlobId
  | .blob1 => .blob2
  | .blob2 => .blob1

theorem BlobId.other_ne (b : BlobId) : b.other ≠ b := by cases b <;> decide

@[simp] theorem BlobId.other_other (b : BlobId) : b.other.other = b := by cases b <;> rfl

section

variable (U : Setup T)

/-- What `Recover` finds in a flash. -/
def found (m : Memory) : Option (List UInt8) := contents U.platform (read m 0 U.blobSize)

/-- A flash is erased as far as the buffer reaches. -/
def Blank (m : Memory) : Prop := read m 0 U.blobSize = List.replicate U.blobSize blank

/-- What is found in a flash is what is known to be there. -/
def Agrees (r : Option (List UInt8)) : Persisted T → Prop
  | .unknown => True
  | .delivered c => r.map U.message.deserialize = c
  | .written c => r = some (U.message.serialize c)

/-- What is found is what was persisted last, or what is being written. -/
def Candidate (r : Option (List UInt8)) (log : List (Entry T)) : Prop :=
  Agrees U r (persisted log) ∨ ∃ c, beingWritten log = some c ∧ r = some (U.message.serialize c)

/-- `Recover` prefers the first blob. -/
def recoverable (flash : BlobId → Memory) : Option (List UInt8) :=
  (found U (flash .blob1)).or (found U (flash .blob2))

/-- The phases of a store, by the flash operation that is busy. -/
inductive Phase (s : Store T) : Prop where
  | idle
      (hp : s.pending = none) (hw : s.writingBlob = false)
      (ha : Blank U (s.flash s.activeBlob)) (hb : beingWritten s.log = none)
      (hi : Agrees U (found U (s.flash s.inactiveBlob)) (persisted s.log))
  | writing (c : T)
      (hp : s.pending = some (.write, s.activeBlob)) (hw : s.writingBlob = true)
      (ha : Blank U (s.flash s.activeBlob)) (hb : beingWritten s.log = some c)
      (hc : contents U.platform s.blob = some (U.message.serialize c))
      (hi : Agrees U (found U (s.flash s.inactiveBlob)) (persisted s.log))
  | erasing (c : T)
      (hp : s.pending = some (.eraseAfterWrite, s.inactiveBlob)) (hw : s.writingBlob = true)
      (hb : beingWritten s.log = some c)
      (hc : found U (s.flash s.activeBlob) = some (U.message.serialize c))
      (hi : Agrees U (found U (s.flash s.inactiveBlob)) (persisted s.log))
  | recoveringFirst
      (hp : s.pending = some (.recoverFirst, s.activeBlob)) (hw : s.writingBlob = false)
      (hr : s.writeRequested = false) (hb1 : s.activeBlob = .blob1)
      (hc : Candidate U (recoverable U s.flash) s.log)
  | recoveringSecond
      (hp : s.pending = some (.recoverSecond, s.activeBlob)) (hw : s.writingBlob = false)
      (hr : s.writeRequested = false) (hb2 : s.activeBlob = .blob2)
      (hn : found U (s.flash .blob1) = none)
      (hc : Candidate U (recoverable U s.flash) s.log)
  | recoveringErase (success : Bool)
      (hp : s.pending = some (.eraseAfterRecover success, s.inactiveBlob))
      (hw : s.writingBlob = false) (hr : s.writeRequested = false)
      (hs : found U (s.flash s.activeBlob) = if success then
        some (currentBlob s.blob (s.currentSize s.activeBlob)) else none)
      (hn : s.activeBlob = .blob1 ∧ success = true ∨
        s.activeBlob = .blob2 ∧ found U (s.flash .blob1) = none)
      (hc : Candidate U (recoverable U s.flash) s.log)

/-- A recovery succeeds once a write has completed, and delivers what was persisted last or what
was being written. Nothing is asked of the first recovery. -/
def GoodRecovery (success : Bool) (c : T) (earlier : List (Entry T)) : Prop :=
  (.blobWriteDone ∈ earlier → success = true) ∧
  (success = true → (∃ b c', .recovered b c' ∈ earlier) →
    (persisted earlier).configuration = some c ∨ beingWritten earlier = some c)

/-- The invariant of the two blobs. -/
structure FlashInv (s : Store T) : Prop where
  length : s.blob.length = U.blobSize
  other : s.inactiveBlob = s.activeBlob.other
  phase : Phase U s
  /-- every blob write started without locks, on an idle flash, on an erased blob -/
  starts : ∀ w, Entry.blobWriteStarted w ∈ s.log →
    w.lockCount = 0 ∧ w.busy = false ∧ w.erased = true
  /-- once a write has completed, a configuration is known to be in flash -/
  acknowledged : Entry.blobWriteDone ∈ s.log → (persisted s.log).configuration.isSome
  recoveries : ∀ later success c earlier, s.log = later ++ .recovered success c :: earlier →
    GoodRecovery success c earlier

end

/-! ## Flash contents -/

variable {b : BlobId}

section

variable {U : Setup T}

theorem length_serialize_le (c : T) {blob : List UInt8} (h : blob.length = U.blobSize) :
    12 + (U.message.serialize c).length ≤ blob.length := by
  have := U.message.length_serialize c
  simp only [h, Setup.blobSize, sizeofHeader]
  omega

theorem read_program_whole {blob : List UInt8} (hm : Blank U m)
    (hl : blob.length = U.blobSize) : read (program m 0 blob) 0 U.blobSize = blob := by
  have hm' : read m 0 U.blobSize = [] ++ List.replicate U.blobSize blank := hm
  simpa [hl] using read_program_blank hm' rfl (Nat.le_of_eq hl)

theorem blank_erase (m : Memory) (b : BlobId) : Blank U (erase m 0 (U.totalSize b)) :=
  read_erase m 0 (U.fits b)

theorem isErased_iff : s.isErased U b = true ↔ Blank U (s.flash b) :=
  beq_iff_eq

theorem recoverable_of_none {flash : BlobId → Memory}
    (h : found U (flash b) = none) : recoverable U flash = found U (flash b.other) := by
  cases b with
  | blob1 => rw [recoverable, h]; rfl
  | blob2 => rw [recoverable, h, Option.or_none]; rfl

/-- Recovery takes one of the two blobs. -/
theorem recoverable_eq (flash : BlobId → Memory) (b : BlobId) :
    recoverable U flash = found U (flash b) ∨ recoverable U flash = found U (flash b.other) := by
  unfold recoverable
  cases b <;> cases h : found U (flash .blob1) <;> simp [BlobId.other, h]

end

/-! ## The phase is known from the operation that is busy -/

section

variable {U : Setup T} {s : Store T} {b : BlobId}

theorem Phase.of_idle (h : Phase U s) (hp : s.pending = none) :
    Blank U (s.flash s.activeBlob) ∧ beingWritten s.log = none ∧
    Agrees U (found U (s.flash s.inactiveBlob)) (persisted s.log) := by
  cases h with
  | idle _ _ ha hb hi => exact ⟨ha, hb, hi⟩
  | _ => simp_all

theorem Phase.of_write (h : Phase U s) (hp : s.pending = some (.write, b)) :
    b = s.activeBlob ∧ s.writingBlob = true ∧ Blank U (s.flash s.activeBlob) ∧
    ∃ c, beingWritten s.log = some c ∧
      contents U.platform s.blob = some (U.message.serialize c) ∧
      Agrees U (found U (s.flash s.inactiveBlob)) (persisted s.log) := by
  cases h with
  | writing c hp' hw ha hb hc hi =>
      exact ⟨by simpa using hp.symm.trans hp', hw, ha, c, hb, hc, hi⟩
  | _ => simp_all

theorem Phase.of_eraseAfterWrite (h : Phase U s) (hp : s.pending = some (.eraseAfterWrite, b)) :
    b = s.inactiveBlob ∧ ∃ c, beingWritten s.log = some c ∧
      found U (s.flash s.activeBlob) = some (U.message.serialize c) := by
  cases h with
  | erasing c hp' hw hb hc hi => exact ⟨by simpa using hp.symm.trans hp', c, hb, hc⟩
  | _ => simp_all

theorem Phase.of_recoverFirst (h : Phase U s) (hp : s.pending = some (.recoverFirst, b)) :
    b = s.activeBlob ∧ s.writingBlob = false ∧ s.writeRequested = false ∧
    s.activeBlob = .blob1 ∧ Candidate U (recoverable U s.flash) s.log := by
  cases h with
  | recoveringFirst hp' hw hr hb1 hc => exact ⟨by simpa using hp.symm.trans hp', hw, hr, hb1, hc⟩
  | _ => simp_all

theorem Phase.of_recoverSecond (h : Phase U s) (hp : s.pending = some (.recoverSecond, b)) :
    b = s.activeBlob ∧ s.writingBlob = false ∧ s.writeRequested = false ∧
    s.activeBlob = .blob2 ∧ found U (s.flash .blob1) = none ∧
    Candidate U (recoverable U s.flash) s.log := by
  cases h with
  | recoveringSecond hp' hw hr hb2 hn hc =>
      exact ⟨by simpa using hp.symm.trans hp', hw, hr, hb2, hn, hc⟩
  | _ => simp_all

theorem Phase.of_eraseAfterRecover (h : Phase U s)
    (hp : s.pending = some (.eraseAfterRecover success, b)) :
    b = s.inactiveBlob ∧ s.writingBlob = false ∧
    (found U (s.flash s.activeBlob) = if success then
      some (currentBlob s.blob (s.currentSize s.activeBlob)) else none) ∧
    (s.activeBlob = .blob1 ∧ success = true ∨
      s.activeBlob = .blob2 ∧ found U (s.flash .blob1) = none) ∧
    Candidate U (recoverable U s.flash) s.log := by
  cases h with
  | recoveringErase success' hp' hw hr hs hn hc =>
      obtain ⟨rfl, rfl⟩ : success = success' ∧ b = s.inactiveBlob := by
        simpa using hp.symm.trans hp'
      exact ⟨rfl, hw, hs, hn, hc⟩
  | _ => simp_all

theorem FlashInv.active_ne (h : FlashInv U s) : s.activeBlob ≠ s.inactiveBlob := by
  rw [h.other]
  exact (BlobId.other_ne _).symm

end

/-! ## The invariant is kept by every event -/

section

variable {U : Setup T} {s : Store T}

theorem write_held {d : Option Callback} (h : s.writingBlob = true ∨ s.lockCount ≠ 0) :
    s.write U d = { s with onWriteDone := d.or s.onWriteDone, writeRequested := true } := by
  cases d <;> rcases h with h | h <;> simp [write, h]

theorem write_started {d : Option Callback} (hw : s.writingBlob = false) (hl : s.lockCount = 0) :
    s.write U d = serialize U s.activeBlob
      { s with onWriteDone := d.or s.onWriteDone, writeRequested := false, writingBlob := true } := by
  cases d <;> simp [write, hw, hl]

/-- The flash does not depend on the configuration, the locks and the callback; it depends on
`writeRequested` only before the store has been recovered. -/
theorem FlashInv.frame (h : FlashInv U s) (c : T) (f : Option Callback) (n : Nat) {r : Bool}
    (hr : s.isRecovered = true ∨ r = s.writeRequested) :
    FlashInv U { s with configuration := c, onWriteDone := f, lockCount := n,
                        writeRequested := r } := by
  refine { h with phase := ?_ }
  cases h.phase with
  | idle hp hw ha hb hi => exact .idle hp hw ha hb hi
  | writing c hp hw ha hb hc hi => exact .writing c hp hw ha hb hc hi
  | erasing c hp hw hb hc hi => exact .erasing c hp hw hb hc hi
  | recoveringFirst hp hw hr' hb1 hc =>
      have hn : r = s.writeRequested := hr.resolve_left (by simp [isRecovered, hp])
      exact .recoveringFirst hp hw (hn.trans hr') hb1 hc
  | recoveringSecond hp hw hr' hb2 hn' hc =>
      have hn : r = s.writeRequested := hr.resolve_left (by simp [isRecovered, hp])
      exact .recoveringSecond hp hw (hn.trans hr') hb2 hn' hc
  | recoveringErase success hp hw hr' hs hn' hc =>
      have hn : r = s.writeRequested := hr.resolve_left (by simp [isRecovered, hp])
      exact .recoveringErase success hp hw (hn.trans hr') hs hn' hc

/-- Entries that say nothing about the flash. -/
def Entry.IsNote : Entry T → Prop
  | .writeCalled _ _ => True
  | .invoked _ => True
  | _ => False

section

variable (h : FlashInv U s)
include h

/-- The recoveries stay good when an entry is added, a recovery only if it is a good one. -/
theorem FlashInv.recoveries_cons {e : Entry T}
    (he : ∀ success c, e = .recovered success c → GoodRecovery success c s.log)
    (later : List (Entry T)) (success : Bool) (c : T) (earlier : List (Entry T))
    (hsplit : e :: s.log = later ++ .recovered success c :: earlier) :
    GoodRecovery success c earlier := by
  rcases List.cons_eq_append_iff.mp hsplit with ⟨-, heq⟩ | ⟨later', -, heq⟩
  · obtain ⟨rfl, rfl⟩ := List.cons.inj heq
    exact he success c rfl
  · exact h.recoveries later' success c earlier heq

theorem FlashInv.record_note {e : Entry T} (he : e.IsNote) : FlashInv U (s.record e) := by
  have hb : beingWritten (e :: s.log) = beingWritten s.log := by cases e <;> first | rfl | cases he
  have hp' : persisted (e :: s.log) = persisted s.log := by cases e <;> first | rfl | cases he
  have hcand : ∀ r, Candidate U r s.log → Candidate U r (e :: s.log) := by
    intro r hr
    rwa [Candidate, hb, hp']
  refine ⟨h.length, h.other, ?_, ?_, ?_, ?_⟩
  · cases h.phase with
    | idle hp hw ha hb' hi => exact .idle hp hw ha (hb.trans hb') (hp' ▸ hi)
    | writing c hp hw ha hb' hc hi => exact .writing c hp hw ha (hb.trans hb') hc (hp' ▸ hi)
    | erasing c hp hw hb' hc hi => exact .erasing c hp hw (hb.trans hb') hc (hp' ▸ hi)
    | recoveringFirst hp hw hr hb1 hc => exact .recoveringFirst hp hw hr hb1 (hcand _ hc)
    | recoveringSecond hp hw hr hb2 hn hc => exact .recoveringSecond hp hw hr hb2 hn (hcand _ hc)
    | recoveringErase success hp hw hr hs hn hc =>
        exact .recoveringErase success hp hw hr hs hn (hcand _ hc)
  · intro w hw
    refine h.starts w ((List.mem_cons.mp hw).resolve_left ?_)
    rintro rfl
    exact he
  · intro hd
    show (persisted (e :: s.log)).configuration.isSome
    rw [hp']
    refine h.acknowledged ((List.mem_cons.mp hd).resolve_left ?_)
    rintro rfl
    exact he
  · apply h.recoveries_cons
    rintro success c rfl
    exact he.elim

/-- `Write` on an idle store without locks. -/
theorem FlashInv.started (hp : s.pending = none) (hl : s.lockCount = 0)
    (f : Option Callback) :
    FlashInv U (serialize U s.activeBlob
      { s with onWriteDone := f, writeRequested := false, writingBlob := true }) := by
  have hlen := length_serialize_le (U := U) s.configuration h.length
  obtain ⟨ha, hb, hi⟩ := h.phase.of_idle hp
  refine ⟨(length_image hlen).trans h.length, h.other, ?_, ?_, ?_, ?_⟩
  · have h32 : s.blob.length < 2 ^ 32 := h.length.trans_lt U.message.fits
    exact .writing s.configuration rfl rfl ha rfl (contents_image hlen h32) hi
  · intro w hw
    rcases List.mem_cons.mp hw with heq | hw
    · cases heq
      exact ⟨hl, by simp [hp], isErased_iff.mpr ha⟩
    · exact h.starts w hw
  · intro hd
    exact h.acknowledged ((List.mem_cons.mp hd).resolve_left (by simp))
  · exact h.recoveries_cons nofun

/-- A recovered store that is not writing is idle. -/
theorem FlashInv.pending_eq_none (hr : s.isRecovered = true)
    (hw : s.writingBlob = false) : s.pending = none := by
  cases h.phase with
  | idle hp => exact hp
  | writing c _ hw' => rw [hw] at hw'; cases hw'
  | erasing c _ hw' => rw [hw] at hw'; cases hw'
  | recoveringFirst hp => simp [isRecovered, hp] at hr
  | recoveringSecond hp => simp [isRecovered, hp] at hr
  | recoveringErase success hp => simp [isRecovered, hp] at hr

theorem FlashInv.write (hr : s.isRecovered = true) (d : Option Callback) :
    FlashInv U (s.write U d) := by
  by_cases hheld : s.writingBlob = true ∨ s.lockCount ≠ 0
  · rw [write_held hheld]
    exact h.frame s.configuration _ s.lockCount (.inl hr)
  · have hw : s.writingBlob = false := by simpa using fun hc => hheld (.inl hc)
    have hl : s.lockCount = 0 := by simpa using fun hc => hheld (.inr hc)
    rw [write_started hw hl]
    exact h.started (h.pending_eq_none hr hw) hl _

theorem FlashInv.callOnWriteDone : FlashInv U s.callOnWriteDone := by
  unfold Store.callOnWriteDone
  cases s.onWriteDone with
  | none => exact h
  | some f =>
      exact FlashInv.record_note (h.frame s.configuration none s.lockCount (.inr rfl)) trivial

/-- A write can be held only by a store that has been recovered. -/
theorem FlashInv.isRecovered_of_writeRequested (hreq : s.writeRequested = true) :
    s.isRecovered = true := by
  cases h.phase with
  | recoveringFirst _ _ hr => rw [hr] at hreq; cases hreq
  | recoveringSecond _ _ hr => rw [hr] at hreq; cases hreq
  | recoveringErase success _ _ hr => rw [hr] at hreq; cases hreq
  | idle hp => simp [isRecovered, hp]
  | writing c hp => simp [isRecovered, hp]
  | erasing c hp => simp [isRecovered, hp]

theorem FlashInv.release : FlashInv U (s.release U) := by
  have hframe := h.frame s.configuration s.onWriteDone ((s.lockCount + (2 ^ 32 - 1)) % 2 ^ 32)
    (r := s.writeRequested) (.inr rfl)
  simp only [Store.release, Store.unlocked]
  split
  · split
    · rename_i hreq
      exact hframe.write (hframe.isRecovered_of_writeRequested hreq) none
    · exact hframe
  · exact hframe

end

/-- The store at the end of a blob write, before `BlobWriteDone` looks at the requests. -/
def Store.finish (U : Setup T) (b : BlobId) (s : Store T) : Store T :=
  { (s.eraseBlob U b).swap with writingBlob := false }.record .blobWriteDone

theorem blobWriteDone_eq (b : BlobId) : (s.eraseBlob U b).blobWriteDone U =
    if s.writeRequested then (s.finish U b).write U none else (s.finish U b).callOnWriteDone := rfl

/-- The blobs have changed roles and the old contents are gone. -/
theorem FlashInv.finish (h : FlashInv U s) (hp : s.pending = some (.eraseAfterWrite, b)) :
    FlashInv U (s.finish U b) := by
  obtain ⟨rfl, c, hb, hc⟩ := h.phase.of_eraseAfterWrite hp
  have hwritten : persisted (Entry.blobWriteDone :: s.log) = .written c := by
    simp [persisted, hb]
  refine ⟨h.length, ?_, ?_, ?_, ?_, ?_⟩
  · show s.activeBlob = s.inactiveBlob.other
    rw [h.other, BlobId.other_other]
  · refine .idle rfl rfl ?_ rfl ?_
    · show Blank U (update s.flash s.inactiveBlob _ s.inactiveBlob)
      rw [update_self]
      exact blank_erase _ _
    · show Agrees U (found U (update s.flash s.inactiveBlob _ s.activeBlob))
        (persisted (Entry.blobWriteDone :: s.log))
      rw [update_of_ne h.active_ne, hwritten]
      exact hc
  · intro w hw
    exact h.starts w ((List.mem_cons.mp hw).resolve_left (by simp))
  · intro _
    show (persisted (Entry.blobWriteDone :: s.log)).configuration.isSome
    rw [hwritten]
    rfl
  · exact h.recoveries_cons nofun

theorem FlashInv.blobWriteDone (h : FlashInv U s) (hp : s.pending = some (.eraseAfterWrite, b)) :
    FlashInv U ((s.eraseBlob U b).blobWriteDone U) := by
  rw [blobWriteDone_eq]
  split
  · exact (h.finish hp).write rfl none
  · exact (h.finish hp).callOnWriteDone

/-- The active blob has been written; the inactive one is going to be erased. -/
theorem FlashInv.written (h : FlashInv U s) (hp : s.pending = some (.write, b)) :
    FlashInv U (eraseInactive .eraseAfterWrite
      { s with flash := update s.flash b (program (s.flash b) 0 s.blob) }) := by
  obtain ⟨rfl, hw, ha, c, hb, hc, hi⟩ := h.phase.of_write hp
  refine { h with phase := ?_ }
  refine .erasing c rfl hw hb ?_ ?_
  · show found U (update s.flash s.activeBlob (program (s.flash s.activeBlob) 0 s.blob)
      s.activeBlob) = some (U.message.serialize c)
    rw [update_self, found, read_program_whole ha h.length]
    exact hc
  · show Agrees U (found U (update s.flash s.activeBlob _ s.inactiveBlob)) _
    rw [update_of_ne h.active_ne.symm]
    exact hi

/-! ### Recovery -/

/-- `ReadBuffer` fills the buffer; the size is taken from the header of a valid blob. -/
theorem readBlob_eq (hlen : s.blob.length = U.blobSize) (b : BlobId) : ∃ blob currentSize,
    s.readBlob U b = { s with blob := blob, currentSize := currentSize } ∧
    blob.length = U.blobSize ∧
    found U (s.flash b) = if blobIsValid U.platform blob then
      some (currentBlob blob (currentSize b)) else none := by
  unfold readBlob
  simp only [found, contents, hlen]
  by_cases hv : blobIsValid U.platform (read (s.flash b) 0 U.blobSize) = true
  · refine ⟨_, _, if_pos hv, length_read _ _ _, ?_⟩
    rw [update_self]
  · exact ⟨_, s.currentSize, if_neg hv, length_read _ _ _, by rw [if_neg hv, if_neg hv]⟩

theorem FlashInv.recoverFirst (h : FlashInv U s)
    (hp : s.pending = some (.recoverFirst, b)) : FlashInv U (s.complete U) := by
  obtain ⟨rfl, hw, hr, hb1, hc⟩ := h.phase.of_recoverFirst hp
  obtain ⟨blob, size, hread, hlen, hfound⟩ := readBlob_eq (U := U) h.length s.activeBlob
  simp only [complete, hp, hread]
  by_cases hv : blobIsValid U.platform blob = true
  · rw [if_pos hv]
    rw [if_pos hv] at hfound
    refine { h with length := hlen, phase := ?_ }
    exact .recoveringErase true rfl hw hr hfound (.inl ⟨hb1, rfl⟩) hc
  · rw [if_neg hv]
    rw [if_neg hv] at hfound
    refine { h with length := hlen, other := ?_, phase := ?_ }
    · show s.activeBlob = s.inactiveBlob.other
      rw [h.other, BlobId.other_other]
    · refine .recoveringSecond rfl hw hr ?_ (hb1 ▸ hfound) hc
      show s.inactiveBlob = .blob2
      rw [h.other, hb1]
      rfl

theorem FlashInv.recoverSecond (h : FlashInv U s)
    (hp : s.pending = some (.recoverSecond, b)) : FlashInv U (s.complete U) := by
  obtain ⟨rfl, hw, hr, hb2, hn, hc⟩ := h.phase.of_recoverSecond hp
  obtain ⟨blob, size, hread, hlen, hfound⟩ := readBlob_eq (U := U) h.length s.activeBlob
  simp only [complete, hp, hread]
  refine { h with length := hlen, phase := ?_ }
  exact .recoveringErase _ rfl hw hr hfound (.inr ⟨hb2, hn⟩) hc

/-- The blob that recovery has chosen. -/
theorem recoverable_chosen {flash : BlobId → Memory}
    {bytes : List UInt8} (hs : found U (flash b) = if success then some bytes else none)
    (hn : b = .blob1 ∧ success = true ∨ b = .blob2 ∧ found U (flash .blob1) = none) :
    recoverable U flash = found U (flash b) := by
  rcases hn with ⟨rfl, rfl⟩ | ⟨rfl, hnone⟩
  · rw [recoverable, hs]
    rfl
  · rw [recoverable, hnone]
    rfl

theorem persisted_unknown {log : List (Entry T)} (h : persisted log = .unknown) (success : Bool)
    (c : T) : Entry.recovered success c ∉ log := by
  induction log with
  | nil => simp
  | cons e log ih =>
      cases e with
      | blobWriteDone =>
          cases hb : beingWritten log with
          | none => simpa [persisted, hb] using ih (by simpa [persisted, hb] using h)
          | some c => simp [persisted, hb] at h
      | recovered success c => simp [persisted] at h
      | _ => simpa using ih h

/-- What recovery delivers when `bytes` is what it found. -/
theorem goodRecovery {log : List (Entry T)} {bytes : List UInt8}
    (hc : Candidate U (if success then some bytes else none) log)
    (hack : Entry.blobWriteDone ∈ log → (persisted log).configuration.isSome)
    (hconf : success = true → c = U.message.deserialize bytes) : GoodRecovery success c log := by
  constructor
  · intro hdone
    have hsome := hack hdone
    rcases hc with hagree | ⟨c', -, hr⟩
    · cases success with
      | true => rfl
      | false =>
          cases hp : persisted log with
          | unknown => rw [hp] at hsome; cases hsome
          | delivered o => rw [hp] at hsome hagree; cases hagree; cases hsome
          | written o => rw [hp] at hagree; cases hagree
    · cases success with
      | true => rfl
      | false => cases hr
  · rintro rfl ⟨b, c', hmem⟩
    rw [hconf rfl]
    rcases hc with hagree | ⟨c'', hb, hr⟩
    · left
      cases hp : persisted log with
      | unknown => exact (persisted_unknown hp b c' hmem).elim
      | delivered o =>
          rw [hp] at hagree
          exact hagree.symm
      | written o =>
          rw [hp] at hagree
          obtain rfl : bytes = U.message.serialize o := by simpa [Agrees] using hagree
          rw [U.message.deserialize_serialize]
          rfl
    · right
      obtain rfl : bytes = U.message.serialize c'' := by simpa using hr
      rw [hb, U.message.deserialize_serialize]

/-- The state after `OnBlobLoaded` with the configuration `c`. -/
theorem FlashInv.delivered (h : FlashInv U s)
    (hp : s.pending = some (.eraseAfterRecover success, s.inactiveBlob))
    (hconf : success = true →
      c = U.message.deserialize (currentBlob s.blob (s.currentSize s.activeBlob))) :
    FlashInv U ({ (s.eraseBlob U s.inactiveBlob).swap with configuration := c }.record
      (.recovered success c)) := by
  obtain ⟨-, hw, hs, hn, hc⟩ := h.phase.of_eraseAfterRecover hp
  rw [recoverable_chosen hs hn, hs] at hc
  have hgood := goodRecovery hc h.acknowledged hconf
  refine ⟨h.length, ?_, ?_, ?_, ?_, ?_⟩
  · show s.activeBlob = s.inactiveBlob.other
    rw [h.other, BlobId.other_other]
  · refine .idle rfl hw ?_ rfl ?_
    · show Blank U (update s.flash s.inactiveBlob _ s.inactiveBlob)
      rw [update_self]
      exact blank_erase _ _
    · show (found U (update s.flash s.inactiveBlob _ s.activeBlob)).map
        U.message.deserialize = if success then some c else none
      rw [update_of_ne h.active_ne, hs]
      cases success with
      | false => rfl
      | true => rw [hconf rfl]; rfl
  · intro w hw
    exact h.starts w ((List.mem_cons.mp hw).resolve_left (by simp))
  · intro hdone
    have hdone' := (List.mem_cons.mp hdone).resolve_left (by simp)
    obtain rfl := hgood.1 hdone'
    rfl
  · apply h.recoveries_cons
    intro success' c' heq
    cases heq
    exact hgood

theorem FlashInv.loaded (h : FlashInv U s)
    (hp : s.pending = some (.eraseAfterRecover success, b)) : FlashInv U (s.complete U) := by
  obtain ⟨rfl, -⟩ := h.phase.of_eraseAfterRecover hp
  simp only [complete, hp]
  cases success with
  | true => exact h.delivered hp (fun _ => rfl)
  | false => exact h.delivered (c := s.configuration) hp (fun hf => by cases hf)

theorem FlashInv.complete (h : FlashInv U s) : FlashInv U (s.complete U) := by
  rcases hp : s.pending with _ | ⟨operation, b⟩
  · simpa [Store.complete, hp] using h
  · cases operation with
    | recoverFirst => exact h.recoverFirst hp
    | recoverSecond => exact h.recoverSecond hp
    | eraseAfterRecover success => exact h.loaded hp
    | write => simpa only [Store.complete, hp] using h.written hp
    | eraseAfterWrite => simpa only [Store.complete, hp] using h.blobWriteDone hp

theorem FlashInv.step (h : FlashInv U s) {e : Event T} (he : e.Allowed s) :
    FlashInv U (s.step U e) := by
  cases e with
  | change c => exact h.frame c s.onWriteDone s.lockCount (.inr rfl)
  | write d => exact (h.record_note (e := .writeCalled d s.onWriteDone) trivial).write he d
  | acquire => exact h.frame s.configuration s.onWriteDone _ (.inr rfl)
  | release => exact h.release
  | complete => exact h.complete

end

variable {U : Setup T}

theorem flashInv_fresh (flash : BlobId → Memory) (ram : Memory) (c : T) :
    FlashInv U (fresh U flash ram c).recover := by
  refine ⟨length_read _ _ _, rfl, ?_, fun w hw => ?_, fun hd => ?_, fun later _ _ _ hsplit => ?_⟩
  · exact .recoveringFirst rfl rfl rfl rfl (.inl trivial)
  · cases hw
  · cases hd
  · cases later <;> cases hsplit

/-! ## Losing power -/

/-- What an interrupted flash operation can leave in flash: what was there before, what the complete
operation leaves, or something that is not a valid blob. -/
def Torn (U : Setup T) (s : Store T) (left : Memory) : Prop :=
  match s.pending with
  | some (.write, b) =>
      left = s.flash b ∨ left = program (s.flash b) 0 s.blob ∨ found U left = none
  | some (.eraseAfterWrite, b) | some (.eraseAfterRecover _, b) =>
      left = s.flash b ∨ left = erase (s.flash b) 0 (U.totalSize b) ∨ found U left = none
  | _ => True

/-- The flash contents when power is lost during the operation that is busy. -/
def Store.flashLeft (s : Store T) (left : Memory) : BlobId → Memory :=
  match s.pending with
  | some (.write, b) | some (.eraseAfterWrite, b) | some (.eraseAfterRecover _, b) =>
      update s.flash b left
  | _ => s.flash

/-- Power is lost, and a new store is constructed on what is left in flash; its constructor calls
`Recover`. -/
def Store.losePower (U : Setup T) (left ram : Memory) (c : T) (s : Store T) : Store T :=
  { fresh U (s.flashLeft left) ram c with log := .powerLost :: s.log }.recover

/-- The states of a store that starts with any flash contents, and loses power any number of
times. -/
inductive Reachable (U : Setup T) : Store T → Prop where
  | start (flash : BlobId → Memory) (ram : Memory) (c : T) :
      Reachable U (fresh U flash ram c).recover
  | event {s : Store T} (hs : Reachable U s) (e : Event T) (he : e.Allowed s) :
      Reachable U (s.step U e)
  | powerLoss {s : Store T} (hs : Reachable U s) (left ram : Memory) (c : T) (hleft : Torn U s left) :
      Reachable U (s.losePower U left ram c)

section

variable {U : Setup T} {s : Store T}
  (hP : ∀ n, (U.platform.sha256 (List.replicate n blank)).take sizeofHash
    ≠ List.replicate sizeofHash blank) {left : Memory}

include hP

theorem found_of_blank (h : Blank U m) : found U m = none := by
  rw [found, h]
  exact contents_blank hP (by simp [Setup.blobSize, sizeofHeader])

/-- An interrupted erase leaves the blob as it was, or invalid. -/
theorem found_of_torn_erase
    (h : left = m ∨ left = erase m 0 (U.totalSize b) ∨ found U left = none) :
    left = m ∨ found U left = none := by
  rcases h with h | rfl | h
  · exact .inl h
  · exact .inr (found_of_blank hP (blank_erase _ _))
  · exact .inr h

theorem candidate_of_flashLeft (h : FlashInv U s) (ht : Torn U s left) :
    Candidate U (recoverable U (s.flashLeft left)) s.log := by
  have hne : s.activeBlob.other ≠ s.activeBlob := BlobId.other_ne _
  have hother := h.other
  cases h.phase with
  | idle hp hw ha hb hi =>
      left
      simp only [flashLeft, hp]
      rw [recoverable_of_none (found_of_blank hP ha), ← hother]
      exact hi
  | writing c hp hw ha hb hc hi =>
      simp only [flashLeft, hp]
      simp only [Torn, hp] at ht
      have hinactive : found U (update s.flash s.activeBlob left s.activeBlob.other)
          = found U (s.flash s.inactiveBlob) := by rw [update_of_ne hne, hother]
      -- the active blob is not valid, or it is complete
      have hactive : found U left = none ∨ found U left = some (U.message.serialize c) := by
        rcases ht with rfl | rfl | ht
        · exact .inl (found_of_blank hP ha)
        · exact .inr (by rw [found, read_program_whole ha h.length]; exact hc)
        · exact .inl ht
      rcases hactive with hnone | hsome
      · left
        rw [recoverable_of_none (b := s.activeBlob) (by rwa [update_self]), hinactive]
        exact hi
      · rcases recoverable_eq (U := U) (update s.flash s.activeBlob left) s.activeBlob
          with heq | heq
        · right
          exact ⟨c, hb, by rw [heq, update_self, hsome]⟩
        · left
          rw [heq, hinactive]
          exact hi
  | erasing c hp hw hb hc hi =>
      simp only [flashLeft, hp]
      simp only [Torn, hp] at ht
      have hactive : update s.flash s.inactiveBlob left s.activeBlob
          = s.flash s.activeBlob := update_of_ne (hother ▸ hne.symm) _ _
      rcases found_of_torn_erase hP ht with rfl | hnone
      · rw [update_eq_self]
        rcases recoverable_eq (U := U) s.flash s.activeBlob with heq | heq
        · exact .inr ⟨c, hb, heq.trans hc⟩
        · left
          rw [heq, ← hother]
          exact hi
      · right
        refine ⟨c, hb, ?_⟩
        rw [recoverable_of_none (b := s.inactiveBlob) (by rwa [update_self]), hother,
          BlobId.other_other, ← hother, hactive]
        exact hc
  | recoveringFirst hp hw hr hb1 hc => simpa only [flashLeft, hp] using hc
  | recoveringSecond hp hw hr hb2 hn hc => simpa only [flashLeft, hp] using hc
  | recoveringErase success hp hw hr hs hn hc =>
      simp only [flashLeft, hp]
      simp only [Torn, hp] at ht
      rcases found_of_torn_erase hP ht with rfl | hnone
      · rwa [update_eq_self]
      · rw [recoverable_chosen hs hn] at hc
        rw [recoverable_of_none (b := s.inactiveBlob) (by rwa [update_self]), hother,
          BlobId.other_other, ← hother, update_of_ne (hother ▸ hne.symm)]
        exact hc

theorem FlashInv.losePower (h : FlashInv U s) {ram : Memory} (ht : Torn U s left) :
    FlashInv U (s.losePower U left ram c) := by
  refine ⟨length_read _ _ _, rfl, ?_, ?_, ?_, ?_⟩
  · exact .recoveringFirst rfl rfl rfl rfl (candidate_of_flashLeft hP h ht)
  · intro w hw
    exact h.starts w ((List.mem_cons.mp hw).resolve_left (by simp))
  · intro hdone
    exact h.acknowledged ((List.mem_cons.mp hdone).resolve_left (by simp))
  · exact h.recoveries_cons nofun

theorem flashInv_of_reachable (h : Reachable U s) : FlashInv U s := by
  induction h with
  | start flash ram c => exact flashInv_fresh flash ram c
  | event hs e he ih => exact ih.step he
  | powerLoss hs left ram c hleft ih => exact ih.losePower hP hleft

end

/-! ## Recovery comes to an end -/

/-- The number of flash operations that `Recover` still needs. -/
def Store.recoverySteps (s : Store T) : Nat :=
  match s.pending with
  | some (.recoverFirst, _) => 3
  | some (.recoverSecond, _) => 2
  | some (.eraseAfterRecover _, _) => 1
  | _ => 0

theorem isRecovered_iff : s.isRecovered = true ↔ s.recoverySteps = 0 := by
  unfold isRecovered recoverySteps
  split <;> simp_all

theorem recoverySteps_write (h : s.recoverySteps = 0)
    (d : Option Callback) : (s.write U d).recoverySteps = 0 := by
  by_cases hheld : s.writingBlob = true ∨ s.lockCount ≠ 0
  · rw [write_held hheld]
    exact h
  · have hw : s.writingBlob = false := by simpa using fun hc => hheld (.inl hc)
    have hl : s.lockCount = 0 := by simpa using fun hc => hheld (.inr hc)
    rw [write_started hw hl]
    rfl

theorem recoverySteps_complete (s : Store T) :
    (s.complete U).recoverySteps ≤ s.recoverySteps - 1 := by
  rcases hp : s.pending with _ | ⟨operation, b⟩
  · simp [complete, recoverySteps, hp]
  · cases operation with
    | recoverFirst =>
        simp only [complete, hp]
        split <;> simp [recoverySteps, eraseInactive, recoverActive, hp]
    | recoverSecond => simp [complete, recoverySteps, eraseInactive, hp]
    | eraseAfterRecover success =>
        cases success <;> simp [complete, recoverySteps, onBlobLoaded,
          eraseBlob, swap, record, deserialize, hp]
    | write => simp [complete, recoverySteps, eraseInactive, hp]
    | eraseAfterWrite =>
        simp only [complete, hp, blobWriteDone]
        split
        · rw [recoverySteps_write rfl]
          exact Nat.zero_le _
        · unfold callOnWriteDone
          split <;> exact Nat.zero_le _

theorem isRecovered_complete (U : Setup T) (s : Store T) :
    ((complete U)^[3] s).isRecovered = true := by
  have h1 := recoverySteps_complete (U := U) s
  have h2 := recoverySteps_complete (U := U) (s.complete U)
  have h3 := recoverySteps_complete (U := U) ((s.complete U).complete U)
  have hle : s.recoverySteps ≤ 3 := by unfold recoverySteps; split <;> omega
  rw [isRecovered_iff]
  show (((s.complete U).complete U).complete U).recoverySteps = 0
  omega

/-- **Power-fail atomicity.** Take a store that starts on any flash contents and loses power any
number of times, at any point of a write or of a recovery. Every recovery ends after at most three
flash operations; once a write has completed it succeeds; after the first recovery it delivers
either what was persisted last (the configuration of the last completed write, or the one that a
later recovery delivered) or the configuration that was being written when power was lost. Every
blob that is written was erased before.

The hash must not confirm an erased blob. -/
theorem configuration_survives_power_loss (U : Setup T)
    (hP : ∀ n, (U.platform.sha256 (List.replicate n blank)).take sizeofHash
      ≠ List.replicate sizeofHash blank) (s : Store T) (hs : Reachable U s) :
    ((complete U)^[3] s).isRecovered = true ∧
    (∀ later success c earlier, s.log = later ++ .recovered success c :: earlier →
      (.blobWriteDone ∈ earlier → success = true) ∧
      (success = true → (∃ b c', .recovered b c' ∈ earlier) →
        (persisted earlier).configuration = some c ∨ beingWritten earlier = some c)) ∧
    (∀ w, .blobWriteStarted w ∈ s.log → w.erased = true) := by
  have h := flashInv_of_reachable hP hs
  exact ⟨isRecovered_complete U s, h.recoveries, fun w hw => (h.starts w hw).2.2⟩

/-! ## A configuration of one boolean -/

/-- `mbedtls_sha256` on the two messages that a boolean configuration leads to. -/
def sha256OfBool : List UInt8 → List UInt8
  | [2, 0, 0, 0, 8, 0] =>
    [0x37, 0xa1, 0x46, 0x4a, 0x8d, 0x82, 0x59, 0x3c, 0x55, 0x26, 0xea, 0x43,
    0x51, 0xdf, 0x7f, 0xcb, 0xf, 0x95, 0x2, 0xd6, 0xa3, 0xde, 0xc8, 0xb1,
    0xa2, 0x6d, 0xa4, 0xb9, 0xec, 0xdb, 0xe9, 0x38]
  | [2, 0, 0, 0, 8, 1] =>
    [0x23, 0x41, 0xb8, 0x6a, 0x34, 0x2b, 0x92, 0x25, 0x60, 0x74, 0xd7, 0xf4,
    0x83, 0x44, 0x2e, 0xff, 0x56, 0xc7, 0x5b, 0xb3, 0x44, 0xe9, 0x2e, 0x8f,
    0x82, 0x5f, 0xbd, 0xef, 0x35, 0xdd, 0x47, 0x8b]
  | _ => List.replicate 32 0

theorem length_sha256OfBool (m : List UInt8) : (sha256OfBool m).length = 32 := by
  unfold sha256OfBool
  split <;> rfl

/-- A message with one boolean field. -/
def boolSetup : Setup Bool where
  platform := ⟨64, by decide, sha256OfBool, length_sha256OfBool⟩
  message := {
    maxMessageSize := 2
    serialize := fun c => [8, if c then 1 else 0]
    deserialize := fun bytes => bytes.getLast? == some 1
    fits := by decide
    length_serialize := fun _ => Nat.le_refl 2
    deserialize_serialize := by decide }
  totalSize := fun _ => 14
  fits := fun _ => by decide

theorem boolSetup_blank (n : Nat) : (boolSetup.platform.sha256 (List.replicate n blank)).take sizeofHash
    ≠ List.replicate sizeofHash blank := by
  show (sha256OfBool (List.replicate n blank)).take sizeofHash ≠ List.replicate sizeofHash blank
  unfold sha256OfBool
  split <;> decide

/-- A store on erased flash in which `true` has been written and the write of `false` has been
started. -/
def overwriting : Store Bool :=
  [.complete, .complete, .complete, .change true, .write none, .complete, .complete,
    .change false, .write none].foldl (step boolSetup)
      (fresh boolSetup (fun _ _ => blank) (fun _ => 0) false).recover

theorem reachable_overwriting : Reachable boolSetup overwriting := by
  have h0 := Reachable.start (U := boolSetup) (fun _ _ => blank) (fun _ => 0) false
  have h1 := ((h0.event .complete trivial).event .complete trivial).event .complete trivial
  have h2 := (h1.event (.change true) trivial).event (.write none) (by decide +kernel)
  have h3 := ((h2.event .complete trivial).event .complete trivial).event (.change false) trivial
  exact h3.event (.write none) (by decide +kernel)

/-- What is left when power is lost after six bytes of the write. -/
def tornBlob : Memory :=
  program (overwriting.flash overwriting.activeBlob) 0 (overwriting.blob.take 6)

/-- The store after power has been lost in the middle of the write, and it has been recovered. -/
def recoveredStore : Store Bool :=
  (complete boolSetup)^[3] (overwriting.losePower boolSetup tornBlob (fun _ => 0) false)

theorem reachable_recoveredStore : Reachable boolSetup recoveredStore := by
  have htorn : Torn boolSetup overwriting tornBlob := by
    have hp : overwriting.pending = some (.write, overwriting.activeBlob) := by decide +kernel
    simp only [Torn, hp]
    exact .inr (.inr (by decide +kernel))
  have h := reachable_overwriting.powerLoss tornBlob (fun _ => 0) false htorn
  exact ((h.event .complete trivial).event .complete trivial).event .complete trivial

/-- The write of `false` was interrupted, and `true` is delivered: it was written last. -/
theorem recoveredStore_configuration : ∃ earlier,
    recoveredStore.log = .recovered true true :: earlier ∧
    ((persisted earlier).configuration = some true ∨ beingWritten earlier = some true) ∧
    ∀ w, .blobWriteStarted w ∈ recoveredStore.log → w.erased = true := by
  obtain ⟨-, hrec, herased⟩ := configuration_survives_power_loss boolSetup boolSetup_blank
    recoveredStore reachable_recoveredStore
  have hlog : recoveredStore.log = [] ++ .recovered true true :: recoveredStore.log.tail := by
    rfl
  refine ⟨recoveredStore.log.tail, hlog, (hrec _ _ _ _ hlog).2 rfl ?_, herased⟩
  exact ⟨false, false, List.mem_of_getElem? (i := 6) rfl⟩

end EmbeddedInfra.ConfigurationStore
