import EmbeddedInfra.Services.ConfigurationStorePersistence

set_option autoImplicit false

/-! # Write requests and their completion

`Write` may be called while a blob write is busy and while locks exist; the request is then kept in
`writeRequested` until the blob write is done or the last lock is gone. The requests, and the
functions passed with them, are followed through any interleaving of calls, locks and flash
completions. A lock is a `LockGuard`; assigning one to another moves it between stores.
-/

namespace EmbeddedInfra.ConfigurationStore

open NorMemory Function

variable {T : Type}

/-! ## Requests in the log -/

/-- The function that an entry passes to the store. -/
@[simp] def Entry.passed : Entry T → Option Callback
  | .writeCalled onDone _ => onDone
  | _ => none

/-- The function that an entry calls. -/
@[simp] def Entry.calls : Entry T → Option Callback
  | .invoked f => some f
  | _ => none

/-- The function that a call of `Write` replaces before it has been called. -/
@[simp] def Entry.replaced : Entry T → Option Callback
  | .writeCalled (some _) waiting => waiting
  | _ => none

def passed (log : List (Entry T)) : List Callback := log.filterMap Entry.passed

def called (log : List (Entry T)) : List Callback := log.filterMap Entry.calls

def replaced (log : List (Entry T)) : List Callback := log.filterMap Entry.replaced

@[simp] theorem passed_cons (e : Entry T) (log : List (Entry T)) :
    passed (e :: log) = e.passed.toList ++ passed log := by
  cases h : e.passed <;> rw [passed, List.filterMap_cons, h] <;> rfl

@[simp] theorem called_cons (e : Entry T) (log : List (Entry T)) :
    called (e :: log) = e.calls.toList ++ called log := by
  cases h : e.calls <;> rw [called, List.filterMap_cons, h] <;> rfl

@[simp] theorem replaced_cons (e : Entry T) (log : List (Entry T)) :
    replaced (e :: log) = e.replaced.toList ++ replaced log := by
  cases h : e.replaced <;> rw [replaced, List.filterMap_cons, h] <;> rfl

/-- The configuration `c` is being written, or is what was written last. -/
def Current (log : List (Entry T)) (c : T) : Prop :=
  beingWritten log = some c ∨ beingWritten log = none ∧ persisted log = .written c

/-- A blob write that is still busy was started after `f` had been passed. -/
def Awaited (f : Callback) (log : List (Entry T)) : Prop :=
  ∃ later w earlier, log = later ++ .blobWriteStarted w :: earlier ∧ .blobWriteDone ∉ later ∧
    f ∈ passed earlier

/-- The requests of a store, apart from the rule that decides when a request is held. -/
structure RequestCore (s : Store T) : Prop where
  quiet : s.isRecovered = false → s.log = [] ∧ s.onWriteDone = none
  /-- after every call of `Write` the request is held, or a blob write was started -/
  served : ∀ later d x earlier, s.log = later ++ .writeCalled d x :: earlier →
    s.writeRequested = true ∨
      ∃ w, .blobWriteStarted w ∈ later ∧ Current s.log w.configuration
  /-- a function that was passed has been called, is waiting, or has been replaced -/
  accounted : (passed s.log).Perm (called s.log ++ (s.onWriteDone.toList ++ replaced s.log))
  /-- a function that is waiting waits for a blob write -/
  waiting : ∀ f, s.onWriteDone = some f →
    f ∈ passed s.log ∧ (s.writeRequested = true ∨ s.writingBlob = true ∧ Awaited f s.log)
  /-- no function is called early -/
  order : ∀ later f earlier, s.log = later ++ .invoked f :: earlier →
    ∃ rest, earlier = .blobWriteDone :: rest ∧ Awaited f rest

/-- The requests of a store. -/
structure RequestInv (s : Store T) : Prop extends RequestCore s where
  held : s.writeRequested = true → s.writingBlob = true ∨ s.lockCount ≠ 0

/-! ## The invariant is kept by every event -/

variable {log : List (Entry T)}

section

variable {U : Setup T} {s : Store T}

/-- A position in a log with a new entry: the new entry itself, or a position in the old log. -/
theorem cons_split {later earlier : List (Entry T)} {e e' : Entry T}
    (h : e :: log = later ++ e' :: earlier) :
    (later = [] ∧ e' = e ∧ earlier = log) ∨ ∃ l, later = e :: l ∧ log = l ++ e' :: earlier := by
  rcases List.cons_eq_append_iff.mp h with ⟨rfl, heq⟩ | ⟨l, rfl, heq⟩
  · obtain ⟨rfl, rfl⟩ := List.cons.inj heq
    exact .inl ⟨rfl, rfl, rfl⟩
  · exact .inr ⟨l, rfl, heq⟩

theorem order_cons {e : Entry T} (he : ∀ f, e ≠ .invoked f)
    (h : ∀ later f earlier, log = later ++ .invoked f :: earlier →
      ∃ rest, earlier = .blobWriteDone :: rest ∧ Awaited f rest) :
    ∀ later f earlier, e :: log = later ++ .invoked f :: earlier →
      ∃ rest, earlier = .blobWriteDone :: rest ∧ Awaited f rest := by
  intro later f earlier hsplit
  rcases cons_split hsplit with ⟨-, heq, -⟩ | ⟨l, -, heq⟩
  · exact (he f heq.symm).elim
  · exact h l f earlier heq

/-- The store when `Write` has noted the request. -/
def Store.request (d : Option Callback) (s : Store T) : Store T :=
  { s.record (.writeCalled d s.onWriteDone) with
    onWriteDone := d.or s.onWriteDone, writeRequested := true }

theorem write_eq_request (d : Option Callback) :
    s.step U (.write d) = (s.request d).write U none := by
  by_cases hheld : s.writingBlob = true ∨ s.lockCount ≠ 0
  · rw [write_held (s := s.request d) hheld]
    exact write_held (s := s.record (.writeCalled d s.onWriteDone)) hheld
  · have hw : s.writingBlob = false := by simpa using fun hc => hheld (.inl hc)
    have hl : s.lockCount = 0 := by simpa using fun hc => hheld (.inr hc)
    rw [write_started (s := s.request d) hw hl]
    exact write_started (s := s.record (.writeCalled d s.onWriteDone)) hw hl

theorem RequestCore.request (h : RequestCore s) (hr : s.isRecovered = true) (d : Option Callback) :
    RequestCore (s.request d) := by
  refine ⟨?_, fun later d x earlier _ => .inl rfl, ?_, ?_, order_cons (by simp) h.order⟩
  · intro hf
    exact absurd (show s.isRecovered = false from hf) (by simp [hr])
  · show (passed (.writeCalled d s.onWriteDone :: s.log)).Perm
      (called (.writeCalled d s.onWriteDone :: s.log) ++ ((d.or s.onWriteDone).toList ++
        replaced (.writeCalled d s.onWriteDone :: s.log)))
    cases d with
    | none => simpa using h.accounted
    | some f => simpa using (h.accounted.cons f).trans List.perm_middle.symm
  · intro f hf
    refine ⟨?_, .inl rfl⟩
    show f ∈ passed (.writeCalled d s.onWriteDone :: s.log)
    cases d with
    | none => simpa using (h.waiting f hf).1
    | some g =>
        obtain rfl : g = f := by simpa [Store.request] using hf
        simp

/-- A request is noted; a blob write is started unless something is in the way. -/
theorem RequestCore.write (h : RequestCore s) (hreq : s.writeRequested = true) :
    RequestInv (s.write U none) := by
  by_cases hheld : s.writingBlob = true ∨ s.lockCount ≠ 0
  · have heq : s.write U none = s := by
      rw [write_held hheld, Option.none_or, ← hreq]
    rw [heq]
    exact ⟨h, fun _ => hheld⟩
  · have hw : s.writingBlob = false := by simpa using fun hc => hheld (.inl hc)
    have hl : s.lockCount = 0 := by simpa using fun hc => hheld (.inr hc)
    rw [write_started hw hl]
    refine ⟨⟨?_, ?_, ?_, ?_, order_cons (by simp) h.order⟩, fun hf => by cases hf⟩
    · intro hf
      cases hf
    · -- the blob write that starts now serves every request made so far
      intro later d x earlier hsplit
      rcases cons_split hsplit with ⟨-, heq, -⟩ | ⟨l, rfl, -⟩
      · cases heq
      · exact .inr ⟨_, List.mem_cons_self, .inl rfl⟩
    · simpa [Store.serialize, Store.record] using h.accounted
    · intro f hf
      have hf' := (h.waiting f (by simpa [Store.serialize, Store.record] using hf)).1
      refine ⟨?_, .inr ⟨rfl, [], _, s.log, rfl, by simp, hf'⟩⟩
      simpa [Store.serialize, Store.record] using hf'

theorem RequestInv.userWrite (h : RequestInv s) (hr : s.isRecovered = true) (d : Option Callback) :
    RequestInv (s.step U (.write d)) := by
  rw [write_eq_request]
  exact (h.toRequestCore.request hr d).write rfl

/-- The requests do not depend on the configuration and the locks. -/
theorem RequestCore.frame (h : RequestCore s) (c : T) (n : Nat) :
    RequestCore { s with configuration := c, lockCount := n } :=
  { h with }

theorem RequestInv.release (h : RequestInv s) : RequestInv (s.release U) := by
  have hframe := h.toRequestCore.frame s.configuration ((s.lockCount + (2 ^ 32 - 1)) % 2 ^ 32)
  simp only [Store.release, Store.unlocked]
  by_cases hl : (s.lockCount + (2 ^ 32 - 1)) % 2 ^ 32 = 0
  · rw [if_pos (by simpa using hl)]
    by_cases hreq : s.writeRequested = true
    · rw [if_pos hreq]
      exact hframe.write hreq
    · rw [if_neg hreq]
      exact ⟨hframe, fun hc => (hreq hc).elim⟩
  · rw [if_neg (by simpa using hl)]
    exact ⟨hframe, fun _ => .inr hl⟩

theorem RequestInv.acquire (h : RequestInv s) (hl : s.lockCount + 1 < 2 ^ 32) :
    RequestInv s.acquire := by
  refine ⟨h.toRequestCore.frame s.configuration _, fun _ => .inr ?_⟩
  show (s.lockCount + 1) % 2 ^ 32 ≠ 0
  rw [Nat.mod_eq_of_lt hl]
  exact Nat.succ_ne_zero _

/-- The end of a blob write, when another write has been requested. -/
theorem RequestCore.finish (h : RequestCore s) {b : BlobId} (hreq : s.writeRequested = true) :
    RequestCore (s.finish U b) := by
  refine ⟨?_, fun _ _ _ _ _ => .inl hreq, h.accounted, ?_, order_cons (by simp) h.order⟩
  · intro hf
    cases hf
  · exact fun f hf => ⟨(h.waiting f hf).1, .inl hreq⟩

section

variable (h : RequestCore s) {b : BlobId} {c : T} (hb : beingWritten s.log = some c)
  (hreq : s.writeRequested = false)

include h hb hreq

/-- When a blob write ends and no other has been requested, it serves all requests. -/
theorem RequestCore.served_finish {later earlier : List (Entry T)} {d x : Option Callback}
    (hsplit : (s.finish U b).log = later ++ .writeCalled d x :: earlier) :
    ∃ w, .blobWriteStarted w ∈ later ∧ w.configuration = c := by
  rcases cons_split hsplit with ⟨-, he, -⟩ | ⟨l, rfl, hl⟩
  · cases he
  · rcases h.served l d x earlier hl with hc | ⟨w, hw, hcur | ⟨hnone, -⟩⟩
    · rw [hreq] at hc
      cases hc
    · exact ⟨w, List.mem_cons_of_mem _ hw, Option.some.inj (hcur.symm.trans hb)⟩
    · rw [hb] at hnone
      cases hnone

/-- The end of a blob write, when no other write has been requested: the function that waits is
called. -/
theorem RequestCore.callOnWriteDone : RequestCore (s.finish U b).callOnWriteDone := by
  have hwritten : persisted (s.finish U b).log = .written c := by
    show persisted (.blobWriteDone :: s.log) = .written c
    simp [persisted, hb]
  cases hslot : s.onWriteDone with
  | none =>
      have heq : (s.finish U b).callOnWriteDone = s.finish U b := by
        unfold Store.callOnWriteDone
        rw [show (s.finish U b).onWriteDone = none from hslot]
      rw [heq]
      refine ⟨fun hf => (by cases hf), ?_, h.accounted, ?_, order_cons (by simp) h.order⟩
      · intro later d x earlier hsplit
        obtain ⟨w, hw, rfl⟩ := h.served_finish hb hreq hsplit
        exact .inr ⟨w, hw, .inr ⟨rfl, hwritten⟩⟩
      · intro f hf
        rw [show s.onWriteDone = some f from hf] at hslot
        cases hslot
  | some f =>
      have heq : (s.finish U b).callOnWriteDone
          = { s.finish U b with onWriteDone := none }.record (.invoked f) := by
        unfold Store.callOnWriteDone
        rw [show (s.finish U b).onWriteDone = some f from hslot]
      have hawaited : Awaited f s.log := by
        rcases (h.waiting f hslot).2 with hc | ⟨-, ha⟩
        · rw [hreq] at hc
          cases hc
        · exact ha
      rw [heq]
      refine ⟨fun hf => (by cases hf), ?_, ?_, fun g hg => (by cases hg), ?_⟩
      · intro later d x earlier hsplit
        rcases cons_split hsplit with ⟨-, he, -⟩ | ⟨l, rfl, hl⟩
        · cases he
        · obtain ⟨w, hw, rfl⟩ := h.served_finish hb hreq hl
          exact .inr ⟨w, List.mem_cons_of_mem _ hw, .inr ⟨rfl, hwritten⟩⟩
      · have hacc := h.accounted
        rw [hslot] at hacc
        exact hacc.trans List.perm_middle
      · intro later g earlier hsplit
        rcases cons_split hsplit with ⟨-, he, rfl⟩ | ⟨l, -, hl⟩
        · cases he
          exact ⟨s.log, rfl, hawaited⟩
        · exact order_cons (by simp) h.order l g earlier hl

end

theorem callOnWriteDone_writeRequested : s.callOnWriteDone.writeRequested = s.writeRequested := by
  unfold Store.callOnWriteDone
  split <;> rfl

theorem RequestInv.blobWriteDone (h : RequestInv s) (hflash : FlashInv U s) {b : BlobId}
    (hp : s.pending = some (.eraseAfterWrite, b)) :
    RequestInv ((s.eraseBlob U b).blobWriteDone U) := by
  rw [blobWriteDone_eq]
  obtain ⟨-, c, hb, -⟩ := hflash.phase.of_eraseAfterWrite hp
  cases hreq : s.writeRequested with
  | true => exact (h.toRequestCore.finish hreq).write hreq
  | false =>
      refine ⟨h.toRequestCore.callOnWriteDone hb hreq, fun hc => ?_⟩
      have hfalse : (s.finish U b).callOnWriteDone.writeRequested = false :=
        callOnWriteDone_writeRequested.trans hreq
      rw [show (s.finish U b).callOnWriteDone.writeRequested = true from hc] at hfalse
      cases hfalse

/-- A store that has not been asked anything. -/
theorem RequestInv.of_quiet (hlog : s.log = [] ∨ s.isRecovered = true ∧
      ∃ success c, s.log = [.recovered success c])
    (hslot : s.onWriteDone = none) (hreq : s.writeRequested = false) : RequestInv s := by
  have hmem : ∀ e ∈ s.log, ∃ success c, e = .recovered success c := by
    rcases hlog with h | ⟨-, success, c, h⟩ <;> simp [h]
  have hacc : passed s.log = [] ∧ called s.log = [] ∧ replaced s.log = [] := by
    rcases hlog with h | ⟨-, success, c, h⟩ <;> simp [h] <;> exact ⟨rfl, rfl, rfl⟩
  refine ⟨⟨?_, ?_, ?_, ?_, ?_⟩, fun hc => ?_⟩
  · intro hr
    refine ⟨hlog.resolve_right ?_, hslot⟩
    rintro ⟨hr', -⟩
    rw [hr] at hr'
    cases hr'
  · intro later d x earlier hsplit
    obtain ⟨success, c, he⟩ := hmem (.writeCalled d x) (by rw [hsplit]; simp)
    cases he
  · rw [hacc.1, hacc.2.1, hacc.2.2, hslot]
    exact .nil
  · intro f hf
    rw [hslot] at hf
    cases hf
  · intro later f earlier hsplit
    obtain ⟨success, c, he⟩ := hmem (.invoked f) (by rw [hsplit]; simp)
    cases he
  · rw [hreq] at hc
    cases hc

theorem readBlob_requests (b : BlobId) : (s.readBlob U b).log = s.log ∧
    (s.readBlob U b).onWriteDone = s.onWriteDone ∧
    (s.readBlob U b).writeRequested = s.writeRequested := by
  unfold Store.readBlob
  simp only
  split <;> exact ⟨rfl, rfl, rfl⟩

/-- Recovery does not touch the requests. -/
theorem complete_recovering (hr : s.isRecovered = false) :
    (s.complete U).onWriteDone = s.onWriteDone ∧
    (s.complete U).writeRequested = s.writeRequested ∧
    ((s.complete U).log = s.log ∨ (s.complete U).isRecovered = true ∧
      ∃ success c, (s.complete U).log = .recovered success c :: s.log) := by
  rcases hp : s.pending with _ | ⟨operation, b⟩
  · simp [Store.isRecovered, hp] at hr
  · obtain ⟨hlog, hslot, hreq⟩ := readBlob_requests (U := U) (s := s) b
    cases operation with
    | recoverFirst =>
        simp only [Store.complete, hp]
        split <;> exact ⟨hslot, hreq, .inl hlog⟩
    | recoverSecond =>
        simp only [Store.complete, hp]
        exact ⟨hslot, hreq, .inl hlog⟩
    | eraseAfterRecover success =>
        simp only [Store.complete, hp]
        cases success <;> exact ⟨rfl, rfl, .inr ⟨rfl, _, _, rfl⟩⟩
    | write => simp [Store.isRecovered, hp] at hr
    | eraseAfterWrite => simp [Store.isRecovered, hp] at hr

theorem RequestInv.complete (h : RequestInv s) (hflash : FlashInv U s) :
    RequestInv (s.complete U) := by
  cases hr : s.isRecovered with
  | false =>
      obtain ⟨hlog, hslot⟩ := h.quiet hr
      have hreq : s.writeRequested = false := by
        cases hc : s.writeRequested with
        | false => rfl
        | true => rw [hflash.isRecovered_of_writeRequested hc] at hr; cases hr
      obtain ⟨hslot', hreq', hlog'⟩ := complete_recovering (U := U) hr
      rw [hlog] at hlog'
      exact .of_quiet hlog' (hslot'.trans hslot) (hreq'.trans hreq)
  | true =>
      rcases hp : s.pending with _ | ⟨operation, b⟩
      · simpa [Store.complete, hp] using h
      · cases operation with
        | write =>
            simp only [Store.complete, hp]
            exact ⟨{ h with quiet := fun hf => (by cases hf) }, h.held⟩
        | eraseAfterWrite => simpa only [Store.complete, hp] using h.blobWriteDone hflash hp
        | _ => simp [Store.isRecovered, hp] at hr

theorem RequestInv.step (h : RequestInv s) (hflash : FlashInv U s) {e : Event T}
    (he : e.Allowed s) : RequestInv (s.step U e) := by
  cases e with
  | change c => exact ⟨h.toRequestCore.frame c s.lockCount, h.held⟩
  | write d => exact h.userWrite he d
  | acquire =>
      simp only [Event.Allowed] at he
      simp only [Store.step]
      exact h.acquire he
  | release =>
      simp only [Store.step]
      exact h.release
  | complete => exact h.complete hflash

end

/-! ## Lock guards -/

section

variable {U : Setup T} {s : Store T}

theorem write_lockCount (d : Option Callback) : (s.write U d).lockCount = s.lockCount := by
  by_cases hheld : s.writingBlob = true ∨ s.lockCount ≠ 0
  · rw [write_held hheld]
  · have hw : s.writingBlob = false := by simpa using fun hc => hheld (.inl hc)
    have hl : s.lockCount = 0 := by simpa using fun hc => hheld (.inr hc)
    rw [write_started hw hl]
    rfl

theorem complete_lockCount : (s.complete U).lockCount = s.lockCount := by
  rcases hp : s.pending with _ | ⟨operation, b⟩
  · simp [Store.complete, hp]
  · have hread : (s.readBlob U b).lockCount = s.lockCount := by
      unfold Store.readBlob
      simp only
      split <;> rfl
    cases operation with
    | recoverFirst =>
        simp only [Store.complete, hp]
        split <;> exact hread
    | recoverSecond =>
        simp only [Store.complete, hp]
        exact hread
    | eraseAfterRecover success =>
        simp only [Store.complete, hp]
        cases success <;> rfl
    | write =>
        simp only [Store.complete, hp]
        rfl
    | eraseAfterWrite =>
        simp only [Store.complete, hp]
        rw [blobWriteDone_eq]
        split
        · exact write_lockCount none
        · unfold Store.callOnWriteDone
          split <;> rfl

theorem release_lockCount :
    (s.release U).lockCount = (s.lockCount + (2 ^ 32 - 1)) % 2 ^ 32 := by
  simp only [Store.release, Store.unlocked]
  generalize (s.lockCount + (2 ^ 32 - 1)) % 2 ^ 32 = n
  split
  · split
    · exact write_lockCount none
    · rfl
  · rfl

end

/-- The places in memory where a `LockGuard` can be: the non-null addresses. -/
abbrev Guard := Fin (2 ^ 32 - 1)

/-- A number of stores, and the lock guards that exist, each with the store it refers to. -/
structure World (ι T : Type) where
  stores : ι → Store T
  guards : Guard → Option ι

/-- What happens in a world: the calls of its users, and completions of flash operations. -/
inductive Action (ι T : Type) where
  | change (i : ι) (c : T)
  | write (i : ι) (onDone : Option Callback)
  /-- a guard is constructed for a store -/
  | lock (g : Guard) (i : ι)
  /-- a guard is constructed as a copy of another one -/
  | copy (g other : Guard)
  /-- a guard is assigned to another one -/
  | assign (g other : Guard)
  /-- a guard is destroyed -/
  | destroy (g : Guard)
  | complete (i : ι)

section

variable {ι : Type} [DecidableEq ι] (U : ι → Setup T)

namespace World

/-- An event at one of the stores. -/
def at_ (i : ι) (e : Event T) (w : World ι T) : World ι T :=
  { w with stores := update w.stores i ((w.stores i).step (U i) e) }

/-- `LockGuard::LockGuard`. -/
def attach (g : Guard) (i : ι) (w : World ι T) : World ι T :=
  { w.at_ U i .acquire with guards := update w.guards g (some i) }

/-- `LockGuard::~LockGuard`. -/
def detach (g : Guard) (i : ι) (w : World ι T) : World ι T :=
  { w.at_ U i .release with guards := update w.guards g none }

/-- One action. There is no result when the action is not possible: a guard is constructed where
there is one, a guard is used that does not exist, or `Write` is called before `Recover` has
completed. -/
def step (w : World ι T) : Action ι T → Option (World ι T)
  | .change i c => some (w.at_ U i (.change c))
  | .write i d => if (w.stores i).isRecovered then some (w.at_ U i (.write d)) else none
  | .lock g i => if (w.guards g).isNone then some (w.attach U g i) else none
  | .copy g other =>
      match w.guards g, w.guards other with
      | none, some i => some (w.attach U g i)
      | _, _ => none
  | .assign g other =>
      match w.guards g, w.guards other with
      | some i, some j => if g = other then some w else some ((w.detach U g i).attach U g j)
      | _, _ => none
  | .destroy g => (w.guards g).map (fun i => w.detach U g i)
  | .complete i => some (w.at_ U i .complete)

def run (actions : List (Action ι T)) (w : World ι T) : Option (World ι T) :=
  actions.foldlM (step U) w

/-- All stores have just been constructed, on any flash contents. -/
def fresh (flash : ι → BlobId → Memory) (ram : ι → Memory) (c : ι → T) : World ι T :=
  { stores := fun i => (Store.fresh (U i) (flash i) (ram i) (c i)).recover, guards := fun _ => none }

end World

/-- The number of guards of a store. -/
def holders (guards : Guard → Option ι) (i : ι) : Nat :=
  (Finset.univ.filter (fun g => guards g = some i)).card

/-- The stores keep their invariants, and count their guards. -/
def WorldInv (w : World ι T) : Prop :=
  ∀ i, FlashInv (U i) (w.stores i) ∧ RequestInv (w.stores i) ∧
    (w.stores i).lockCount = holders w.guards i

end

section

variable {ι : Type} [DecidableEq ι] {U : ι → Setup T} {w : World ι T}
  {guards : Guard → Option ι} {g : Guard} {i : ι}

theorem holders_attach (hg : guards g = none) (i j : ι) :
    holders (update guards g (some i)) j = holders guards j + if j = i then 1 else 0 := by
  unfold holders
  by_cases hij : j = i
  · subst hij
    have hset : Finset.univ.filter (fun x => update guards g (some j) x = some j)
        = insert g (Finset.univ.filter (fun x => guards x = some j)) := by
      ext x
      by_cases hx : x = g
      · simp [hx]
      · simp [hx]
    rw [hset, Finset.card_insert_of_notMem (by simp [hg]), if_pos rfl]
  · have hset : Finset.univ.filter (fun x => update guards g (some i) x = some j)
        = Finset.univ.filter (fun x => guards x = some j) := by
      refine Finset.filter_congr (fun x _ => ?_)
      by_cases hx : x = g
      · simp [hx, hg, Ne.symm hij]
      · simp [hx]
    rw [hset, if_neg hij, Nat.add_zero]

theorem holders_detach (hg : guards g = some i) (j : ι) : holders guards j
      = holders (update guards g none) j + if j = i then 1 else 0 := by
  have hnone : update guards g none g = none := update_self _ _ _
  have h := holders_attach hnone i j
  rwa [update_idem, ← hg, update_eq_self] at h

theorem holders_lt (hg : guards g ≠ some i) : holders guards i < 2 ^ 32 - 1 := by
  have hlt := Finset.card_lt_univ_of_notMem (s := Finset.univ.filter (fun x => guards x = some i))
    (x := g) (by simp [hg])
  simpa [holders] using hlt

theorem holders_none (i : ι) : holders (fun _ => none) i = 0 := by
  simp [holders]

attribute [irreducible] holders

/-- An event at one of the stores, after which the guards are `guards`. -/
theorem WorldInv.at_ (h : WorldInv U w) {e : Event T} (he : e.Allowed (w.stores i))
    (hi : ((w.stores i).step (U i) e).lockCount = holders guards i)
    (hj : ∀ j, j ≠ i → holders guards j = holders w.guards j) :
    WorldInv U { w.at_ U i e with guards := guards } := by
  intro j
  show FlashInv (U j) (update w.stores i _ j) ∧
    RequestInv (update w.stores i _ j) ∧
    (update w.stores i _ j).lockCount = holders guards j
  by_cases hji : j = i
  · subst hji
    rw [update_self]
    exact ⟨(h j).1.step he, (h j).2.1.step (h j).1 he, hi⟩
  · rw [update_of_ne hji, hj j hji]
    exact h j

theorem WorldInv.attach (h : WorldInv U w) (hg : w.guards g = none) (i : ι) :
    WorldInv U (w.attach U g i) := by
  have hlt : holders w.guards i < 2 ^ 32 - 1 := holders_lt (g := g) (by simp [hg])
  have hcount := (h i).2.2
  refine h.at_ (e := .acquire) ?_ ?_ ?_
  · simp only [Event.Allowed]
    omega
  · simp only [Store.step, Store.acquire]
    rw [holders_attach hg, if_pos rfl, hcount, Nat.mod_eq_of_lt (by omega)]
  · intro j hj
    rw [holders_attach hg, if_neg hj, Nat.add_zero]

theorem WorldInv.detach (h : WorldInv U w) (hg : w.guards g = some i) :
    WorldInv U (w.detach U g i) := by
  have hcount := (h i).2.2
  have hholders := holders_detach hg i
  rw [if_pos rfl] at hholders
  have hlt : holders (update w.guards g none) i < 2 ^ 32 - 1 :=
    holders_lt (g := g) (by simp)
  refine h.at_ (e := .release) ?_ ?_ ?_
  · simp only [Event.Allowed]
    omega
  · simp only [Store.step, release_lockCount]
    omega
  · intro j hj
    have := holders_detach hg j
    rw [if_neg hj, Nat.add_zero] at this
    exact this.symm

theorem WorldInv.step (h : WorldInv U w) {a : Action ι T} {w' : World ι T}
    (ha : w.step U a = some w') : WorldInv U w' := by
  cases a with
  | change i c =>
      cases ha
      exact h.at_ (e := .change c) trivial (h i).2.2 (fun _ _ => rfl)
  | write i d =>
      simp only [World.step] at ha
      split at ha
      · cases ha
        rename_i hr
        refine h.at_ (e := .write d) hr ?_ (fun _ _ => rfl)
        exact (write_lockCount d).trans (h i).2.2
      · cases ha
  | lock g i =>
      simp only [World.step] at ha
      split at ha
      · cases ha
        rename_i hg
        exact h.attach (by simpa using hg) i
      · cases ha
  | copy g other =>
      simp only [World.step] at ha
      split at ha
      · cases ha
        rename_i hg _
        exact h.attach hg _
      · cases ha
  | assign g other =>
      simp only [World.step] at ha
      split at ha
      · split at ha
        · cases ha
          exact h
        · cases ha
          rename_i hg _ _
          refine (h.detach hg).attach ?_ _
          exact update_self _ _ _
      · cases ha
  | destroy g =>
      obtain ⟨i, hg, rfl⟩ := Option.map_eq_some_iff.mp ha
      exact h.detach hg
  | complete i =>
      cases ha
      exact h.at_ (e := .complete) trivial (complete_lockCount.trans (h i).2.2) (fun _ _ => rfl)

theorem worldInv_fresh (flash : ι → BlobId → Memory) (ram : ι → Memory) (c : ι → T) :
    WorldInv U (World.fresh U flash ram c) := by
  intro i
  exact ⟨flashInv_fresh _ _ _, .of_quiet (.inl rfl) rfl rfl, (holders_none i).symm⟩

theorem WorldInv.run {actions : List (Action ι T)} (h : WorldInv U w) {w' : World ι T}
    (hrun : w.run U actions = some w') : WorldInv U w' := by
  induction actions generalizing w with
  | nil =>
      cases hrun
      exact h
  | cons a actions ih =>
      obtain ⟨w₁, h₁, h₂⟩ := Option.bind_eq_some_iff.mp hrun
      exact ih (h.step h₁) h₂

/-- **No write request is lost.** In every interleaving, at every store: a blob write is started
only when there is no lock and no flash operation is busy; and whenever there is no lock and no
blob write is busy, no request is held, and after any call of `Write` the inactive blob holds a
configuration that was serialised after that call. -/
theorem no_write_request_is_lost (flash : ι → BlobId → Memory) (ram : ι → Memory) (c : ι → T)
    (actions : List (Action ι T)) (w : World ι T)
    (hrun : (World.fresh U flash ram c).run U actions = some w) (i : ι) :
    (∀ x, .blobWriteStarted x ∈ (w.stores i).log → x.lockCount = 0 ∧ x.busy = false) ∧
    ((w.stores i).lockCount = 0 → (w.stores i).writingBlob = false →
      (w.stores i).writeRequested = false ∧
      ∀ later d x earlier, (w.stores i).log = later ++ .writeCalled d x :: earlier →
        ∃ b, .blobWriteStarted b ∈ later ∧
          found (U i) ((w.stores i).flash (w.stores i).inactiveBlob)
            = some ((U i).message.serialize b.configuration)) := by
  obtain ⟨hflash, hreq, -⟩ := (worldInv_fresh flash ram c).run hrun i
  refine ⟨fun x hx => ⟨(hflash.starts x hx).1, (hflash.starts x hx).2.1⟩, fun hl hw => ?_⟩
  have hnone : (w.stores i).writeRequested = false := by
    cases hc : (w.stores i).writeRequested with
    | false => rfl
    | true =>
        rcases hreq.held hc with hw' | hl'
        · rw [hw] at hw'
          cases hw'
        · exact (hl' hl).elim
  refine ⟨hnone, fun later d x earlier hsplit => ?_⟩
  have hrec : (w.stores i).isRecovered = true := by
    cases hr : (w.stores i).isRecovered with
    | true => rfl
    | false =>
        rw [(hreq.quiet hr).1] at hsplit
        simp at hsplit
  rcases hreq.served later d x earlier hsplit with hc | ⟨b, hb, hcur⟩
  · rw [hnone] at hc
    cases hc
  · refine ⟨b, hb, ?_⟩
    obtain ⟨-, hbw, hi⟩ := hflash.phase.of_idle (hflash.pending_eq_none hrec hw)
    rcases hcur with hcur | ⟨-, hcur⟩
    · rw [hbw] at hcur
      cases hcur
    · rw [hcur] at hi
      exact hi

/-! ## Functions that are passed to `Write` -/

/-- No blob write is busy, there is no lock, and no request is held. -/
def Store.isIdle (s : Store T) : Bool :=
  s.isRecovered && !s.writingBlob && s.lockCount == 0 && !s.writeRequested

/-- `Write` is not called with a function while the function of an earlier call is waiting. -/
def NoneReplaced (log : List (Entry T)) : Prop :=
  ∀ f waiting, .writeCalled (some f) waiting ∈ log → waiting = none

theorem replaced_eq_nil : replaced log = [] ↔ NoneReplaced log := by
  unfold replaced NoneReplaced
  rw [List.filterMap_eq_nil_iff]
  constructor
  · exact fun h f waiting hmem => h _ hmem
  · intro h e he
    cases e with
    | writeCalled onDone waiting =>
        cases onDone with
        | none => rfl
        | some f => exact h f waiting he
    | _ => rfl

/-- **Completion of writes.** Functions passed to the `Write`s of a store are all different. In
every interleaving no function is called twice, and none is called before a blob write that was
serialised after its `Write` has completed. Whenever the store is idle, every function has been
called exactly once if and only if `Write` was never called with a function while another function
was waiting. -/
theorem onDone_called_once_iff (flash : ι → BlobId → Memory) (ram : ι → Memory) (c : ι → T)
    (actions : List (Action ι T)) (w : World ι T)
    (hrun : (World.fresh U flash ram c).run U actions = some w) (i : ι)
    (hdistinct : (passed (w.stores i).log).Nodup) :
    (∀ later f earlier, (w.stores i).log = later ++ .invoked f :: earlier →
      ∃ during b before, earlier = .blobWriteDone :: during ++ .blobWriteStarted b :: before ∧
        .blobWriteDone ∉ during ∧ f ∈ passed before) ∧
    (∀ f, (called (w.stores i).log).count f ≤ 1) ∧
    ((w.stores i).isIdle = true →
      ((∀ f ∈ passed (w.stores i).log, (called (w.stores i).log).count f = 1) ↔
        NoneReplaced (w.stores i).log)) := by
  obtain ⟨hflash, hreq, -⟩ := (worldInv_fresh flash ram c).run hrun i
  have hcount : ∀ f, (passed (w.stores i).log).count f
      = (called (w.stores i).log).count f + ((w.stores i).onWriteDone.toList.count f
        + (replaced (w.stores i).log).count f) := by
    intro f
    rw [hreq.accounted.count_eq, List.count_append, List.count_append]
  have hle : ∀ f, (passed (w.stores i).log).count f ≤ 1 :=
    fun f => List.nodup_iff_count_le_one.mp hdistinct f
  refine ⟨?_, fun f => ?_, fun hidle => ⟨fun hall => ?_, fun hnone f hf => ?_⟩⟩
  · intro later f earlier hsplit
    obtain ⟨rest, rfl, during, b, before, rfl, hdone, hf⟩ := hreq.order later f earlier hsplit
    exact ⟨during, b, before, rfl, hdone, hf⟩
  · have := hcount f
    have := hle f
    omega
  · -- a function that was replaced would have been passed and never called
    rw [← replaced_eq_nil, List.eq_nil_iff_forall_not_mem]
    intro f hf
    have hpos : 0 < (replaced (w.stores i).log).count f := List.count_pos_iff.mpr hf
    have hpassed : f ∈ passed (w.stores i).log :=
      List.count_pos_iff.mp (by have := hcount f; omega)
    have := hcount f
    have := hle f
    have := hall f hpassed
    omega
  · -- in an idle store no function waits
    have hslot : (w.stores i).onWriteDone = none := by
      simp only [Store.isIdle, Bool.and_eq_true, Bool.not_eq_true'] at hidle
      cases hs : (w.stores i).onWriteDone with
      | none => rfl
      | some g =>
          rcases (hreq.waiting g hs).2 with hc | ⟨hc, -⟩
          · rw [hidle.2] at hc
            cases hc
          · rw [hidle.1.1.2] at hc
            cases hc
    have hpos : 0 < (passed (w.stores i).log).count f := List.count_pos_iff.mpr hf
    have hc := hcount f
    have := hle f
    rw [hslot, replaced_eq_nil.mpr hnone] at hc
    simp only [Option.toList_none, List.count_nil] at hc
    omega

end

/-! ### One store with a boolean configuration -/

/-- The world of one store on erased flash. -/
def boolWorld : World Unit Bool :=
  World.fresh (fun _ => boolSetup) (fun _ _ _ => blank) (fun _ _ => 0) (fun _ => false)

def guard1 : Guard := ⟨0x20000000, by decide⟩

def guard2 : Guard := ⟨0x20000004, by decide⟩

/-- After recovery a guard is created and copied, and a write is requested. When both guards are
gone the write is started, and its flash operations complete. -/
def heldWrite : List (Action Unit Bool) :=
  [.complete (), .complete (), .complete (), .lock guard1 (), .write () (some 1),
    .copy guard2 guard1, .change () true, .destroy guard1, .assign guard2 guard2, .destroy guard2,
    .complete (), .complete ()]

/-- The changed configuration is in flash. -/
theorem heldWrite_persisted : ∃ w, boolWorld.run (fun _ => boolSetup) heldWrite = some w ∧
    (w.stores ()).lockCount = 0 ∧ (w.stores ()).writingBlob = false ∧ (w.stores ()).writeRequested = false ∧
    found boolSetup ((w.stores ()).flash (w.stores ()).inactiveBlob) = some (boolSetup.message.serialize true) := by
  obtain ⟨w, hw, hl, hb, later, d, x, earlier, hsplit, hchanged⟩ :
      ∃ w, boolWorld.run (fun _ => boolSetup) heldWrite = some w ∧
        (w.stores ()).lockCount = 0 ∧ (w.stores ()).writingBlob = false ∧
        ∃ later d x earlier, (w.stores ()).log = later ++ .writeCalled d x :: earlier ∧
          ∀ b, .blobWriteStarted b ∈ later → b.configuration = true := by
    refine ⟨_, rfl, rfl, rfl, [_, _, _], _, _, _, rfl, ?_⟩
    intro b hstarted
    simp only [List.mem_cons, reduceCtorEq, List.not_mem_nil, Entry.blobWriteStarted.injEq, or_false,
      false_or] at hstarted
    rw [hstarted]
    rfl
  obtain ⟨hrequested, hpersisted⟩ := (no_write_request_is_lost _ _ _ heldWrite w hw ()).2 hl hb
  obtain ⟨b, hstarted, hfound⟩ := hpersisted later d x earlier hsplit
  rw [hchanged b hstarted] at hfound
  exact ⟨w, hw, hl, hb, hrequested, hfound⟩
theorem heldWrite_calls_onDone : ∃ w, boolWorld.run (fun _ => boolSetup) heldWrite = some w ∧
    ∀ f ∈ passed (w.stores ()).log, (called (w.stores ()).log).count f = 1 := by
  obtain ⟨w, hw, hd, hi, hn⟩ : ∃ w, boolWorld.run (fun _ => boolSetup) heldWrite = some w ∧
      passed (w.stores ()).log = [1] ∧ (w.stores ()).isIdle = true ∧
      replaced (w.stores ()).log = [] := ⟨_, rfl, rfl, rfl, rfl⟩
  have hdistinct : (passed (w.stores ()).log).Nodup := by rw [hd]; decide
  exact ⟨w, hw, ((onDone_called_once_iff _ _ _ heldWrite w hw () hdistinct).2.2 hi).mpr
    (replaced_eq_nil.mp hn)⟩

/-- Two writes, the second one while the first is busy; all flash operations complete. -/
def twoWrites : List (Action Unit Bool) :=
  [.complete (), .complete (), .complete (), .write () (some 1), .write () (some 2),
    .complete (), .complete (), .complete (), .complete ()]

/-- The store is idle in the end, and the function of the first write has not been called. -/
theorem twoWrites_lose_onDone : ∃ w, boolWorld.run (fun _ => boolSetup) twoWrites = some w ∧
    (passed (w.stores ()).log).Nodup ∧ (w.stores ()).isIdle = true ∧
    1 ∈ passed (w.stores ()).log ∧ 1 ∉ called (w.stores ()).log := by
  obtain ⟨w, hw, hp, hi, hc⟩ : ∃ w, boolWorld.run (fun _ => boolSetup) twoWrites = some w ∧
      passed (w.stores ()).log = [2, 1] ∧ (w.stores ()).isIdle = true ∧
      called (w.stores ()).log = [2] := ⟨_, rfl, rfl, rfl, rfl⟩
  refine ⟨w, hw, ?_, hi, ?_, ?_⟩
  · rw [hp]
    decide
  · rw [hp]
    decide
  · rw [hc]
    decide

end EmbeddedInfra.ConfigurationStore
