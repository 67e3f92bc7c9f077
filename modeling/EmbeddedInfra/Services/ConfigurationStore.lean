import EmbeddedInfra.Services.ConfigurationBlob

set_option autoImplicit false

/-! # The configuration store

`services::ConfigurationStoreBase` keeps a configuration in two blobs. `Write` serialises the
configuration to the *active* blob and then erases the *inactive* one, after which the two change
roles; `Recover` reads the blobs back, takes the first valid one and erases the other. A `Write`
that is requested while another one is busy, or while a `LockGuard` exists, is held.

A call returns as soon as a flash operation has been started; `pending` is this operation with the
function that is called when it is done, and `complete` is its completion. Both blobs use the same
buffer in RAM, as in `ConfigurationStoreImpl::WithBlobs`. Nothing in the store reads its log.
-/

namespace EmbeddedInfra.ConfigurationStore

open NorMemory

inductive BlobId where
  | blob1
  | blob2
deriving DecidableEq

/-- The identity of a function that a user passes as `onDone`. -/
abbrev Callback := Nat

/-- The functions that the store passes to its blobs, named after what was started. -/
inductive Operation where
  /-- the first `ReadBuffer` of `Recover` -/
  | recoverFirst
  /-- the `ReadBuffer` of the other blob -/
  | recoverSecond
  /-- the erase at the end of `Recover` -/
  | eraseAfterRecover (success : Bool)
  /-- the `WriteBuffer` of `Write` -/
  | write
  /-- the erase at the end of `Write` -/
  | eraseAfterWrite
deriving DecidableEq

/-- What is recorded when a blob write is started: the number of locks, whether a flash operation
was busy, whether the blob was erased, and the configuration that was serialised. -/
structure BlobWrite (T : Type) where
  lockCount : Nat
  busy : Bool
  erased : Bool
  configuration : T

inductive Entry (T : Type) where
  /-- the user calls `Write`, while a function of an earlier call may still be waiting -/
  | writeCalled (onDone waiting : Option Callback)
  | blobWriteStarted (w : BlobWrite T)
  | blobWriteDone
  /-- an `onDone` is called -/
  | invoked (f : Callback)
  /-- `onRecovered` is called; the configuration is the one the store has then -/
  | recovered (success : Bool) (configuration : T)
  | powerLost

structure Store (T : Type) where
  activeBlob : BlobId
  inactiveBlob : BlobId
  onWriteDone : Option Callback := none
  lockCount : Nat := 0
  writingBlob : Bool := false
  writeRequested : Bool := false
  configuration : T
  /-- the buffer shared by the blobs -/
  blob : List UInt8
  currentSize : BlobId → Nat := fun _ => 0
  flash : BlobId → Memory
  pending : Option (Operation × BlobId) := none
  log : List (Entry T) := []

/-- The surroundings of a store. A blob is no larger than its flash. -/
structure Setup (T : Type) where
  platform : Platform
  message : Message T
  totalSize : BlobId → Nat
  fits : ∀ b, message.maxMessageSize + sizeofHeader ≤ totalSize b

/-- The size of the buffer, `WithStorage<T::maxMessageSize>`. -/
def Setup.blobSize {T : Type} (U : Setup T) : Nat := U.message.maxMessageSize + sizeofHeader

namespace Store

variable {T : Type} (U : Setup T)

def record (e : Entry T) (s : Store T) : Store T := { s with log := e :: s.log }

/-- `std::swap(activeBlob, inactiveBlob)`. -/
def swap (s : Store T) : Store T :=
  { s with activeBlob := s.inactiveBlob, inactiveBlob := s.activeBlob }

/-- A blob is erased as far as the buffer reaches. -/
def isErased (b : BlobId) (s : Store T) : Bool :=
  read (s.flash b) 0 U.blobSize == List.replicate U.blobSize blank

/-! ## Writing -/

/-- `Serialize`: the configuration is streamed to the buffer, and the buffer is written to flash. -/
def serialize (b : BlobId) (s : Store T) : Store T :=
  let bytes := U.message.serialize s.configuration
  let s := s.record (.blobWriteStarted
    ⟨s.lockCount, s.pending.isSome, s.isErased U b, s.configuration⟩)
  { s with currentSize := Function.update s.currentSize b bytes.length,
           blob := image U.platform bytes s.blob,
           pending := some (.write, b) }

def write (onDone : Option Callback) (s : Store T) : Store T :=
  let s := if onDone.isSome then { s with onWriteDone := onDone } else s
  let s := { s with writeRequested := true }
  if !s.writingBlob && s.lockCount == 0 then
    serialize U s.activeBlob { s with writeRequested := false, writingBlob := true }
  else s

/-- `inactiveBlob->Erase(...)`. -/
def eraseInactive (operation : Operation) (s : Store T) : Store T :=
  { s with pending := some (operation, s.inactiveBlob) }

/-- The `AutoResetFunction` `onWriteDone` is called, if there is one. -/
def callOnWriteDone (s : Store T) : Store T :=
  match s.onWriteDone with
  | some f => { s with onWriteDone := none }.record (.invoked f)
  | none => s

def blobWriteDone (s : Store T) : Store T :=
  let s := { s.swap with writingBlob := false }.record .blobWriteDone
  if s.writeRequested then s.write U none else s.callOnWriteDone

/-! ## Locks -/

def unlocked (s : Store T) : Store T := if s.writeRequested then s.write U none else s

/-- What the constructors of `LockGuard` do to its store. -/
def acquire (s : Store T) : Store T := { s with lockCount := (s.lockCount + 1) % 2 ^ 32 }

/-- What the destructor of `LockGuard` does to its store. -/
def release (s : Store T) : Store T :=
  let s := { s with lockCount := (s.lockCount + (2 ^ 32 - 1)) % 2 ^ 32 }
  if s.lockCount == 0 then s.unlocked U else s

/-! ## Recovery -/

/-- A store on given flash contents. The buffer holds whatever was in RAM. -/
def fresh (flash : BlobId → Memory) (ram : Memory) (c : T) : Store T :=
  { activeBlob := .blob1, inactiveBlob := .blob2, configuration := c,
    blob := read ram 0 U.blobSize, flash := flash }

/-- `activeBlob->Recover(...)`. -/
def recoverActive (operation : Operation) (s : Store T) : Store T :=
  { s with pending := some (operation, s.activeBlob) }

def recover (s : Store T) : Store T := s.recoverActive .recoverFirst

/-- The completion of `ReadBuffer` in `ConfigurationBlobImpl::Recover`. -/
def readBlob (b : BlobId) (s : Store T) : Store T :=
  let s := { s with blob := read (s.flash b) 0 s.blob.length }
  if blobIsValid U.platform s.blob then
    { s with currentSize := Function.update s.currentSize b (readHeader s.blob).size }
  else s

def deserialize (b : BlobId) (s : Store T) : Store T :=
  { s with configuration := U.message.deserialize (currentBlob s.blob (s.currentSize b)) }

def onBlobLoaded (success : Bool) (s : Store T) : Store T :=
  let s := s.swap
  let s := if success then s.deserialize U s.inactiveBlob else s
  s.record (.recovered success s.configuration)

/-! ## Completion of flash operations -/

def eraseBlob (b : BlobId) (s : Store T) : Store T :=
  { s with flash := Function.update s.flash b (erase (s.flash b) 0 (U.totalSize b)),
           pending := none }

/-- The completion of the flash operation that is busy. -/
def complete (s : Store T) : Store T :=
  match s.pending with
  | none => s
  | some (.recoverFirst, b) =>
      let s := s.readBlob U b
      if blobIsValid U.platform s.blob then s.eraseInactive (.eraseAfterRecover true)
      else s.swap.recoverActive .recoverSecond
  | some (.recoverSecond, b) =>
      let s := s.readBlob U b
      s.eraseInactive (.eraseAfterRecover (blobIsValid U.platform s.blob))
  | some (.eraseAfterRecover success, b) => (s.eraseBlob U b).onBlobLoaded U success
  | some (.write, b) =>
      { s with flash := Function.update s.flash b (program (s.flash b) 0 s.blob)
      }.eraseInactive .eraseAfterWrite
  | some (.eraseAfterWrite, b) => (s.eraseBlob U b).blobWriteDone U

/-- `Recover` has called `onRecovered`. -/
def isRecovered (s : Store T) : Bool :=
  match s.pending with
  | some (.recoverFirst, _) | some (.recoverSecond, _) | some (.eraseAfterRecover _, _) => false
  | _ => true

end Store

/-! ## Runs of one store -/

/-- What happens to a store. -/
inductive Event (T : Type) where
  /-- the user changes the configuration -/
  | change (c : T)
  | write (onDone : Option Callback)
  | acquire
  | release
  | complete

/-- `Write` is called after `Recover` has completed, and a lock is released only when there is
one. -/
def Event.Allowed {T : Type} (s : Store T) : Event T → Prop
  | .write _ => s.isRecovered = true
  | .acquire => s.lockCount + 1 < 2 ^ 32
  | .release => 0 < s.lockCount
  | _ => True

instance {T : Type} (s : Store T) : (e : Event T) → Decidable (e.Allowed s)
  | .change _ => inferInstanceAs (Decidable True)
  | .write _ => inferInstanceAs (Decidable (s.isRecovered = true))
  | .acquire => inferInstanceAs (Decidable (s.lockCount + 1 < 2 ^ 32))
  | .release => inferInstanceAs (Decidable (0 < s.lockCount))
  | .complete => inferInstanceAs (Decidable True)

def Store.step {T : Type} (U : Setup T) (s : Store T) : Event T → Store T
  | .change c => { s with configuration := c }
  | .write onDone => (s.record (.writeCalled onDone s.onWriteDone)).write U onDone
  | .acquire => s.acquire
  | .release => s.release U
  | .complete => s.complete U

end EmbeddedInfra.ConfigurationStore
