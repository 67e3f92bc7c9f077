import Mathlib.Logic.Function.Basic
import Mathlib.Data.List.Count
import EmbeddedInfra.Lib.EventSystem

set_option autoImplicit false

/-! # Shared pointers

`infra::SharedPtr` and `infra::WeakPtr` to objects of a `SharedObjectAllocatorFixedSize`. The control block of
an object counts its SharedPtrs, and its SharedPtrs and WeakPtrs together. `Destruct` runs the destructor of the
object, which may itself use pointers: a call of `Destruct` is on a stack until it returns, and what its caller
does afterwards is kept with it.
-/

namespace EmbeddedInfra.SharedPtr

/-! ## Control blocks -/

/-- A node of the allocator. The last three count the calls that were made for it. -/
structure SharedPtrControl where
  sharedPtrCount : UInt16 := 0
  weakPtrCount : UInt16 := 0
  allocated : Nat := 0
  destructed : Nat := 0
  deallocated : Nat := 0
deriving DecidableEq, Repr

/-- The allocator, with its nodes. `touched` says that a node was used after its `Deallocate`, `asserted` that an
assertion has failed. -/
structure Allocator where
  maxSize : Nat
  size : Nat := 0
  nodes : Nat → SharedPtrControl := fun _ => {}
  freeList : List Nat := []
  touched : Bool := false
  asserted : Bool := false

namespace Allocator

def modify (a : Allocator) (c : Nat) (f : SharedPtrControl → SharedPtrControl) : Allocator :=
  { a with nodes := Function.update a.nodes c (f (a.nodes c)) }

def touch (a : Allocator) (c : Nat) : Allocator :=
  if c ∈ a.freeList then { a with touched := true } else a

def allocateNode (a : Allocator) : Option (Nat × Allocator) :=
  match a.freeList with
  | c :: rest => some (c, modify { a with freeList := rest } c fun k => { k with allocated := k.allocated + 1 })
  | [] =>
      if a.size < a.maxSize then
        some (a.size, { a with size := a.size + 1, nodes := Function.update a.nodes a.size { allocated := 1 } })
      else none

def increaseWeakCount (a : Allocator) (c : Nat) : Allocator :=
  (a.touch c).modify c fun k => { k with weakPtrCount := k.weakPtrCount + 1 }

def increaseSharedCount (a : Allocator) (c : Nat) : Allocator :=
  ((a.touch c).modify c fun k => { k with sharedPtrCount := k.sharedPtrCount + 1 }).increaseWeakCount c

def deallocate (a : Allocator) (c : Nat) : Allocator :=
  { a.modify c fun k => { k with deallocated := k.deallocated + 1 } with freeList := c :: a.freeList }

def decreaseWeakCount (a : Allocator) (c : Nat) : Allocator :=
  let a := a.touch c
  if (a.nodes c).weakPtrCount = 0 then { a with asserted := true }
  else
    let a := a.modify c fun k => { k with weakPtrCount := k.weakPtrCount - 1 }
    if (a.nodes c).weakPtrCount = 0 then a.deallocate c else a

/-- `DecreaseSharedCount` up to `Destruct`, and whether that is called. -/
def decreaseSharedCount (a : Allocator) (c : Nat) : Allocator × Bool :=
  let a := a.touch c
  if (a.nodes c).sharedPtrCount = 0 then ({ a with asserted := true }, false)
  else
    let a := a.modify c fun k => { k with sharedPtrCount := k.sharedPtrCount - 1 }
    if (a.nodes c).sharedPtrCount = 0 then (a.modify c fun k => { k with destructed := k.destructed + 1 }, true)
    else (a, false)

end Allocator

/-! ## Pointers -/

/-- The data members of a pointer. An object is an address, 0 for none. -/
structure PtrValue where
  control : Option Nat
  object : Nat
deriving DecidableEq, Repr

def PtrValue.null : PtrValue := ⟨none, 0⟩

/-- A pointer variable; `destroyed` when it is no longer there. -/
inductive Pointer where
  | shared (value : PtrValue)
  | weak (value : PtrValue)
  | destroyed
deriving DecidableEq, Repr

/-- A call of `Destruct`. When it returns, the pointer `other` is reset, if there is one: a move has it as its
source. -/
structure Destructing where
  control : Nat
  other : Option Nat
deriving DecidableEq, Repr

structure State where
  allocator : Allocator
  pointers : List Pointer := []
  destructing : List Destructing := []

namespace State

def sharedAt (s : State) (i : Nat) : Option PtrValue :=
  match s.pointers[i]? with
  | some (.shared value) => some value
  | _ => none

def weakAt (s : State) (i : Nat) : Option PtrValue :=
  match s.pointers[i]? with
  | some (.weak value) => some value
  | _ => none

def set (s : State) (i : Nat) (p : Pointer) : State := { s with pointers := s.pointers.set i p }

def add (s : State) (p : Pointer) : State := { s with pointers := s.pointers ++ [p] }

/-- `if (control) control->IncreaseSharedCount()` -/
def increaseShared (s : State) (value : PtrValue) : State :=
  match value.control with
  | some c => { s with allocator := s.allocator.increaseSharedCount c }
  | none => s

/-- `if (control) control->IncreaseWeakCount()` -/
def increaseWeak (s : State) (value : PtrValue) : State :=
  match value.control with
  | some c => { s with allocator := s.allocator.increaseWeakCount c }
  | none => s

/-- `if (control) control->DecreaseWeakCount()` -/
def decreaseWeak (s : State) (value : PtrValue) : State :=
  match value.control with
  | some c => { s with allocator := s.allocator.decreaseWeakCount c }
  | none => s

/-- `if (oldControl) oldControl->DecreaseSharedCount()` -/
def decreaseShared (s : State) (old : PtrValue) : State :=
  match old.control with
  | some c =>
      match s.allocator.decreaseSharedCount c with
      | (a, true) => { s with allocator := a, destructing := ⟨c, none⟩ :: s.destructing }
      | (a, false) => { s with allocator := a.decreaseWeakCount c }
  | none => s

/-- `SharedPtr::Reset` -/
def resetShared (s : State) (i : Nat) (value : PtrValue) : Option State := do
  let old ← s.sharedAt i
  return ((s.set i (.shared value)).increaseShared value).decreaseShared old

/-- `other.Reset(nullptr, nullptr)` -/
def resetOther (s : State) : Option Nat → Option State
  | some j => s.resetShared j .null
  | none => some s

/-- `WeakPtr::Reset` -/
def resetWeak (s : State) (i : Nat) (value : PtrValue) : Option State := do
  let old ← s.weakAt i
  return ((s.decreaseWeak old).set i (.weak value)).increaseWeak value

/-- A constructor of a SharedPtr that calls `Reset`; there is no old control. -/
def constructShared (s : State) (value : PtrValue) : State := (s.add (.shared value)).increaseShared value

/-- A constructor of a WeakPtr that calls `Reset`. -/
def constructWeak (s : State) (value : PtrValue) : State := (s.add (.weak value)).increaseWeak value

/-- `SharedPtr::operator=(SharedPtr&&)`: when `Reset` destructs an object, `other` is reset after that. -/
def moveShared (s : State) (i j : Nat) : Option State := do
  let value ← s.sharedAt j
  let old ← s.sharedAt i
  let s := (s.set i (.shared value)).increaseShared value
  match old.control with
  | some c =>
      match s.allocator.decreaseSharedCount c with
      | (a, true) => some { s with allocator := a, destructing := ⟨c, some j⟩ :: s.destructing }
      | (a, false) => State.resetOther { s with allocator := a.decreaseWeakCount c } (some j)
  | none => s.resetOther (some j)

/-- `other.control && !other.control->Expired()`; the node is read. -/
def lockable (s : State) (value : PtrValue) : Bool :=
  match value.control with
  | some c => (s.allocator.nodes c).sharedPtrCount ≠ 0
  | none => false

def touchControl (s : State) (value : PtrValue) : State :=
  match value.control with
  | some c => { s with allocator := s.allocator.touch c }
  | none => s

end State

/-! ## Operations -/

/-- A pointer that is constructed gets the next number. The operations on other types of pointers (the conversions
and the constant ones) do the same; those that go by way of another pointer are two operations. -/
inductive Operation where
  /-- `SharedObjectAllocatorFixedSize::Allocate`, with the address of the object -/
  | allocate (object : Nat)
  | sharedNull
  | sharedCopy (other : Nat)
  | sharedMove (other : Nat)
  /-- also `lock` -/
  | sharedFromWeak (other : Nat)
  /-- `StaticPointerCast`, `ConstCast` and `MakeContainedSharedObject` -/
  | sharedCast (object : Nat) (other : Nat)
  | sharedCastMove (object : Nat) (other : Nat)
  | sharedAssign (this other : Nat)
  | sharedMoveAssign (this other : Nat)
  | sharedAssignWeak (this other : Nat)
  | sharedAssignNull (this : Nat)
  | sharedDestroy (this : Nat)
  | weakNull
  | weakCopy (other : Nat)
  | weakMove (other : Nat)
  | weakFromShared (other : Nat)
  | weakAssign (this other : Nat)
  | weakMoveAssign (this other : Nat)
  | weakAssignShared (this other : Nat)
  | weakDestroy (this : Nat)
  /-- The last `Destruct` that was called returns. -/
  | destructReturns
deriving DecidableEq, Repr

/-- `none` when there is no such pointer. -/
def step (s : State) : Operation → Option State
  | .allocate object =>
      match s.allocator.allocateNode with
      | some (c, a) => some (State.constructShared { s with allocator := a } ⟨some c, object⟩)
      | none => some (s.add (.shared .null))
  | .sharedNull => some (s.add (.shared .null))
  | .sharedCopy other => do
      let value ← s.sharedAt other
      return s.constructShared value
  | .sharedMove other => do
      let value ← s.sharedAt other
      (s.constructShared value).resetShared other .null
  | .sharedFromWeak other => do
      let value ← s.weakAt other
      let s := s.touchControl value
      return if s.lockable value then s.constructShared value else s.add (.shared .null)
  | .sharedCast object other => do
      let value ← s.sharedAt other
      return s.constructShared ⟨value.control, object⟩
  | .sharedCastMove object other => do
      let value ← s.sharedAt other
      (s.constructShared ⟨value.control, object⟩).resetShared other .null
  | .sharedAssign this other => do
      let value ← s.sharedAt other
      if this ≠ other then s.resetShared this value else some s
  | .sharedMoveAssign this other => s.moveShared this other
  | .sharedAssignWeak this other => do
      let value ← s.weakAt other
      s.resetShared this value
  | .sharedAssignNull this => s.resetShared this .null
  | .sharedDestroy this => do
      let s ← s.resetShared this .null
      return s.set this .destroyed
  | .weakNull => some (s.add (.weak .null))
  | .weakCopy other => do
      let value ← s.weakAt other
      return s.constructWeak value
  | .weakMove other => do
      let value ← s.weakAt other
      (s.constructWeak value).resetWeak other .null
  | .weakFromShared other => do
      let value ← s.sharedAt other
      return s.constructWeak value
  | .weakAssign this other => do
      let value ← s.weakAt other
      s.resetWeak this value
  | .weakMoveAssign this other => do
      let value ← s.weakAt other
      let s ← s.resetWeak this value
      s.resetWeak other .null
  | .weakAssignShared this other => do
      let value ← s.sharedAt other
      s.resetWeak this value
  | .weakDestroy this => do
      let s ← s.resetWeak this .null
      return s.set this .destroyed
  | .destructReturns =>
      match s.destructing with
      | ⟨c, other⟩ :: rest =>
          State.resetOther { s with allocator := s.allocator.decreaseWeakCount c, destructing := rest } other
      | [] => none

end EmbeddedInfra.SharedPtr
