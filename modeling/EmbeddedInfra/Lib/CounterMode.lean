import Mathlib.Tactic

set_option autoImplicit false

/-! # Counter mode

A stream of bytes that does not depend on the data is laid over the data: the encrypted counter, block after
block. Data that goes through the stream twice is the data again (`crypt_crypt`), and data in pieces goes
through it like all of it at once (`crypt_append`).
-/

namespace CounterMode

variable {C : Type}

/-- Where a stream is: the next counter, the block in use and the next byte of it. -/
structure Position (C : Type) where
  counter : C
  block : List UInt8
  offset : Nat

section Stream

variable (encrypt : C → List UInt8) (next : C → C) (blockLength : Nat)

/-- At the start of a block the counter is encrypted. -/
def refill (p : Position C) : Position C :=
  if p.offset = 0 then { counter := next p.counter, block := encrypt p.counter, offset := 0 } else p

/-- The byte of the stream. -/
def mask (p : Position C) : UInt8 := (refill encrypt next p).block.getD p.offset 0

/-- One byte further. -/
def advance (p : Position C) : Position C :=
  { refill encrypt next p with offset := (p.offset + 1) % blockLength }

/-- Data under the stream. -/
def crypt : Position C → List UInt8 → List UInt8
  | _, [] => []
  | p, byte :: data => (byte ^^^ mask encrypt next p) :: crypt (advance encrypt next blockLength p) data

/-- The position behind so many bytes. -/
def after (p : Position C) (n : Nat) : Position C := (advance encrypt next blockLength)^[n] p

variable {encrypt next blockLength} {p : Position C}

@[simp] theorem length_crypt (data : List UInt8) : (crypt encrypt next blockLength p data).length = data.length := by
  induction data generalizing p with
  | nil => rfl
  | cons byte data ih => simp [crypt, ih]

/-- Data in two pieces. -/
theorem crypt_append (first second : List UInt8) :
    crypt encrypt next blockLength p (first ++ second) =
      crypt encrypt next blockLength p first ++
        crypt encrypt next blockLength (after encrypt next blockLength p first.length) second := by
  induction first generalizing p with
  | nil => rfl
  | cons byte first ih =>
      rw [List.cons_append, crypt, ih, crypt, List.cons_append, List.length_cons, after, after, Function.iterate_succ_apply]

/-- The stream takes back what it has done. -/
theorem crypt_crypt (data : List UInt8) :
    crypt encrypt next blockLength p (crypt encrypt next blockLength p data) = data := by
  induction data generalizing p with
  | nil => rfl
  | cons byte data ih =>
      rw [crypt, crypt, ih, UInt8.xor_assoc, UInt8.xor_self, UInt8.xor_zero]

/-- At the start of a block, the block that was in use does not matter. -/
theorem crypt_of_start (counter : C) (block other : List UInt8) (data : List UInt8) :
    crypt encrypt next blockLength { counter := counter, block := block, offset := 0 } data =
      crypt encrypt next blockLength { counter := counter, block := other, offset := 0 } data := by
  cases data with
  | nil => rfl
  | cons byte data => rfl

end Stream

end CounterMode
