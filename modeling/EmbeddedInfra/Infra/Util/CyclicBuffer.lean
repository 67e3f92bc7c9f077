import EmbeddedInfra.Lib.EventSystem

set_option autoImplicit false

/-! # The cyclic buffer

`infra::CyclicBuffer` is a queue in a given chunk of memory. Its elements are between two pointers, `front`
and `back`, and go on at the beginning of the memory when they reach its end; when the pointers are equal,
a flag tells a full buffer from an empty one.
-/

namespace EmbeddedInfra

/-- `CyclicBuffer`; a pointer is the position in the storage that it points to. -/
structure CyclicBuffer (α : Type) where
  storage : List α
  front : Nat
  back : Nat
  isFull : Bool
deriving DecidableEq, Repr

namespace CyclicBuffer

variable {α : Type}

def create (storage : List α) : CyclicBuffer α := ⟨storage, 0, 0, false⟩

def empty (b : CyclicBuffer α) : Bool := b.front = b.back ∧ b.isFull = false

def full (b : CyclicBuffer α) : Bool := b.isFull

def size (b : CyclicBuffer α) : Nat :=
  if b.isFull then b.storage.length
  else if b.back < b.front then b.storage.length - b.front + b.back
  else b.back - b.front

def available (b : CyclicBuffer α) : Nat := b.storage.length - b.size

/-- `std::copy` to a position of the storage -/
def copy (storage : List α) (position : Nat) (data : List α) : List α :=
  storage.take position ++ data ++ storage.drop (position + data.length)

/-- A pointer at the end of the storage goes back to its beginning. -/
def wrap (b : CyclicBuffer α) : CyclicBuffer α := if b.back = b.storage.length then { b with back := 0 } else b

/-- `Push` of an element -/
def push (b : CyclicBuffer α) (data : α) : Option (CyclicBuffer α) :=
  if b.full then none
  else
    let b := { b with storage := copy b.storage b.back [data], back := b.back + 1 }.wrap
    some (if b.front = b.back then { b with isFull := true } else b)

/-- `Push` of a range -/
def pushRange (b : CyclicBuffer α) (data : List α) : Option (CyclicBuffer α) :=
  if data.length ≤ b.storage.length - b.size then
    let size := min data.length (b.storage.length - b.back)
    let b := { b with storage := copy b.storage b.back (data.take size), back := b.back + size }.wrap
    let b :=
      if size < data.length then
        { b with storage := copy b.storage b.back (data.drop size), back := b.back + (data.drop size).length }
      else b
    some (if data ≠ [] ∧ b.front = b.back then { b with isFull := true } else b)
  else none

def pop (b : CyclicBuffer α) (numToPop : Nat) : CyclicBuffer α :=
  let b := if numToPop ≠ 0 then { b with isFull := false } else b
  let wraps := decide (b.storage.length - b.front ≤ numToPop)
  let numToPop := if wraps then numToPop - (b.storage.length - b.front) else numToPop
  let b := { b with front := (if wraps then 0 else b.front) + numToPop }
  if b.empty then { b with front := 0, back := 0 } else b

def contiguousRange (b : CyclicBuffer α) : List α :=
  if b.isFull ∨ b.back < b.front then b.storage.drop b.front else (b.storage.drop b.front).take (b.back - b.front)

/-- The elements, from the front on. -/
def contents (b : CyclicBuffer α) : List α := (b.storage.drop b.front ++ b.storage.take b.front).take b.size

/-! ## The buffer as a queue -/

inductive Event (α : Type)
  | push (data : α)
  | pushRange (data : List α)
  | pop (numToPop : Nat)
deriving DecidableEq, Repr

def step (b : CyclicBuffer α) : Event α → Option (CyclicBuffer α)
  | .push data => b.push data
  | .pushRange data => b.pushRange data
  | .pop numToPop => some (b.pop numToPop)

/-- A queue of at most so many elements. -/
def queueStep (capacity : Nat) (xs : List α) : Event α → Option (List α)
  | .push data => if xs.length < capacity then some (xs ++ [data]) else none
  | .pushRange data => if data.length ≤ capacity - xs.length then some (xs ++ data) else none
  | .pop numToPop => if numToPop ≤ xs.length then some (xs.drop numToPop) else none

/-- What a user sees of a buffer that contains these elements. -/
structure Agrees (b : CyclicBuffer α) (xs : List α) : Prop where
  contents : b.contents = xs
  size : b.size = xs.length
  available : b.available = b.storage.length - xs.length
  empty : b.empty = true ↔ xs = []
  full : b.full = true ↔ xs.length = b.storage.length
  /-- The contiguous range, and the one that comes when it has been popped. -/
  ranges : xs = b.contiguousRange ++ (b.pop b.contiguousRange.length).contiguousRange
  nonempty : xs ≠ [] → b.contiguousRange ≠ []

/-! ## Where the elements are -/

/-- The elements are in one piece, with room behind them, or in two pieces: the first one reaches to the end
of the storage, and the later one starts at its beginning. -/
inductive Holds (b : CyclicBuffer α) : List α → Prop
  | linear (before xs behind : List α) (storage : b.storage = before ++ (xs ++ behind)) (room : behind ≠ [])
      (front : b.front = before.length) (back : b.back = before.length + xs.length) (isFull : b.isFull = false) :
      Holds b xs
  | wrapped (later free first : List α) (storage : b.storage = later ++ (free ++ first)) (nonempty : first ≠ [])
      (front : b.front = later.length + free.length) (back : b.back = later.length)
      (isFull : b.isFull = true ↔ free = []) : Holds b (first ++ later)

variable {b : CyclicBuffer α} {xs : List α}

theorem copy_append (x old y : List α) {data : List α} {position : Nat} (hposition : position = x.length)
    (hlength : old.length = data.length) : copy (x ++ (old ++ y)) position data = x ++ (data ++ y) := by
  subst hposition
  rw [copy, List.take_left, ← List.drop_drop, List.drop_left, ← hlength, List.drop_left, List.append_assoc]

theorem copy_nil (storage : List α) : copy storage 0 [] = storage := rfl

theorem length_copy {storage data : List α} {position : Nat} (h : position + data.length ≤ storage.length) :
    (copy storage position data).length = storage.length := by
  simp only [copy, List.length_append, List.length_take, List.length_drop]
  omega

theorem holds_create {storage : List α} (h : storage ≠ []) : Holds (create storage) [] :=
  .linear [] [] storage rfl h rfl rfl rfl

theorem Holds.size (h : Holds b xs) : b.size = xs.length := by
  unfold CyclicBuffer.size
  cases h with
  | linear before xs behind storage room front back isFull =>
      rw [isFull, if_neg Bool.false_ne_true, front, back, if_neg (by omega)]
      omega
  | wrapped later free first storage nonempty front back isFull =>
      have hlength := congrArg List.length storage
      simp only [List.length_append] at hlength ⊢
      split
      next hfull =>
          rw [isFull.mp hfull, List.length_nil] at hlength
          omega
      next hnot =>
          have hfree : 0 < free.length := List.length_pos_of_ne_nil fun hc => hnot (isFull.mpr hc)
          rw [front, back, if_pos (by omega)]
          omega

/-- The buffer is full when nothing is free between the two pieces. -/
theorem Holds.full_iff (h : Holds b xs) : b.full = true ↔ xs.length = b.storage.length := by
  unfold full
  cases h with
  | linear before xs behind storage room front back isFull =>
      have := List.length_pos_of_ne_nil room
      rw [storage, isFull, List.length_append, List.length_append]
      exact iff_of_false Bool.false_ne_true (by omega)
  | wrapped later free first storage nonempty front back isFull =>
      rw [isFull, storage, ← List.length_eq_zero_iff]
      simp only [List.length_append]
      omega

theorem Holds.empty_iff (h : Holds b xs) : b.empty = true ↔ xs = [] := by
  unfold empty
  cases h with
  | linear before xs behind storage room front back isFull =>
      rw [← List.length_eq_zero_iff, front, back, isFull]
      simp
  | wrapped later free first storage nonempty front back isFull =>
      rw [decide_eq_true_iff]
      refine iff_of_false ?_ (by simp [nonempty])
      rintro ⟨heq, hnot⟩
      rw [front, back] at heq
      rw [isFull.mpr (List.length_eq_zero_iff.mp (by omega))] at hnot
      cases hnot

theorem Holds.contents (h : Holds b xs) : b.contents = xs := by
  rw [CyclicBuffer.contents, h.size]
  cases h with
  | linear before xs behind storage room front back isFull =>
      rw [storage, front, List.drop_left, List.append_assoc, List.take_left]
  | wrapped later free first storage nonempty front back isFull =>
      rw [storage, front, ← List.length_append, ← List.append_assoc, List.drop_left, List.take_left,
        ← List.append_assoc, List.take_left]

/-! ## The operations -/

theorem Holds.linear_contiguousRange {before behind : List α} (storage : b.storage = before ++ (xs ++ behind))
    (front : b.front = before.length) (back : b.back = before.length + xs.length) (isFull : b.isFull = false) :
    b.contiguousRange = xs := by
  have hout : ¬ (b.isFull = true ∨ b.back < b.front) := by
    rw [isFull, front, back]
    simp
  rw [contiguousRange, if_neg hout, storage, front, back, List.drop_left, Nat.add_sub_cancel_left, List.take_left]

theorem Holds.wrapped_contiguousRange {later free first : List α} (storage : b.storage = later ++ (free ++ first))
    (front : b.front = later.length + free.length) (back : b.back = later.length)
    (isFull : b.isFull = true ↔ free = []) : b.contiguousRange = first := by
  have hin : b.isFull = true ∨ b.back < b.front := by
    rw [isFull, front, back, ← List.length_eq_zero_iff]
    omega
  rw [contiguousRange, if_pos hin, storage, front, ← List.length_append, ← List.append_assoc, List.drop_left]

/-- A buffer that becomes empty starts at the beginning of its storage again. -/
theorem holds_reset (hstorage : b.storage ≠ []) (isFull : b.isFull = false) :
    Holds { b with front := 0, back := 0 } [] :=
  .linear [] [] b.storage rfl hstorage rfl rfl isFull

/-- **`Pop` takes elements out at the front.** -/
theorem Holds.pop {numToPop : Nat} (h : Holds b xs) (hn : numToPop ≤ xs.length) :
    Holds (b.pop numToPop) (xs.drop numToPop) := by
  cases h with
  | linear before xs behind storage room front back isFull =>
      have hroom := List.length_pos_of_ne_nil room
      have hstorage : b.storage.length = before.length + (xs.length + behind.length) := by
        rw [storage, List.length_append, List.length_append]
      have hfull : (if numToPop ≠ 0 then { b with isFull := false } else b) = b := by
        split
        · rw [← isFull]
        · rfl
      have hwraps : ¬ b.storage.length - b.front ≤ numToPop := by omega
      unfold CyclicBuffer.pop
      simp only [hfull, decide_eq_false hwraps, Bool.false_eq_true, if_false]
      have hmoved : Holds { b with front := b.front + numToPop } (xs.drop numToPop) := by
        refine .linear (before ++ xs.take numToPop) _ behind ?_ room ?_ ?_ isFull
        · rw [List.append_assoc, ← List.append_assoc (xs.take numToPop), List.take_append_drop]
          exact storage
        · simp only [List.length_append, List.length_take, front]
          omega
        · simp only [List.length_append, List.length_take, List.length_drop, back]
          omega
      split
      next hempty =>
          rw [hmoved.empty_iff.mp hempty]
          refine @holds_reset _ { b with front := b.front + numToPop } ?_ isFull
          rw [storage]
          simp [room]
      next => exact hmoved
  | wrapped later free first storage nonempty front back isFull =>
      have hfirst := List.length_pos_of_ne_nil nonempty
      have hstorage : b.storage.length = later.length + (free.length + first.length) := by
        rw [storage, List.length_append, List.length_append]
      rw [List.length_append] at hn
      have hfull : (if numToPop ≠ 0 then { b with isFull := false } else b) =
          { b with isFull := b.isFull && decide (numToPop = 0) } := by
        split
        next hne => simp [hne]
        next hzero => simp [not_not.mp hzero]
      unfold CyclicBuffer.pop
      simp only [hfull]
      by_cases hwraps : b.storage.length - b.front ≤ numToPop
      · -- the piece at the end is taken out as a whole
        have hcleared : (b.isFull && decide (numToPop = 0)) = false := by
          rw [decide_eq_false (by omega), Bool.and_false]
        have hsplit : (first ++ later).drop numToPop = later.drop (numToPop - first.length) := by
          rw [List.drop_append, List.drop_of_length_le (by omega), List.nil_append]
        have hleft : numToPop - (b.storage.length - b.front) = numToPop - first.length := by omega
        simp only [decide_eq_true hwraps, if_true, hcleared, hleft, hsplit, Nat.zero_add]
        have hmoved : Holds { b with isFull := false, front := numToPop - first.length }
            (later.drop (numToPop - first.length)) := by
          refine .linear (later.take (numToPop - first.length)) _ (free ++ first) ?_ (by simp [nonempty]) ?_ ?_ rfl
          · rw [← List.append_assoc, List.take_append_drop]
            exact storage
          · simp only [List.length_take]
            omega
          · simp only [List.length_take, List.length_drop, back]
            omega
        split
        next hempty =>
            rw [hmoved.empty_iff.mp hempty]
            refine @holds_reset _ { b with isFull := false, front := numToPop - first.length } ?_ rfl
            rw [storage]
            simp [nonempty]
        next => exact hmoved
      · have hsplit : (first ++ later).drop numToPop = first.drop numToPop ++ later := by
          rw [List.drop_append_of_le_length (by omega)]
        have hrest : first.drop numToPop ≠ [] := by
          apply List.ne_nil_of_length_pos
          rw [List.length_drop]
          omega
        simp only [decide_eq_false hwraps, Bool.false_eq_true, if_false, hsplit]
        have hmoved : Holds { b with isFull := b.isFull && decide (numToPop = 0), front := b.front + numToPop }
            (first.drop numToPop ++ later) := by
          refine .wrapped later (free ++ first.take numToPop) _ ?_ hrest ?_ back ?_
          · rw [List.append_assoc, List.take_append_drop]
            exact storage
          · simp only [List.length_append, List.length_take, front]
            omega
          · rw [Bool.and_eq_true, isFull, decide_eq_true_iff, List.append_eq_nil_iff, List.take_eq_nil_iff]
            simp [nonempty]
        rw [if_neg]
        · exact hmoved
        · rw [hmoved.empty_iff]
          simp [hrest]

/-- Elements are copied behind those that are in one piece, and do not reach the end of the storage. -/
theorem Holds.linear_copy {before behind data : List α} (storage : b.storage = before ++ (xs ++ behind))
    (front : b.front = before.length) (back : b.back = before.length + xs.length) (isFull : b.isFull = false)
    (hroom : data.length < behind.length) :
    Holds { b with storage := copy b.storage b.back data, back := b.back + data.length } (xs ++ data) := by
  refine .linear before (xs ++ data) (behind.drop data.length) ?_ ?_ front ?_ isFull
  · have hbehind := List.take_append_drop data.length behind
    rw [← hbehind] at storage
    rw [storage, ← List.append_assoc, copy_append _ _ _ (by rw [back, List.length_append])
      (by rw [List.length_take]; omega), List.append_assoc, List.append_assoc]
  · apply List.ne_nil_of_length_pos
    rw [List.length_drop]
    omega
  · simp only [back, List.length_append]
    omega

/-- Elements are copied to the end of the storage, and more of them to its beginning. -/
theorem Holds.linear_copy_wrapped {before behind data : List α} (storage : b.storage = before ++ (xs ++ behind))
    (room : behind ≠ []) (front : b.front = before.length) (back : b.back = before.length + xs.length)
    (hroom : behind.length ≤ data.length) (hfits : data.length ≤ before.length + behind.length) {isFull : Bool}
    (hfull : isFull = true ↔ data.length = before.length + behind.length) :
    Holds ⟨copy (copy b.storage b.back (data.take behind.length)) 0 (data.drop behind.length), b.front,
      (data.drop behind.length).length, isFull⟩ (xs ++ data) := by
  have hfirst : (data.take behind.length).length = behind.length := by
    rw [List.length_take]
    omega
  have hlater : (data.drop behind.length).length = data.length - behind.length := List.length_drop
  have hend : copy b.storage b.back (data.take behind.length) = before ++ (xs ++ data.take behind.length) := by
    rw [storage, ← List.append_assoc, ← List.append_nil behind,
      copy_append _ _ _ (by rw [back, List.length_append]) (by rw [List.append_nil, hfirst])]
    simp
  have hbegin : copy (before ++ (xs ++ data.take behind.length)) 0 (data.drop behind.length) =
      data.drop behind.length ++ (before.drop (data.drop behind.length).length ++ (xs ++ data.take behind.length)) := by
    have hbefore := List.take_append_drop (data.drop behind.length).length before
    nth_rewrite 1 [← hbefore]
    rw [List.append_assoc]
    exact copy_append [] _ _ rfl (by rw [List.length_take]; omega)
  have hsplit : xs ++ data = (xs ++ data.take behind.length) ++ data.drop behind.length := by
    rw [List.append_assoc, List.take_append_drop]
  rw [hend, hbegin, hsplit]
  refine .wrapped _ (before.drop (data.drop behind.length).length) _ rfl ?_ ?_ rfl ?_
  · apply List.ne_nil_of_length_pos
    rw [List.length_append, hfirst]
    have := List.length_pos_of_ne_nil room
    omega
  · simp only [front, List.length_drop]
    omega
  · rw [hfull, List.drop_eq_nil_iff]
    omega

/-- Elements are copied between the two pieces. -/
theorem Holds.wrapped_copy {later free first data : List α} (storage : b.storage = later ++ (free ++ first))
    (nonempty : first ≠ []) (front : b.front = later.length + free.length) (back : b.back = later.length)
    (hroom : data.length ≤ free.length) {isFull : Bool} (hfull : isFull = true ↔ data.length = free.length) :
    Holds ⟨copy b.storage b.back data, b.front, b.back + data.length, isFull⟩ (first ++ later ++ data) := by
  rw [List.append_assoc]
  refine .wrapped (later ++ data) (free.drop data.length) first ?_ nonempty ?_ ?_ ?_
  · have hfree := List.take_append_drop data.length free
    rw [← hfree, List.append_assoc] at storage
    dsimp only
    rw [storage, copy_append _ _ _ back (by rw [List.length_take]; omega), List.append_assoc]
  · simp only [front, List.length_append, List.length_drop]
    omega
  · simp only [back, List.length_append]
  · rw [hfull, List.drop_eq_nil_iff]
    omega

/-- **`Push` of a range adds its elements at the back.** -/
theorem Holds.pushRange {data : List α} (h : Holds b xs) (hfits : data.length ≤ b.storage.length - xs.length) :
    ∃ b', b.pushRange data = some b' ∧ Holds b' (xs ++ data) ∧ b'.storage.length = b.storage.length := by
  unfold CyclicBuffer.pushRange
  rw [h.size, if_pos hfits]
  refine ⟨_, rfl, ?_⟩
  cases h with
  | linear before xs behind storage room front back isFull =>
      have hroom := List.length_pos_of_ne_nil room
      have hstorage : b.storage.length = before.length + (xs.length + behind.length) := by
        rw [storage, List.length_append, List.length_append]
      have hbehind : b.storage.length - b.back = behind.length := by omega
      rw [hbehind]
      by_cases hshort : data.length < behind.length
      · have hlength : (copy b.storage b.back data).length = b.storage.length := length_copy (by omega)
        have hwrap : b.back + data.length ≠ b.storage.length := by omega
        have hnot : ¬ (data ≠ [] ∧ b.front = b.back + data.length) := by
          rintro ⟨hne, heq⟩
          have := List.length_pos_of_ne_nil hne
          omega
        simp only [Nat.min_eq_left hshort.le, List.take_length, wrap, hlength, if_neg hwrap,
          if_neg (Nat.lt_irrefl data.length), if_neg hnot, and_true]
        exact linear_copy storage front back isFull hshort
      · have hend : (data.take behind.length).length = behind.length := by
          rw [List.length_take]
          omega
        have hlength : (copy b.storage b.back (data.take behind.length)).length = b.storage.length :=
          length_copy (by omega)
        have hlength' : (copy (copy b.storage b.back (data.take behind.length)) 0 (data.drop behind.length)).length =
            b.storage.length := by
          rw [length_copy, hlength]
          rw [hlength, List.length_drop]
          omega
        have hwrap : b.back + behind.length = b.storage.length := by omega
        have hne : data ≠ [] := by
          rintro rfl
          exact hshort hroom
        -- without a rest, nothing is copied to the beginning
        have hrest : (if behind.length < data.length then
            (⟨copy (copy b.storage b.back (data.take behind.length)) 0 (data.drop behind.length), b.front,
              0 + (data.drop behind.length).length, b.isFull⟩ : CyclicBuffer α)
            else ⟨copy b.storage b.back (data.take behind.length), b.front, 0, b.isFull⟩) =
            ⟨copy (copy b.storage b.back (data.take behind.length)) 0 (data.drop behind.length), b.front,
              (data.drop behind.length).length, b.isFull⟩ := by
          split
          · rw [Nat.zero_add]
          · rw [List.drop_eq_nil_of_le (by omega), copy_nil]
            rfl
        simp only [Nat.min_eq_right (Nat.le_of_not_lt hshort), wrap, hlength, if_pos hwrap, hrest]
        have hwrapped {isFull : Bool} := @linear_copy_wrapped _ b xs before behind data storage room front back
          (Nat.le_of_not_lt hshort) (by omega) isFull
        rw [List.length_drop] at hwrapped ⊢
        by_cases heq : b.front = data.length - behind.length
        · rw [if_pos ⟨hne, heq⟩]
          exact ⟨hwrapped (iff_of_true rfl (by omega)), hlength'⟩
        · rw [if_neg (fun hc => heq hc.2), isFull]
          exact ⟨hwrapped (iff_of_false Bool.false_ne_true (by omega)), hlength'⟩
  | wrapped later free first storage nonempty front back isFull =>
      have hfirst := List.length_pos_of_ne_nil nonempty
      have hstorage : b.storage.length = later.length + (free.length + first.length) := by
        rw [storage, List.length_append, List.length_append]
      rw [List.length_append] at hfits
      have hroom : data.length ≤ free.length := by omega
      have hbehind : data.length ≤ b.storage.length - b.back := by omega
      have hlength : (copy b.storage b.back data).length = b.storage.length := length_copy (by omega)
      have hwrap : b.back + data.length ≠ b.storage.length := by omega
      simp only [Nat.min_eq_left hbehind, List.take_length, wrap, hlength, if_neg hwrap,
        if_neg (Nat.lt_irrefl data.length)]
      have hwrapped {isFull : Bool} := @wrapped_copy _ b later free first data storage nonempty front back hroom isFull
      by_cases hdata : data = []
      · rw [if_neg (fun hc => hc.1 hdata)]
        refine ⟨hwrapped ?_, hlength⟩
        rw [isFull, hdata, ← List.length_eq_zero_iff, List.length_nil]
        exact eq_comm
      · have hpos := List.length_pos_of_ne_nil hdata
        by_cases heq : b.front = b.back + data.length
        · rw [if_pos ⟨hdata, heq⟩]
          exact ⟨hwrapped (iff_of_true rfl (by omega)), hlength⟩
        · have hnot : b.isFull = false := by
            rw [Bool.eq_false_iff, ne_eq, isFull, ← List.length_eq_zero_iff]
            omega
          rw [if_neg (fun hc => heq hc.2), hnot]
          exact ⟨hwrapped (iff_of_false Bool.false_ne_true (by omega)), hlength⟩

/-- `Push` of an element is `Push` of a range of one element. -/
theorem Holds.push_eq (h : Holds b xs) (hroom : xs.length < b.storage.length) (data : α) :
    b.push data = b.pushRange [data] := by
  have hnot : b.full = false := by
    rw [Bool.eq_false_iff, ne_eq, h.full_iff]
    omega
  have hback : b.back < b.storage.length := by
    cases h with
    | linear before xs behind storage room front back isFull =>
        have := List.length_pos_of_ne_nil room
        rw [storage, back, List.length_append, List.length_append]
        omega
    | wrapped later free first storage nonempty front back isFull =>
        have := List.length_pos_of_ne_nil nonempty
        rw [storage, back, List.length_append, List.length_append]
        omega
  have hone : min [data].length (b.storage.length - b.back) = [data].length :=
    Nat.min_eq_left (by rw [List.length_singleton]; omega)
  unfold CyclicBuffer.push CyclicBuffer.pushRange
  rw [if_neg (by simp [hnot]), h.size, if_pos (by rw [List.length_singleton]; omega), hone]
  simp

/-! ## Contiguous ranges -/

theorem Holds.contiguousRange_nil (h : Holds b []) : b.contiguousRange = [] := by
  generalize hxs : ([] : List α) = xs at h
  cases h with
  | linear before xs behind storage room front back isFull => exact linear_contiguousRange storage front back isFull
  | wrapped later free first storage nonempty front back isFull =>
      exact absurd (List.append_eq_nil_iff.mp hxs.symm).1 nonempty

theorem length_pop (b : CyclicBuffer α) (numToPop : Nat) : (b.pop numToPop).storage.length = b.storage.length := by
  unfold CyclicBuffer.pop
  dsimp only
  split_ifs <;> rfl

/-- When the piece at the end has been popped, the later one is left, in one piece. -/
theorem Holds.wrapped_pop {later free first : List α} (storage : b.storage = later ++ (free ++ first))
    (nonempty : first ≠ []) (front : b.front = later.length + free.length) (back : b.back = later.length) :
    (b.pop first.length).contiguousRange = later := by
  have hpos := List.length_pos_of_ne_nil nonempty
  have hstorage : b.storage.length = later.length + (free.length + first.length) := by
    rw [storage, List.length_append, List.length_append]
  have hend : b.storage.length - b.front = first.length := by omega
  have hpop : b.pop first.length = ⟨b.storage, 0, b.back, false⟩ := by
    unfold CyclicBuffer.pop
    simp only [if_pos (show first.length ≠ 0 by omega), hend, decide_true, Nat.le_refl, if_true, Nat.sub_self,
      Nat.zero_add]
    split
    next hempty =>
        have hzero : (0 : Nat) = b.back := (of_decide_eq_true hempty).1
        rw [← hzero]
    next => rfl
  rw [hpop, contiguousRange, if_neg (by simp), storage, back, List.drop_zero, Nat.sub_zero, List.take_left]

theorem Holds.agrees (h : Holds b xs) : Agrees b xs where
  contents := h.contents
  size := h.size
  available := by rw [CyclicBuffer.available, h.size]
  empty := h.empty_iff
  full := h.full_iff
  ranges := by
    cases h with
    | linear before xs behind storage room front back isFull =>
        rw [linear_contiguousRange storage front back isFull]
        have hpop := (Holds.linear before xs behind storage room front back isFull).pop (le_refl xs.length)
        rw [List.drop_length] at hpop
        rw [hpop.contiguousRange_nil, List.append_nil]
    | wrapped later free first storage nonempty front back isFull =>
        rw [wrapped_contiguousRange storage front back isFull, wrapped_pop storage nonempty front back]
  nonempty := by
    intro hne
    cases h with
    | linear before xs behind storage room front back isFull =>
        rw [linear_contiguousRange storage front back isFull]
        exact hne
    | wrapped later free first storage nonempty front back isFull =>
        rw [wrapped_contiguousRange storage front back isFull]
        exact nonempty

/-! ## Runs -/

/-- What the buffer does is what the queue does. -/
theorem step_simulates {capacity : Nat} {xs xs' : List α} {b : CyclicBuffer α} {e : Event α}
    (h : Holds b xs ∧ b.storage.length = capacity) (hstep : queueStep capacity xs e = some xs') :
    ∃ b', step b e = some b' ∧ Holds b' xs' ∧ b'.storage.length = capacity := by
  obtain ⟨h, rfl⟩ := h
  cases e with
  | push data =>
      rw [queueStep] at hstep
      split at hstep
      next hroom =>
          cases hstep
          rw [step, h.push_eq hroom]
          exact h.pushRange (by rw [List.length_singleton]; omega)
      next => cases hstep
  | pushRange data =>
      rw [queueStep] at hstep
      split at hstep
      next hfits =>
          cases hstep
          exact h.pushRange hfits
      next => cases hstep
  | pop numToPop =>
      rw [queueStep] at hstep
      split at hstep
      next hn =>
          cases hstep
          exact ⟨_, rfl, h.pop hn, length_pop b numToPop⟩
      next => cases hstep

/-- **The buffer is a queue.** Whatever is pushed while there is room and popped while there is something,
in whatever order, no assertion fails, and the buffer agrees with the list of the elements that were pushed
and not popped: after every operation, as the operations so far are a run as well. -/
theorem cyclicBuffer_refines_queue {storage : List α} (hstorage : storage ≠ []) {events : List (Event α)} {xs : List α}
    (h : EventSystem.run (queueStep storage.length) [] events = some xs) :
    ∃ b, EventSystem.run step (create storage) events = some b ∧ b.storage.length = storage.length ∧ Agrees b xs := by
  have hsimulates (xs : List α) (b : CyclicBuffer α) (e : Event α) (xs' : List α)
      (hb : Holds b xs ∧ b.storage.length = storage.length) (hstep : queueStep storage.length xs e = some xs') :
      ∃ b', step b e = some b' ∧ Holds b' xs' ∧ b'.storage.length = storage.length := step_simulates hb hstep
  obtain ⟨b, hrun, hb, hlength⟩ := EventSystem.run_simulates _ hsimulates h ⟨holds_create hstorage, rfl⟩
  exact ⟨b, hrun, hlength, hb.agrees⟩

/-- The buffer is filled across the end of its storage, emptied in part, and filled once more. -/
theorem cyclicBuffer_refines_queue_wrapped : ∃ b, EventSystem.run step (create [0, 0, 0, 0])
      [.pushRange [1, 2, 3], .pop 2, .pushRange [4, 5, 6], .pop 0, .pop 2, .push 7] = some b
    ∧ b.storage.length = 4 ∧ Agrees b [5, 6, 7] :=
  cyclicBuffer_refines_queue (by decide) (by decide)

end CyclicBuffer

end EmbeddedInfra
