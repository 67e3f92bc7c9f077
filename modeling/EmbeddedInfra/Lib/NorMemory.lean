import Mathlib.Data.List.GetD
import Mathlib.Tactic

set_option autoImplicit false

/-! # Byte memory with the write behaviour of NOR flash

A memory maps addresses to bytes. Erasing sets bytes to `0xff`; programming can only clear bits,
so a byte that is programmed becomes the conjunction of its old value and the byte written. The
lemmas say how the list read from a range (`read`) changes when another range, or a part of the
range, is programmed or erased.
-/

namespace NorMemory

/-- The contents of a memory, byte by byte. -/
abbrev Memory := Nat → UInt8

/-- An erased byte. -/
def blank : UInt8 := 0xff

/-- The `n` bytes from address `a` on. -/
def read (m : Memory) (a n : Nat) : List UInt8 := (List.range n).map (fun i => m (a + i))

/-- Program the bytes `d` from address `a` on. -/
def program (m : Memory) (a : Nat) (d : List UInt8) : Memory :=
  fun x => if a ≤ x ∧ x < a + d.length then m x &&& d.getD (x - a) blank else m x

/-- Erase the `n` bytes from address `a` on. -/
def erase (m : Memory) (a n : Nat) : Memory :=
  fun x => if a ≤ x ∧ x < a + n then blank else m x

@[simp] theorem length_read (m : Memory) (a n : Nat) : (read m a n).length = n := by
  simp [read]

theorem read_add (m : Memory) (a n k : Nat) :
    read m a (n + k) = read m a n ++ read m (a + n) k := by
  simp [read, List.range_add, Nat.add_assoc]

theorem read_one (m : Memory) (a : Nat) : read m a 1 = [m a] := rfl

variable {m : Memory} {a n b k : Nat} {p r d : List UInt8}

/-- Reading a part of a range whose contents are known. -/
theorem read_part {q : List UInt8} (h : read m a n = p ++ q ++ r)
    (hb : b = a + p.length) (hk : k = q.length) : read m b k = q := by
  have hn : n = p.length + (k + r.length) := by
    have := congrArg List.length h
    simp only [length_read, List.length_append] at this
    omega
  rw [hn, read_add, read_add, ← hb, List.append_assoc] at h
  have h1 := (List.append_inj h (by simp)).2
  exact (List.append_inj h1 (by simp [hk])).1

/-- The byte at the front of a part of a range whose contents are known. -/
theorem get_part {x : UInt8} (h : read m a n = p ++ x :: r) (hb : b = a + p.length) : m b = x := by
  have h' : read m a n = p ++ [x] ++ r := by simpa using h
  have := read_part h' hb (show 1 = [x].length by rfl)
  simpa [read_one] using this

theorem read_congr {m' : Memory} (h : ∀ x, a ≤ x → x < a + n → m x = m' x) :
    read m a n = read m' a n := by
  refine List.map_congr_left (fun i hi => h _ (by omega) ?_)
  have := List.mem_range.mp hi
  omega

theorem read_program_disjoint
    (h : a + n ≤ b ∨ b + d.length ≤ a) : read (program m b d) a n = read m a n :=
  read_congr (fun x _ _ => if_neg (by omega))

theorem program_nil (m : Memory) (a : Nat) : program m a [] = m :=
  funext fun _ => if_neg (by rw [List.length_nil]; omega)

/-- Programming two parts of a range one after the other. -/
theorem program_append (m : Memory) (a : Nat) (first second : List UInt8) :
    program (program m a first) (a + first.length) second = program m a (first ++ second) := by
  funext x
  simp only [program, List.length_append]
  by_cases hfirst : a ≤ x ∧ x < a + first.length
  · rw [if_neg (by omega), if_pos hfirst, if_pos (by omega), List.getD_append _ _ _ _ (by omega)]
  · by_cases hsecond : a + first.length ≤ x ∧ x < a + first.length + second.length
    · rw [if_pos hsecond, if_neg hfirst, if_pos (by omega), List.getD_append_right _ _ _ _ (by omega), Nat.sub_sub]
    · rw [if_neg hsecond, if_neg hfirst, if_neg (by omega)]

theorem erase_append (m : Memory) (a n k : Nat) : erase (erase m a n) (a + n) k = erase m a (n + k) := by
  funext x
  simp only [erase]
  split_ifs
  all_goals first | rfl | omega

/-- Program bytes one by one. -/
def programBytes (m : Memory) (a : Nat) : List UInt8 → Memory
  | [] => m
  | x :: d => programBytes (program m a [x]) (a + 1) d

/-- Erase units of this size one by one. -/
def eraseUnits (size : Nat) (m : Memory) (first : Nat) : Nat → Memory
  | 0 => m
  | n + 1 => eraseUnits size (erase m (first * size) size) (first + 1) n

theorem programBytes_eq (m : Memory) (a : Nat) (d : List UInt8) : programBytes m a d = program m a d := by
  induction d generalizing m a with
  | nil => exact (program_nil m a).symm
  | cons x d ih =>
      calc programBytes (program m a [x]) (a + 1) d
        _ = program (program m a [x]) (a + [x].length) d := ih _ _
        _ = program m a (x :: d) := program_append m a [x] d

theorem eraseUnits_eq (size : Nat) (m : Memory) (first n : Nat) :
    eraseUnits size m first n = erase m (first * size) (n * size) := by
  induction n generalizing m first with
  | zero =>
      funext x
      rw [Nat.zero_mul]
      exact (if_neg (by omega)).symm
  | succ n ih =>
      calc eraseUnits size (erase m (first * size) size) (first + 1) n
        _ = erase (erase m (first * size) size) (first * size + size) (n * size) := by rw [ih, Nat.succ_mul]
        _ = erase m (first * size) ((n + 1) * size) := by rw [erase_append, Nat.add_comm size, Nat.succ_mul]

theorem read_erase (m : Memory) (a : Nat) (h : n ≤ k) :
    read (erase m a k) a n = List.replicate n blank := by
  refine List.ext_getElem (by simp) (fun i h1 h2 => ?_)
  simp only [length_read] at h1
  simp [read, erase, Nat.lt_of_lt_of_le h1 h]

theorem read_program_self (m : Memory) (a : Nat) (d : List UInt8) :
    read (program m a d) a d.length = List.zipWith (· &&& ·) (read m a d.length) d := by
  refine List.ext_getElem (by simp) (fun i h1 h2 => ?_)
  simp only [length_read] at h1
  simp [read, program, h1]

/-- Programming a part of a range changes that part only. -/
theorem read_program_part {q : List UInt8}
    (h : read m a n = p ++ q ++ r) (hb : b = a + p.length) (hd : d.length = q.length) :
    read (program m b d) a n = p ++ List.zipWith (· &&& ·) q d ++ r := by
  have hn : n = p.length + (d.length + r.length) := by
    have := congrArg List.length h
    simp only [length_read, List.length_append] at this
    omega
  have hq : read m b d.length = q := read_part h hb hd
  have hp : read m a p.length = p := read_part (p := []) (by simpa using h) (by simp) rfl
  have hr : read m (b + d.length) r.length = r :=
    read_part (p := p ++ q) (r := []) (by simpa using h) (by simp [hb]; omega) rfl
  rw [hn, read_add, read_add, ← hb, read_program_disjoint (by omega), read_program_self,
    read_program_disjoint (by omega), hq, hp, hr, List.append_assoc]

theorem blank_and (x : UInt8) : blank &&& x = x := by
  apply UInt8.toBitVec_inj.mp
  exact BitVec.allOnes_and

/-- Programming erased bytes writes them as they are. -/
theorem zipWith_blank (d : List UInt8) :
    List.zipWith (· &&& ·) (List.replicate d.length blank) d = d := by
  induction d with
  | nil => rfl
  | cons x d ih => simp [List.replicate_succ, blank_and, ih]

/-- Programming a part of an erased end of a range. -/
theorem read_program_blank (h : read m a n = p ++ List.replicate k blank) (hb : b = a + p.length)
    (hd : d.length ≤ k) :
    read (program m b d) a n = p ++ d ++ List.replicate (k - d.length) blank := by
  have hsplit : List.replicate k blank
      = List.replicate d.length blank ++ List.replicate (k - d.length) blank := by
    rw [← List.replicate_add, Nat.add_sub_cancel' hd]
  rw [hsplit, ← List.append_assoc] at h
  rw [read_program_part h hb (by simp), zipWith_blank]

end NorMemory
