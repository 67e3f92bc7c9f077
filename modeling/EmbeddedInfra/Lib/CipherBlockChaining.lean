import Mathlib.Tactic

set_option autoImplicit false

/-! # Cipher block chaining

Each block of the data is laid over the encrypted block before it, and then encrypted; the first block is laid
over an initial block. Decryption takes that back (`decrypt_encrypt`), and whole blocks at a time can be
decrypted in turn when the last encrypted block is kept (`decrypt_append`). With a suitable initial block, any
block of the encrypted data can be made to be whatever is wanted (`exists_initial`).
-/

namespace CipherBlockChaining

/-- Blocks of bytes of one length to blocks, and back. -/
structure BlockCipher (blockLength : Nat) where
  encrypt : List UInt8 → List UInt8
  decrypt : List UInt8 → List UInt8
  length_encrypt : ∀ block, block.length = blockLength → (encrypt block).length = blockLength
  length_decrypt : ∀ block, block.length = blockLength → (decrypt block).length = blockLength
  decrypt_encrypt : ∀ block, block.length = blockLength → decrypt (encrypt block) = block
  encrypt_decrypt : ∀ block, block.length = blockLength → encrypt (decrypt block) = block

/-- One block over another. -/
def overlay (first second : List UInt8) : List UInt8 := List.zipWith (· ^^^ ·) first second

/-- The last of so many encrypted blocks, and the initial one if there are none. -/
def lastBlock (blockLength : Nat) : Nat → List UInt8 → List UInt8 → List UInt8
  | 0, initial, _ => initial
  | n + 1, _, encrypted => lastBlock blockLength n (encrypted.take blockLength) (encrypted.drop blockLength)

section Chains

variable {blockLength : Nat} (c : BlockCipher blockLength)

/-- Encrypt so many blocks. -/
def encrypt : Nat → List UInt8 → List UInt8 → List UInt8
  | 0, _, _ => []
  | n + 1, initial, data =>
      c.encrypt (overlay (data.take blockLength) initial) ++
        encrypt n (c.encrypt (overlay (data.take blockLength) initial)) (data.drop blockLength)

/-- Decrypt so many blocks. -/
def decrypt : Nat → List UInt8 → List UInt8 → List UInt8
  | 0, _, _ => []
  | n + 1, initial, encrypted =>
      overlay (c.decrypt (encrypted.take blockLength)) initial ++
        decrypt n (encrypted.take blockLength) (encrypted.drop blockLength)

end Chains

/-! ## Blocks -/

section Blocks

variable {blockLength n : Nat} {first second initial data : List UInt8}

theorem length_overlay (hfirst : first.length = blockLength) (hsecond : second.length = blockLength) :
    (overlay first second).length = blockLength := by
  rw [overlay, List.length_zipWith, hfirst, hsecond, Nat.min_self]

/-- What is laid over twice is taken off again. -/
theorem overlay_overlay (h : first.length = second.length) : overlay (overlay first second) second = first := by
  induction first generalizing second with
  | nil => simp [overlay]
  | cons x first ih =>
      cases second with
      | nil => simp at h
      | cons y second =>
          have hrest := @ih second (by simpa using h)
          simp only [overlay, List.zipWith_cons_cons] at hrest ⊢
          rw [hrest, UInt8.xor_assoc, UInt8.xor_self, UInt8.xor_zero]

theorem overlay_comm (first second : List UInt8) : overlay first second = overlay second first :=
  List.zipWith_comm_of_comm (fun x y => UInt8.xor_comm x y)

/-- The front block of data that has one. -/
theorem length_front (h : data.length = (n + 1) * blockLength) : (data.take blockLength).length = blockLength := by
  rw [List.length_take, h, Nat.succ_mul]
  omega

theorem length_behind (h : data.length = (n + 1) * blockLength) :
    (data.drop blockLength).length = n * blockLength := by
  rw [List.length_drop, h, Nat.succ_mul, Nat.add_sub_cancel]

theorem length_lastBlock (hinitial : initial.length = blockLength) (h : data.length = n * blockLength) :
    (lastBlock blockLength n initial data).length = blockLength := by
  induction n generalizing initial data with
  | zero => exact hinitial
  | succ n ih => exact ih (length_front h) (length_behind h)

end Blocks

/-! ## Chains of blocks -/

section Chains

variable {blockLength m n : Nat} {c : BlockCipher blockLength} {first second initial data : List UInt8}

theorem length_encrypt (hinitial : initial.length = blockLength) (h : data.length = n * blockLength) :
    (encrypt c n initial data).length = n * blockLength := by
  induction n generalizing initial data with
  | zero => rw [encrypt, List.length_nil, Nat.zero_mul]
  | succ n ih =>
      have hblock := c.length_encrypt _ (length_overlay (length_front h) hinitial)
      rw [encrypt, List.length_append, hblock, ih hblock (length_behind h), Nat.succ_mul, Nat.add_comm]

theorem length_decrypt (hinitial : initial.length = blockLength) (h : data.length = n * blockLength) :
    (decrypt c n initial data).length = n * blockLength := by
  induction n generalizing initial data with
  | zero => rw [decrypt, List.length_nil, Nat.zero_mul]
  | succ n ih =>
      have hblock := length_overlay (c.length_decrypt _ (length_front h)) hinitial
      rw [decrypt, List.length_append, hblock, ih (length_front h) (length_behind h), Nat.succ_mul, Nat.add_comm]

theorem decrypt_encrypt (hinitial : initial.length = blockLength) (h : data.length = n * blockLength) :
    decrypt c n initial (encrypt c n initial data) = data := by
  induction n generalizing initial data with
  | zero =>
      rw [Nat.zero_mul] at h
      rw [List.length_eq_zero_iff.mp h, decrypt]
  | succ n ih =>
      have hover := length_overlay (length_front h) hinitial
      have hblock := c.length_encrypt _ hover
      rw [encrypt, decrypt, List.take_left' hblock, List.drop_left' hblock, c.decrypt_encrypt _ hover,
        overlay_overlay ((length_front h).trans hinitial.symm), ih hblock (length_behind h), List.take_append_drop]

/-- Blocks in two goes. -/
theorem decrypt_append (hfirst : first.length = m * blockLength) :
    decrypt c (m + n) initial (first ++ second) =
      decrypt c m initial first ++ decrypt c n (lastBlock blockLength m initial first) second := by
  induction m generalizing initial first with
  | zero =>
      rw [Nat.zero_mul] at hfirst
      rw [List.length_eq_zero_iff.mp hfirst, Nat.zero_add, List.nil_append, decrypt, List.nil_append, lastBlock]
  | succ m ih =>
      have hle : blockLength ≤ first.length := by
        rw [hfirst, Nat.succ_mul]
        omega
      rw [Nat.succ_add, decrypt, List.take_append_of_le_length hle, List.drop_append_of_le_length hle,
        ih (length_behind hfirst), decrypt, List.append_assoc, lastBlock]

/-- For one initial block, the encrypted block behind the first `n` is this one. -/
theorem exists_initial {block : List UInt8} (hblock : block.length = blockLength)
    (h : (n + 1) * blockLength ≤ data.length) :
    ∃ initial, initial.length = blockLength ∧
      ∀ k, ∃ rest, (encrypt c (n + 1 + k) initial data).drop (n * blockLength) = block ++ rest := by
  induction n generalizing data with
  | zero =>
      rw [Nat.zero_add, Nat.one_mul] at h
      have hfront : (data.take blockLength).length = blockLength := by
        rw [List.length_take]
        omega
      have hdecrypted := c.length_decrypt block hblock
      have hencrypted : c.encrypt (overlay (data.take blockLength) (overlay (c.decrypt block) (data.take blockLength))) =
          block := by
        rw [overlay_comm, overlay_overlay (hdecrypted.trans hfront.symm), c.encrypt_decrypt block hblock]
      refine ⟨overlay (c.decrypt block) (data.take blockLength), length_overlay hdecrypted hfront, ?_⟩
      intro k
      rw [Nat.zero_mul, List.drop_zero, Nat.zero_add, Nat.add_comm 1 k, encrypt, hencrypted]
      exact ⟨_, rfl⟩
  | succ n ih =>
      rw [Nat.succ_mul] at h
      have hfront : (data.take blockLength).length = blockLength := by
        rw [List.length_take]
        omega
      -- the block that follows the first one takes it for its initial block
      obtain ⟨second, hsecond, hrest⟩ := @ih (data.drop blockLength) (by rw [List.length_drop]; omega)
      have hdecrypted := c.length_decrypt second hsecond
      have hencrypted : c.encrypt (overlay (data.take blockLength) (overlay (c.decrypt second) (data.take blockLength))) =
          second := by
        rw [overlay_comm, overlay_overlay (hdecrypted.trans hfront.symm), c.encrypt_decrypt second hsecond]
      refine ⟨overlay (c.decrypt second) (data.take blockLength), length_overlay hdecrypted hfront, ?_⟩
      intro k
      obtain ⟨rest, hbehind⟩ := hrest k
      have hcount : n + 1 + 1 + k = n + 1 + k + 1 := by omega
      have hdrop : (n + 1) * blockLength = second.length + n * blockLength := by
        rw [hsecond, Nat.succ_mul, Nat.add_comm]
      rw [hcount, encrypt, hencrypted, hdrop, List.drop_length_add_append]
      exact ⟨rest, hbehind⟩

end Chains

end CipherBlockChaining
