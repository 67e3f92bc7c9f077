import EmbeddedInfra.Lib.CounterMode
import EmbeddedInfra.Upgrade.UpgradePack

set_option autoImplicit false

/-! # Encryption of images

`application::Decryptor` decrypts an image in place, part by part, after its state has been read from the
pack. `Opens` says that it takes back what the pack builder has done, in whatever parts; it holds for
`DecryptorNone` with `ImageEncryptorNone`, and for `DecryptorAesTiny` and `DecryptorAesMbedTls` with
`ImageEncryptorAes` (`opens_none`, `opens_aes`, `opens_aesMbedTls`). The cipher itself, `AES128_ECB_encrypt` and
`mbedtls_aes_crypt_ecb` with one key, is a parameter.
-/

namespace EmbeddedInfra.Upgrade

open CounterMode

/-- `S` is the state of the decryptor, and `reset` gives it a state buffer and resets it. -/
structure Decryptor (S : Type) where
  stateSize : Nat
  reset : S → List UInt8 → S
  decryptPart : S → List UInt8 → List UInt8 × S
  decryptAndAuthenticate : S → List UInt8 → (List UInt8 × Bool) × S
  length_decryptPart : ∀ s data, (decryptPart s data).1.length = data.length
  length_decryptAndAuthenticate : ∀ s data, (decryptAndAuthenticate s data).1.1.length = data.length

namespace Decryptor

variable {S : Type}

/-- Parts are decrypted one after the other. -/
def decryptParts (d : Decryptor S) : S → List (List UInt8) → List UInt8
  | _, [] => []
  | s, part :: parts => (d.decryptPart s part).1 ++ d.decryptParts (d.decryptPart s part).2 parts

/-- In whatever parts they come, these bytes become that data. -/
def Decrypts (d : Decryptor S) (s : S) (encrypted data : List UInt8) : Prop :=
  ∀ parts : List (List UInt8), parts.flatten = encrypted → d.decryptParts s parts = data

/-- The decryptor takes back what the security does, from any state that it is in. -/
def Opens (d : Decryptor S) (security : ImageSecurity) : Prop :=
  ∀ s data, ∃ state encrypted, security.secure data = state ++ encrypted ∧ state.length = d.stateSize ∧
    encrypted.length = data.length ∧ d.Decrypts (d.reset s state) encrypted data

/-- The part that comes first. -/
theorem Decrypts.part {d : Decryptor S} {s : S} {first second data : List UInt8}
    (h : d.Decrypts s (first ++ second) data) :
    (d.decryptPart s first).1 = data.take first.length ∧
      d.Decrypts (d.decryptPart s first).2 second (data.drop first.length) := by
  have happend (parts : List (List UInt8)) (hparts : parts.flatten = second) :
      (d.decryptPart s first).1 ++ d.decryptParts (d.decryptPart s first).2 parts = data :=
    h (first :: parts) (by rw [List.flatten_cons, hparts])
  have hlen := d.length_decryptPart s first
  constructor
  · have hwhole := happend [second] (by simp)
    rw [← hwhole, ← hlen, List.take_left]
  · intro parts hparts
    rw [← happend parts hparts, ← hlen, List.drop_left]

theorem length_decryptParts (d : Decryptor S) (s : S) (parts : List (List UInt8)) :
    (d.decryptParts s parts).length = parts.flatten.length := by
  induction parts generalizing s with
  | nil => rfl
  | cons part parts ih =>
      rw [decryptParts, List.length_append, d.length_decryptPart, ih, List.flatten_cons, List.length_append]

theorem Decrypts.length {d : Decryptor S} {s : S} {encrypted data : List UInt8} (h : d.Decrypts s encrypted data) :
    data.length = encrypted.length := by
  rw [← h [encrypted] (by simp), length_decryptParts, List.flatten_cons, List.flatten_nil, List.append_nil]

end Decryptor

/-! ## Without encryption -/

def imageEncryptorNone : ImageSecurity := { encryptionAndMacMethod := 0, secure := id }

def decryptorNone {S : Type} : Decryptor S :=
  { stateSize := 0
    reset := fun s _ => s
    decryptPart := fun s data => (data, s)
    decryptAndAuthenticate := fun s data => ((data, true), s)
    length_decryptPart := fun _ _ => rfl
    length_decryptAndAuthenticate := fun _ _ => rfl }

theorem decryptParts_none {S : Type} (s : S) (parts : List (List UInt8)) :
    decryptorNone.decryptParts s parts = parts.flatten := by
  induction parts with
  | nil => rfl
  | cons part parts ih =>
      rw [List.flatten_cons, ← ih]
      rfl

theorem opens_none {S : Type} : (@decryptorNone S).Opens imageEncryptorNone := by
  intro s data
  refine ⟨[], data, rfl, rfl, rfl, ?_⟩
  intro parts hparts
  rw [decryptParts_none, hparts]

/-! ## With AES in counter mode -/

/-- Add one to a number whose low byte comes first. -/
def increase : List UInt8 → List UInt8
  | [] => []
  | digit :: digits => if digit + 1 ≠ 0 then (digit + 1) :: digits else 0 :: increase digits

/-- `IncreaseCounter` starts at the last byte. -/
def increaseCounter (counter : List UInt8) : List UInt8 := (increase counter.reverse).reverse

section Aes

variable (aes : List UInt8 → List UInt8)

/-- `mbedtls_aes_crypt_ctr`, whose counter is increased in the same way. -/
def mbedtlsAesCryptCtr (ncOff : Nat) (nonceCounter streamBlock input : List UInt8) : List UInt8 :=
  crypt aes increaseCounter 16 { counter := nonceCounter, block := streamBlock, offset := ncOff } input

/-- `ImageEncryptorAes`, when the random number generator has given this counter. -/
def imageEncryptorAes (counter : List UInt8) : ImageSecurity :=
  { encryptionAndMacMethod := 1
    secure := fun data => counter ++ mbedtlsAesCryptCtr aes 0 counter (List.replicate 16 0) data }

/-- The loop of `CheckDecryption`, which takes the next block when it is at the end of one. -/
def checkDecryptionLoop : List UInt8 → List UInt8 → Nat → List UInt8 → List UInt8
  | _, _, _, [] => []
  | counter, currentStreamBlock, currentStreamBlockOffset, front :: data =>
      if currentStreamBlockOffset = 16 then
        (front ^^^ (aes counter).getD 0 0) :: checkDecryptionLoop (increaseCounter counter) (aes counter) 1 data
      else
        (front ^^^ currentStreamBlock.getD currentStreamBlockOffset 0) ::
          checkDecryptionLoop counter currentStreamBlock (currentStreamBlockOffset + 1) data

/-- `CheckDecryption`, without which `Secure` throws, with what `mbedtls_aes_self_test` returns. -/
def checkDecryption (selfTest : Int) (original encrypted : List UInt8) : Bool :=
  selfTest = 0 ∧ checkDecryptionLoop aes (encrypted.take 16) (List.replicate 16 0) 16 (encrypted.drop 16) = original

theorem checkDecryptionLoop_eq (counter block : List UInt8) (offset : Nat) (data : List UInt8) (hpos : 0 < offset)
    (hle : offset ≤ 16) : checkDecryptionLoop aes counter block offset data =
      crypt aes increaseCounter 16 { counter := counter, block := block, offset := offset % 16 } data := by
  induction data generalizing counter block offset with
  | nil => rfl
  | cons front data ih =>
      by_cases hend : offset = 16
      · subst hend
        rw [checkDecryptionLoop, if_pos rfl, ih _ _ _ (by omega) (by omega)]
        rfl
      · have hmod : offset % 16 = offset := Nat.mod_eq_of_lt (by omega)
        have hne : offset ≠ 0 := by omega
        rw [checkDecryptionLoop, if_neg hend, ih _ _ _ (by omega) (by omega), crypt]
        simp [mask, refill, advance, hmod, hne]

/-- The exception is not thrown. -/
theorem checkDecryption_secure {counter : List UInt8} (hcounter : counter.length = 16) (data : List UInt8) :
    checkDecryption aes 0 data ((imageEncryptorAes aes counter).secure data) = true := by
  simp only [checkDecryption, imageEncryptorAes, ← hcounter, List.take_left, List.drop_left, decide_eq_true_eq]
  rw [hcounter, checkDecryptionLoop_eq _ _ _ _ _ (by omega) (by omega)]
  exact ⟨trivial, crypt_crypt data⟩

theorem checkDecryption_secure_two :
    checkDecryption id 0 [1, 2] ((imageEncryptorAes id (List.replicate 16 7)).secure [1, 2]) = true :=
  checkDecryption_secure id List.length_replicate [1, 2]

structure DecryptorAesTiny where
  currentStreamBlockOffset : Nat
  currentStreamBlock : List UInt8
  counter : List UInt8

namespace DecryptorAesTiny

def fetchBlock (s : DecryptorAesTiny) : DecryptorAesTiny :=
  if s.currentStreamBlockOffset = 0 then
    { s with currentStreamBlock := aes s.counter, counter := increaseCounter s.counter }
  else s

def nextByte (s : DecryptorAesTiny) : DecryptorAesTiny :=
  { s with
    currentStreamBlockOffset :=
      if s.currentStreamBlockOffset + 1 = 16 then 0 else s.currentStreamBlockOffset + 1 }

def decryptPart (s : DecryptorAesTiny) : List UInt8 → List UInt8 × DecryptorAesTiny
  | [] => ([], s)
  | front :: data =>
      let fetched := s.fetchBlock aes
      let rest := decryptPart fetched.nextByte data
      ((front ^^^ fetched.currentStreamBlock.getD fetched.currentStreamBlockOffset 0) :: rest.1, rest.2)

/-- Where the decryptor is in its stream. -/
def position (s : DecryptorAesTiny) : Position (List UInt8) :=
  { counter := s.counter, block := s.currentStreamBlock, offset := s.currentStreamBlockOffset }

variable {aes}

theorem position_fetchBlock (s : DecryptorAesTiny) : (s.fetchBlock aes).position = refill aes increaseCounter s.position := by
  by_cases h : s.currentStreamBlockOffset = 0
  · simp [fetchBlock, refill, position, h]
  · simp [fetchBlock, refill, position, h]

theorem offset_fetchBlock (s : DecryptorAesTiny) :
    (s.fetchBlock aes).currentStreamBlockOffset = s.currentStreamBlockOffset := by
  unfold fetchBlock
  split
  · rfl
  · rfl

theorem position_nextByte {s : DecryptorAesTiny} (h : s.currentStreamBlockOffset < 16) :
    (s.fetchBlock aes).nextByte.position = advance aes increaseCounter 16 s.position := by
  have hoffset : (if s.currentStreamBlockOffset + 1 = 16 then 0 else s.currentStreamBlockOffset + 1) =
      (s.currentStreamBlockOffset + 1) % 16 := by
    split
    · omega
    · omega
  rw [advance, ← position_fetchBlock]
  simp only [nextByte, position, offset_fetchBlock, hoffset]

theorem nextByte_lt (s : DecryptorAesTiny) (h : s.currentStreamBlockOffset < 16) :
    (s.fetchBlock aes).nextByte.currentStreamBlockOffset < 16 := by
  simp only [nextByte, offset_fetchBlock]
  split
  · omega
  · omega

/-- Decryption is counter mode, from where the decryptor is. -/
theorem decryptPart_eq {s : DecryptorAesTiny} (h : s.currentStreamBlockOffset < 16) (data : List UInt8) :
    (s.decryptPart aes data).1 = crypt aes increaseCounter 16 s.position data ∧
      (s.decryptPart aes data).2.position = after aes increaseCounter 16 s.position data.length ∧
      (s.decryptPart aes data).2.currentStreamBlockOffset < 16 := by
  induction data generalizing s with
  | nil => exact ⟨rfl, rfl, h⟩
  | cons front data ih =>
      obtain ⟨hdata, hposition, hlt⟩ := ih (@nextByte_lt aes s h)
      have hmask : (s.fetchBlock aes).currentStreamBlock.getD (s.fetchBlock aes).currentStreamBlockOffset 0 =
          mask aes increaseCounter s.position := by
        rw [mask, ← position_fetchBlock, offset_fetchBlock]
        rfl
      refine ⟨?_, ?_, hlt⟩
      · rw [decryptPart, crypt, hmask, hdata, position_nextByte h]
      · rw [List.length_cons, after, Function.iterate_succ_apply, ← position_nextByte h]
        exact hposition

theorem length_decryptPart (s : DecryptorAesTiny) (data : List UInt8) : (s.decryptPart aes data).1.length = data.length := by
  induction data generalizing s with
  | nil => rfl
  | cons front data ih => simp [decryptPart, ih]

end DecryptorAesTiny

def decryptorAesTiny : Decryptor DecryptorAesTiny :=
  { stateSize := 16
    reset := fun s buffer => { s with counter := buffer, currentStreamBlockOffset := 0 }
    decryptPart := fun s data => s.decryptPart aes data
    decryptAndAuthenticate := fun s data => (((s.decryptPart aes data).1, true), (s.decryptPart aes data).2)
    length_decryptPart := DecryptorAesTiny.length_decryptPart
    length_decryptAndAuthenticate := DecryptorAesTiny.length_decryptPart }

variable {aes}

/-- The parts continue the stream. -/
theorem decryptParts_aes {s : DecryptorAesTiny} (h : s.currentStreamBlockOffset < 16) (parts : List (List UInt8)) :
    (decryptorAesTiny aes).decryptParts s parts = crypt aes increaseCounter 16 s.position parts.flatten := by
  induction parts generalizing s with
  | nil => rfl
  | cons part parts ih =>
      obtain ⟨hpart, hposition, hlt⟩ := @DecryptorAesTiny.decryptPart_eq aes s h part
      have hrest := ih hlt
      rw [Decryptor.decryptParts, List.flatten_cons, crypt_append, ← hpart, ← hposition]
      rw [← hrest]
      rfl

theorem opens_aes {counter : List UInt8} (hcounter : counter.length = 16) :
    (decryptorAesTiny aes).Opens (imageEncryptorAes aes counter) := by
  intro s data
  refine ⟨counter, mbedtlsAesCryptCtr aes 0 counter (List.replicate 16 0) data, rfl, hcounter, length_crypt _, ?_⟩
  intro parts hparts
  have hstart : ((decryptorAesTiny aes).reset s counter).currentStreamBlockOffset < 16 := Nat.zero_lt_succ _
  rw [decryptParts_aes hstart, hparts]
  show crypt aes increaseCounter 16 { counter := counter, block := s.currentStreamBlock, offset := 0 } _ = data
  rw [crypt_of_start counter s.currentStreamBlock (List.replicate 16 0), mbedtlsAesCryptCtr, crypt_crypt]

/-- `application::DecryptorAesMbedTls`, whose members are those that `mbedtls_aes_crypt_ctr` works on. -/
def decryptorAesMbedTls (aes : List UInt8 → List UInt8) : Decryptor (Position (List UInt8)) :=
  let decryptPart := fun (s : Position (List UInt8)) data =>
    (mbedtlsAesCryptCtr aes s.offset s.counter s.block data, after aes increaseCounter 16 s data.length)
  { stateSize := 16
    reset := fun s buffer => { s with counter := buffer, offset := 0 }
    decryptPart := decryptPart
    decryptAndAuthenticate := fun s data => (((decryptPart s data).1, true), (decryptPart s data).2)
    length_decryptPart := fun _ _ => length_crypt _
    length_decryptAndAuthenticate := fun _ _ => length_crypt _ }

theorem decryptParts_aesMbedTls (s : Position (List UInt8)) (parts : List (List UInt8)) :
    (decryptorAesMbedTls aes).decryptParts s parts = crypt aes increaseCounter 16 s parts.flatten := by
  induction parts generalizing s with
  | nil => rfl
  | cons part parts ih =>
      rw [Decryptor.decryptParts, List.flatten_cons, crypt_append, ih]
      rfl

theorem opens_aesMbedTls {counter : List UInt8} (hcounter : counter.length = 16) :
    (decryptorAesMbedTls aes).Opens (imageEncryptorAes aes counter) := by
  intro s data
  refine ⟨counter, mbedtlsAesCryptCtr aes 0 counter (List.replicate 16 0) data, rfl, hcounter, length_crypt _, ?_⟩
  intro parts hparts
  rw [decryptParts_aesMbedTls, hparts]
  show crypt aes increaseCounter 16 { counter := counter, block := s.block, offset := 0 } _ = data
  rw [crypt_of_start counter s.block (List.replicate 16 0), mbedtlsAesCryptCtr, crypt_crypt]

/-- **Both decryptors agree**, whatever they have decrypted before, and each gets the image in parts of its own. -/
theorem decryptorAes_agree (s : DecryptorAesTiny) (p : Position (List UInt8)) (buffer : List UInt8)
    {parts parts' : List (List UInt8)} (hparts : parts.flatten = parts'.flatten) :
    (decryptorAesTiny aes).decryptParts ((decryptorAesTiny aes).reset s buffer) parts =
      (decryptorAesMbedTls aes).decryptParts ((decryptorAesMbedTls aes).reset p buffer) parts' := by
  have hstart : ((decryptorAesTiny aes).reset s buffer).currentStreamBlockOffset < 16 := Nat.zero_lt_succ _
  rw [decryptParts_aes hstart, decryptParts_aesMbedTls, ← hparts]
  exact crypt_of_start buffer s.currentStreamBlock p.block parts.flatten

theorem decryptorAes_agree_two :
    (decryptorAesTiny id).decryptParts ((decryptorAesTiny id).reset ⟨3, [7], []⟩ (List.replicate 16 1)) [[5], [6]] =
      (decryptorAesMbedTls id).decryptParts ((decryptorAesMbedTls id).reset ⟨[], [], 9⟩ (List.replicate 16 1)) [[5, 6]] :=
  decryptorAes_agree _ _ _ rfl

end Aes

end EmbeddedInfra.Upgrade
