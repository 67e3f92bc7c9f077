import EmbeddedInfra.Lib.CipherBlockChaining
import EmbeddedInfra.Lib.Pieces
import EmbeddedInfra.Upgrade.Decryptor

set_option autoImplicit false

/-! # Encryption of images with XTEA

`application::ImageEncryptorXtea` fills the data out to whole blocks, and encrypts them with
`mbedtls_xtea_crypt_cbc`. `application::DecryptorXtea` hands each part to the same function, which refuses a
part that does not consist of whole blocks; the decryptor does not look at what it returns
(`decryptParts_xtea`, `decryptParts_refused`). The cipher is a parameter where it can be; XTEA itself is an
instance of it (`xtea`).
-/

namespace EmbeddedInfra.Upgrade

open Proto CipherBlockChaining

/-! ## XTEA -/

/-- `GET_UINT32_BE` -/
def getUint32Be (bytes : List UInt8) (offset : Nat) : UInt32 :=
  UInt32.ofNat (ofLittleEndian (slice bytes offset 4).reverse)

/-- `PUT_UINT32_BE` -/
def putUint32Be (value : UInt32) : List UInt8 := (bytes32 value).reverse

/-- `mbedtls_xtea_setup` -/
def mbedtlsXteaSetup (key : List UInt8) : List UInt32 := (List.range 4).map fun i => getUint32Be key (4 * i)

/-- The variables of the loops of `mbedtls_xtea_crypt_ecb`. -/
structure XteaRound where
  v0 : UInt32
  v1 : UInt32
  sum : UInt32

namespace XteaRound

def delta : UInt32 := 0x9E3779B9

def mixed (v : UInt32) : UInt32 := ((v <<< 4) ^^^ (v >>> 5)) + v

/-- `sum + k[index & 3]` -/
def keyed (k : List UInt32) (sum index : UInt32) : UInt32 := sum + k.getD (index &&& 3).toNat 0

/-- A turn of the loop that encrypts. -/
def encrypt (k : List UInt32) (r : XteaRound) : XteaRound :=
  let v0 := r.v0 + (mixed r.v1 ^^^ keyed k r.sum r.sum)
  let sum := r.sum + delta
  { v0 := v0, v1 := r.v1 + (mixed v0 ^^^ keyed k sum (sum >>> 11)), sum := sum }

/-- A turn of the loop that decrypts. -/
def decrypt (k : List UInt32) (r : XteaRound) : XteaRound :=
  let v1 := r.v1 - (mixed r.v0 ^^^ keyed k r.sum (r.sum >>> 11))
  let sum := r.sum - delta
  { v0 := r.v0 - (mixed v1 ^^^ keyed k sum sum), v1 := v1, sum := sum }

theorem decrypt_encrypt (k : List UInt32) (r : XteaRound) : (r.encrypt k).decrypt k = r := by
  obtain ⟨v0, v1, sum⟩ := r
  simp [encrypt, decrypt]

theorem encrypt_decrypt (k : List UInt32) (r : XteaRound) : (r.decrypt k).encrypt k = r := by
  obtain ⟨v0, v1, sum⟩ := r
  simp [encrypt, decrypt]

theorem sum_encrypt (k : List UInt32) (r : XteaRound) (n : Nat) :
    ((encrypt k)^[n] r).sum = r.sum + UInt32.ofNat n * delta := by
  induction n with
  | zero => simp
  | succ n ih =>
      have hnext : UInt32.ofNat (n + 1) * delta = UInt32.ofNat n * delta + delta := by
        rw [UInt32.ofNat_add, UInt32.add_mul]
        exact congrArg _ (UInt32.one_mul delta)
      rw [Function.iterate_succ_apply', encrypt, ih, hnext, UInt32.add_assoc]

end XteaRound

open XteaRound

/-- `mbedtls_xtea_crypt_ecb` with `MBEDTLS_XTEA_ENCRYPT` -/
def mbedtlsXteaEncryptEcb (k : List UInt32) (input : List UInt8) : List UInt8 :=
  let last := (encrypt k)^[32] { v0 := getUint32Be input 0, v1 := getUint32Be input 4, sum := 0 }
  putUint32Be last.v0 ++ putUint32Be last.v1

/-- `mbedtls_xtea_crypt_ecb` with `MBEDTLS_XTEA_DECRYPT` -/
def mbedtlsXteaDecryptEcb (k : List UInt32) (input : List UInt8) : List UInt8 :=
  let last := (decrypt k)^[32]
    { v0 := getUint32Be input 0, v1 := getUint32Be input 4, sum := delta * 32 }
  putUint32Be last.v0 ++ putUint32Be last.v1

theorem length_putUint32Be (value : UInt32) : (putUint32Be value).length = 4 := by
  rw [putUint32Be, List.length_reverse, length_bytes32]

theorem getUint32Be_front (value : UInt32) (rest : List UInt8) : getUint32Be (putUint32Be value ++ rest) 0 = value := by
  rw [getUint32Be, slice_front (length_putUint32Be value), putUint32Be, List.reverse_reverse, bytes32,
    ProtoParser.ofLittleEndian_littleEndian _ _ value.toNat_lt, UInt32.ofNat_toNat]

theorem getUint32Be_behind (first second : UInt32) : getUint32Be (putUint32Be first ++ putUint32Be second) 4 = second := by
  have hslice : slice (putUint32Be first ++ putUint32Be second) (4 + 0) 4 = slice (putUint32Be second ++ []) 0 4 := by
    rw [slice_append (length_putUint32Be first), List.append_nil]
  rw [getUint32Be, hslice]
  exact getUint32Be_front second []

/-- Bytes are the representation of the number that they stand for. -/
theorem littleEndian_ofLittleEndian (bytes : List UInt8) :
    ofLittleEndian bytes < 256 ^ bytes.length ∧ littleEndian bytes.length (ofLittleEndian bytes) = bytes := by
  induction bytes with
  | nil => exact ⟨Nat.one_pos, rfl⟩
  | cons byte bytes ih =>
      have hbyte := byte.toNat_lt
      constructor
      · rw [ofLittleEndian, List.length_cons, Nat.pow_succ]
        omega
      · have hquotient : (byte.toNat + 256 * ofLittleEndian bytes) / 256 = ofLittleEndian bytes := by omega
        have hfront : UInt8.ofNat (byte.toNat + 256 * ofLittleEndian bytes) = byte := by
          apply UInt8.toNat_inj.mp
          rw [UInt8.toNat_ofNat']
          omega
        rw [List.length_cons, ofLittleEndian, littleEndian, hquotient, hfront, ih.2]

theorem putUint32Be_getUint32Be {bytes : List UInt8} (h : bytes.length = 8) :
    putUint32Be (getUint32Be bytes 0) ++ putUint32Be (getUint32Be bytes 4) = bytes := by
  have hput {offset : Nat} (hoffset : offset ≤ 4) :
      putUint32Be (getUint32Be bytes offset) = (bytes.drop offset).take 4 := by
    have hlength : (slice bytes offset 4).reverse.length = 4 := by
      rw [List.length_reverse, slice, List.length_take, List.length_drop]
      omega
    obtain ⟨hlt, hback⟩ := littleEndian_ofLittleEndian (slice bytes offset 4).reverse
    rw [hlength] at hlt hback
    rw [putUint32Be, getUint32Be, bytes32, UInt32.toNat_ofNat_of_lt' (lt_of_lt_of_le hlt (by norm_num)), hback,
      List.reverse_reverse, slice]
  have hrest : (bytes.drop 4).take 4 = bytes.drop 4 := List.take_of_length_le (by rw [List.length_drop]; omega)
  rw [hput (Nat.zero_le 4), hput (Nat.le_refl 4), hrest, List.drop_zero, List.take_append_drop]

/-- The variables after encryption are those with which decryption starts, and the other way round. -/
theorem encrypted_sum (k : List UInt32) (v0 v1 : UInt32) :
    ((encrypt k)^[32] { v0 := v0, v1 := v1, sum := 0 }).sum = delta * 32 := by
  have hround : (0 : UInt32) + UInt32.ofNat 32 * delta = delta * 32 := by decide
  rw [sum_encrypt, ← hround]

theorem decrypted_sum (k : List UInt32) (v0 v1 : UInt32) :
    ((decrypt k)^[32] { v0 := v0, v1 := v1, sum := delta * 32 }).sum = 0 := by
  obtain ⟨last, hlast⟩ : ∃ last, last =
      (decrypt k)^[32] { v0 := v0, v1 := v1, sum := delta * 32 } := ⟨_, rfl⟩
  have hback : (encrypt k)^[32] last = { v0 := v0, v1 := v1, sum := delta * 32 } := by
    rw [hlast]
    exact Function.LeftInverse.iterate (encrypt_decrypt k) 32 _
  have hsum : last.sum + UInt32.ofNat 32 * delta = delta * 32 := by
    rw [← sum_encrypt k, hback]
  calc ((decrypt k)^[32] { v0 := v0, v1 := v1, sum := delta * 32 }).sum
      = last.sum + UInt32.ofNat 32 * delta - UInt32.ofNat 32 * delta := by
        rw [UInt32.add_sub_cancel, hlast]
    _ = delta * 32 - UInt32.ofNat 32 * delta := by rw [hsum]
    _ = 0 := by decide

/-- XTEA with a key. -/
def xtea (key : List UInt8) : BlockCipher 8 :=
  { encrypt := mbedtlsXteaEncryptEcb (mbedtlsXteaSetup key)
    decrypt := mbedtlsXteaDecryptEcb (mbedtlsXteaSetup key)
    length_encrypt := fun _ _ => by simp [mbedtlsXteaEncryptEcb, length_putUint32Be]
    length_decrypt := fun _ _ => by simp [mbedtlsXteaDecryptEcb, length_putUint32Be]
    decrypt_encrypt := fun block hblock => by
      have hback := Function.LeftInverse.iterate (decrypt_encrypt (mbedtlsXteaSetup key)) 32
        { v0 := getUint32Be block 0, v1 := getUint32Be block 4, sum := 0 }
      rw [mbedtlsXteaDecryptEcb, mbedtlsXteaEncryptEcb, getUint32Be_front, getUint32Be_behind, ← encrypted_sum, hback]
      exact putUint32Be_getUint32Be hblock
    encrypt_decrypt := fun block hblock => by
      have hback := Function.LeftInverse.iterate (encrypt_decrypt (mbedtlsXteaSetup key)) 32
        { v0 := getUint32Be block 0, v1 := getUint32Be block 4, sum := delta * 32 }
      rw [mbedtlsXteaEncryptEcb, mbedtlsXteaDecryptEcb, getUint32Be_front, getUint32Be_behind, ← decrypted_sum, hback]
      exact putUint32Be_getUint32Be hblock }

/-- The first block of the self test. -/
example : (xtea ((List.range 16).map UInt8.ofNat)).encrypt ((List.range 8).map fun i => UInt8.ofNat (0x41 + i)) =
    [0x49, 0x7d, 0xf3, 0xd0, 0x72, 0x61, 0x2c, 0xb5] := by decide +kernel

/-! ## In chained blocks -/

section Cbc

variable (c : BlockCipher 8)

/-- `mbedtls_xtea_crypt_cbc` with `MBEDTLS_XTEA_ENCRYPT`: the output and what is left in `iv`, or an error. -/
def mbedtlsXteaEncryptCbc (iv input : List UInt8) : Option (List UInt8 × List UInt8) :=
  if input.length % 8 ≠ 0 then none
  else
    let output := encrypt c (input.length / 8) iv input
    some (output, lastBlock 8 (input.length / 8) iv output)

/-- `mbedtls_xtea_crypt_cbc` with `MBEDTLS_XTEA_DECRYPT` -/
def mbedtlsXteaDecryptCbc (iv input : List UInt8) : Option (List UInt8 × List UInt8) :=
  if input.length % 8 ≠ 0 then none
  else some (decrypt c (input.length / 8) iv input, lastBlock 8 (input.length / 8) iv input)

namespace ImageEncryptorXtea

def alignedSize (size : Nat) : Nat := size + 8 - (size + 7) % 8 - 1

/-- `data`, after the `resize`. -/
def aligned (unalignedData : List UInt8) : List UInt8 :=
  unalignedData ++ List.replicate (alignedSize unalignedData.length - unalignedData.length) 0

/-- `CheckDecryption`. The self test of XTEA is taken to succeed. -/
def checkDecryption (original encrypted : List UInt8) : Bool :=
  if encrypted.length % 8 ≠ 0 then false
  else
    match mbedtlsXteaDecryptCbc c (encrypted.take 8) (encrypted.drop 8) with
    | some decrypted => decrypted.1 = original
    | none => false

/-- `Secure`, when the random number generator has given this `iv`; or an exception. -/
def secure (iv unalignedData : List UInt8) : Option (List UInt8) :=
  match mbedtlsXteaEncryptCbc c iv (aligned unalignedData) with
  | some encrypted =>
      if checkDecryption c (aligned unalignedData) (iv ++ encrypted.1) then some (iv ++ encrypted.1) else none
  | none => none

theorem length_aligned (data : List UInt8) :
    (aligned data).length = alignedSize data.length ∧ data.length ≤ alignedSize data.length ∧
      8 ∣ alignedSize data.length := by
  refine ⟨?_, ?_, ?_⟩
  · rw [aligned, List.length_append, List.length_replicate, alignedSize]
    omega
  · rw [alignedSize]
    omega
  · rw [alignedSize]
    omega

theorem aligned_of_dvd {data : List UInt8} (h : 8 ∣ data.length) : aligned data = data := by
  have hzero : alignedSize data.length - data.length = 0 := by
    rw [alignedSize]
    omega
  rw [aligned, hzero, List.replicate_zero, List.append_nil]

variable {c} {iv data : List UInt8}

/-- No exception is thrown. -/
theorem secure_eq (hiv : iv.length = 8) (data : List UInt8) :
    secure c iv data =
      some (iv ++ encrypt c (alignedSize data.length / 8) iv (aligned data)) := by
  obtain ⟨hlength, -, hdvd⟩ := length_aligned data
  have hwhole : (aligned data).length = alignedSize data.length / 8 * 8 := by
    rw [hlength, Nat.div_mul_cancel hdvd]
  have hencrypted := @length_encrypt 8 _ c iv _ hiv hwhole
  obtain ⟨encrypted, hname⟩ : ∃ encrypted, encrypted =
      encrypt c (alignedSize data.length / 8) iv (aligned data) := ⟨_, rfl⟩
  rw [← hname] at hencrypted
  have hcount : encrypted.length / 8 = alignedSize data.length / 8 := by omega
  have hdecrypt : mbedtlsXteaDecryptCbc c iv encrypted =
      some (aligned data, lastBlock 8 (alignedSize data.length / 8) iv encrypted) := by
    rw [mbedtlsXteaDecryptCbc, if_neg (by omega), hcount, hname,
      decrypt_encrypt hiv hwhole]
  have hcheck : checkDecryption c (aligned data) (iv ++ encrypted) = true := by
    rw [checkDecryption, if_neg (by rw [List.length_append]; omega), List.take_left' hiv, List.drop_left' hiv,
      hdecrypt]
    exact decide_eq_true rfl
  have hencrypt : mbedtlsXteaEncryptCbc c iv (aligned data) =
      some (encrypted, lastBlock 8 (alignedSize data.length / 8) iv encrypted) := by
    rw [mbedtlsXteaEncryptCbc, if_neg (by omega), hlength, hname]
  rw [secure, hencrypt, ← hname]
  exact if_pos hcheck

end ImageEncryptorXtea

theorem length_iv_decryptCbc {iv input : List UInt8} {result : List UInt8 × List UInt8} (hiv : iv.length = 8)
    (h : mbedtlsXteaDecryptCbc c iv input = some result) : result.2.length = 8 := by
  rw [mbedtlsXteaDecryptCbc] at h
  split at h
  · cases h
  · rw [← Option.some.inj h]
    exact length_lastBlock hiv (by omega)

structure DecryptorXtea where
  iv : List UInt8
  length_iv : iv.length = 8

namespace DecryptorXtea

/-- `DecryptPart`, which goes on after an error as if nothing had happened. -/
def decryptPart (s : DecryptorXtea) (data : List UInt8) : List UInt8 × DecryptorXtea :=
  match h : mbedtlsXteaDecryptCbc c s.iv data with
  | some result => (result.1, { iv := result.2, length_iv := length_iv_decryptCbc c s.length_iv h })
  | none => (data, s)

/-- The state buffer is `iv`, which is read from the pack; `Reset` does nothing. -/
def reset (s : DecryptorXtea) (buffer : List UInt8) : DecryptorXtea :=
  { iv := buffer.take 8 ++ s.iv.drop buffer.length
    length_iv := by
      rw [List.length_append, List.length_take, List.length_drop, s.length_iv]
      omega }

variable {c} {s : DecryptorXtea} {data : List UInt8}

theorem decryptPart_of_dvd (h : 8 ∣ data.length) :
    (s.decryptPart c data).1 = decrypt c (data.length / 8) s.iv data ∧
      (s.decryptPart c data).2.iv = lastBlock 8 (data.length / 8) s.iv data := by
  have hsome : mbedtlsXteaDecryptCbc c s.iv data =
      some (decrypt c (data.length / 8) s.iv data, lastBlock 8 (data.length / 8) s.iv data) :=
    if_neg (by omega)
  unfold decryptPart
  split
  · rename_i result hresult
    have hpair := Option.some.inj (hresult.symm.trans hsome)
    exact ⟨congrArg Prod.fst hpair, congrArg Prod.snd hpair⟩
  · rename_i hnone
    rw [hsome] at hnone
    cases hnone

/-- A part that does not consist of whole blocks is left as it is. -/
theorem decryptPart_of_not_dvd (h : ¬ 8 ∣ data.length) : s.decryptPart c data = (data, s) := by
  have hnone : mbedtlsXteaDecryptCbc c s.iv data = none := if_pos (by omega)
  unfold decryptPart
  split
  · rename_i result hresult
    rw [hnone] at hresult
    cases hresult
  · rfl

theorem length_decryptPart (s : DecryptorXtea) (data : List UInt8) : (s.decryptPart c data).1.length = data.length := by
  by_cases h : 8 ∣ data.length
  · rw [(decryptPart_of_dvd h).1, length_decrypt s.length_iv (by omega)]
    omega
  · rw [decryptPart_of_not_dvd h]

theorem reset_iv {buffer : List UInt8} (h : buffer.length = 8) (s : DecryptorXtea) : (s.reset buffer).iv = buffer := by
  have hnone : s.iv.drop buffer.length = [] := List.drop_of_length_le (by rw [s.length_iv, h])
  show buffer.take 8 ++ s.iv.drop buffer.length = buffer
  rw [hnone, List.append_nil, List.take_of_length_le h.le]

end DecryptorXtea

def decryptorXtea : Decryptor DecryptorXtea :=
  { stateSize := 8
    reset := DecryptorXtea.reset
    decryptPart := fun s data => s.decryptPart c data
    decryptAndAuthenticate := fun s data => (((s.decryptPart c data).1, true), (s.decryptPart c data).2)
    length_decryptPart := DecryptorXtea.length_decryptPart
    length_decryptAndAuthenticate := DecryptorXtea.length_decryptPart }

variable {c}

/-- Parts that consist of whole blocks are decrypted like all of them at once. -/
theorem decryptParts_xtea {s : DecryptorXtea} {parts : List (List UInt8)} (h : ∀ part ∈ parts, 8 ∣ part.length) :
    (decryptorXtea c).decryptParts s parts =
      decrypt c (parts.flatten.length / 8) s.iv parts.flatten := by
  induction parts generalizing s with
  | nil => rfl
  | cons part parts ih =>
      obtain ⟨hpart, hparts⟩ := List.forall_mem_cons.mp h
      obtain ⟨hdata, hiv⟩ := @DecryptorXtea.decryptPart_of_dvd c s part hpart
      have hcount : (part ++ parts.flatten).length / 8 = part.length / 8 + parts.flatten.length / 8 := by
        rw [List.length_append, Nat.add_div_of_dvd_right hpart]
      rw [Decryptor.decryptParts, ih hparts, List.flatten_cons, hcount, decrypt_append (by omega), ← hiv, ← hdata]
      rfl

/-- The first part that does not consist of whole blocks stays encrypted. -/
theorem decryptParts_refused {s : DecryptorXtea} {front rest : List (List UInt8)} {part : List UInt8}
    (hfront : ∀ whole ∈ front, 8 ∣ whole.length) (hpart : ¬ 8 ∣ part.length) :
    ∃ before behind, (decryptorXtea c).decryptParts s (front ++ part :: rest) = before ++ (part ++ behind) ∧
      before.length = front.flatten.length := by
  induction front generalizing s with
  | nil =>
      refine ⟨[], (decryptorXtea c).decryptParts s rest, ?_, rfl⟩
      have hsame : (decryptorXtea c).decryptPart s part = (part, s) := DecryptorXtea.decryptPart_of_not_dvd hpart
      rw [List.nil_append, List.nil_append, Decryptor.decryptParts, hsame]
  | cons head front ih =>
      obtain ⟨before, behind, hparts, hlength⟩ :=
        @ih ((decryptorXtea c).decryptPart s head).2 (List.forall_mem_cons.mp hfront).2
      refine ⟨((decryptorXtea c).decryptPart s head).1 ++ before, behind, ?_, ?_⟩
      · rw [List.cons_append, Decryptor.decryptParts, hparts, List.append_assoc]
      · rw [List.length_append, (decryptorXtea c).length_decryptPart, hlength, List.flatten_cons, List.length_append]

end Cbc

end EmbeddedInfra.Upgrade
