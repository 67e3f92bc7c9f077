import EmbeddedInfra.Upgrade.SecondStageToRamLoader

set_option autoImplicit false

/-! # Signing and verifying

`application::ImageSignerEcDsa` and `application::ImageSignerRsa` sign what the pack builder puts together, and
`application::VerifierEcDsa` and `application::VerifierRsa` look at the pack in flash. The functions of `mbedtls` and
`micro-ecc` are parameters. The verifier of RSA signatures has an array of the size of the other signatures, so that it
never accepts one of a signer (`accepts_iff`).
-/

namespace EmbeddedInfra.Upgrade

open NorMemory

/-! ## What is used of the libraries -/

/-- `mbedtls_mpi`: a number of limbs, and where they are. -/
structure Mpi where
  n : Nat
  p : List UInt8
  deriving DecidableEq, Repr

/-- `mbedtls_rsa_context`, for the padding `MBEDTLS_RSA_PKCS_V21` with SHA-256. -/
structure RsaContext where
  len : Nat
  N : Mpi
  E : Mpi
  D : Mpi := { n := 0, p := [] }
  P : Mpi := { n := 0, p := [] }
  Q : Mpi := { n := 0, p := [] }
  DP : Mpi := { n := 0, p := [] }
  DQ : Mpi := { n := 0, p := [] }
  QP : Mpi := { n := 0, p := [] }
  deriving DecidableEq, Repr

/-- The functions for SHA-256, for ECDSA on `secp224r1` and for RSA. A function that signs is given what the generator
of random numbers has for it. -/
structure Crypto where
  Sha256Context : Type
  sha256Starts : Sha256Context
  sha256Update : Sha256Context → List UInt8 → Sha256Context
  sha256Finish : Sha256Context → List UInt8
  uEccComputePublicKey : List UInt8 → Option (List UInt8)
  uEccSign : List UInt8 → List UInt8 → List UInt8 → Option (List UInt8)
  uEccVerify : List UInt8 → List UInt8 → List UInt8 → Bool
  rsaCheckPubkey : RsaContext → Bool
  rsaCheckPrivkey : RsaContext → Bool
  rsaPssSign : List UInt8 → RsaContext → List UInt8 → Option (List UInt8)
  rsaPssVerify : RsaContext → List UInt8 → List UInt8 → Bool
  rsaSelfTest : Bool

/-- Parts are hashed like all of them at once, a public key has its size, and a signature belongs to its key. -/
structure Crypto.Correct (C : Crypto) : Prop where
  sha256_parts : ∀ parts : List (List UInt8), C.sha256Finish (parts.foldl C.sha256Update C.sha256Starts) =
    C.sha256Finish (C.sha256Update C.sha256Starts parts.flatten)
  length_publicKey : ∀ privateKey publicKey, C.uEccComputePublicKey privateKey = some publicKey → publicKey.length = 56
  uEccVerify_sign : ∀ random privateKey publicKey hash signature,
    C.uEccComputePublicKey privateKey = some publicKey → C.uEccSign random privateKey hash = some signature →
      C.uEccVerify publicKey hash signature = true

/-- `CalculateSha256` -/
def Crypto.calculateSha256 (C : Crypto) (image : List UInt8) : List UInt8 :=
  C.sha256Finish (C.sha256Update C.sha256Starts image)

/-! ## The signers -/

/-- What a signer does. There is no signature where it throws. -/
structure Signing where
  signatureMethod : UInt16
  signatureLength : UInt16
  imageSignature : List UInt8 → Option (List UInt8)
  checkSignature : List UInt8 → List UInt8 → Bool

structure ImageSignerEcDsa where
  publicKey : List UInt8
  privateKey : List UInt8

namespace ImageSignerEcDsa

variable (C : Crypto) (random : List UInt8) (signer : ImageSignerEcDsa)

/-- `CalculateSignature`. As many bytes of the keys are compared as the public key has. -/
def calculateSignature (hash : List UInt8) : Option (List UInt8) :=
  if signer.privateKey.length ≠ 56 then none
  else
    (C.uEccComputePublicKey signer.privateKey).bind fun publicKeyForVerification =>
      if signer.publicKey.isPrefixOf publicKeyForVerification then C.uEccSign random signer.privateKey hash else none

def imageSignature (image : List UInt8) : Option (List UInt8) :=
  signer.calculateSignature C random (C.calculateSha256 image)

def checkSignature (signature image : List UInt8) : Bool :=
  if signer.publicKey.length ≠ signature.length then false
  else C.uEccVerify signer.publicKey (C.calculateSha256 image) signature

def signing : Signing :=
  { signatureMethod := 1
    signatureLength := 56
    imageSignature := signer.imageSignature C random
    checkSignature := signer.checkSignature C }

end ImageSignerEcDsa

structure RsaPublicKey where
  N : List UInt8
  E : List UInt8

structure RsaPrivateKey where
  D : List UInt8
  P : List UInt8
  Q : List UInt8
  DP : List UInt8
  DQ : List UInt8
  QP : List UInt8

structure ImageSignerRsa where
  publicKey : RsaPublicKey
  privateKey : RsaPrivateKey

/-- The context with a public key, whose sizes are taken for numbers of limbs. -/
def RsaPublicKey.context (key : RsaPublicKey) : RsaContext :=
  { len := key.N.length, N := { n := key.N.length, p := key.N }, E := { n := key.E.length, p := key.E } }

namespace ImageSignerRsa

variable (C : Crypto) (random : List UInt8) (signer : ImageSignerRsa)

/-- The context for signing, with limbs of four bytes. -/
def context : RsaContext :=
  { len := signer.publicKey.N.length
    N := { n := signer.publicKey.N.length / 4, p := signer.publicKey.N }
    E := { n := signer.publicKey.E.length / 4, p := signer.publicKey.E }
    D := { n := signer.privateKey.D.length / 4, p := signer.privateKey.D }
    P := { n := signer.privateKey.P.length / 4, p := signer.privateKey.P }
    Q := { n := signer.privateKey.Q.length / 4, p := signer.privateKey.Q }
    DP := { n := signer.privateKey.DP.length / 4, p := signer.privateKey.DP }
    DQ := { n := signer.privateKey.DQ.length / 4, p := signer.privateKey.DQ }
    QP := { n := signer.privateKey.QP.length / 4, p := signer.privateKey.QP } }

def calculateSignature (hash : List UInt8) : Option (List UInt8) :=
  if signer.context.len ≠ 128 then none
  else if C.rsaCheckPrivkey signer.context then C.rsaPssSign random signer.context hash
  else none

def imageSignature (image : List UInt8) : Option (List UInt8) :=
  signer.calculateSignature C random (C.calculateSha256 image)

def checkSignature (signature image : List UInt8) : Bool :=
  C.rsaCheckPubkey signer.publicKey.context &&
    (C.rsaPssVerify signer.publicKey.context (C.calculateSha256 image) signature && C.rsaSelfTest)

def signing : Signing :=
  { signatureMethod := 1
    signatureLength := 128
    imageSignature := signer.imageSignature C random
    checkSignature := signer.checkSignature C }

end ImageSignerRsa

/-- The pack is one that the builder makes with this signer, without an exception. -/
structure UpgradePackBuilder.MadeBy (b : UpgradePackBuilder) (s : Signing) : Prop where
  signatureMethod_eq : b.signer.signatureMethod = s.signatureMethod
  signatureLength_eq : b.signer.signatureLength = s.signatureLength
  imageSignature_eq : s.imageSignature b.signedContents = some b.signature
  checkSignature_eq : b.signer.checkSignature = s.checkSignature
  checked : b.checkSignature = true

/-! ## The verifiers -/

/-- `hal::SynchronousFlash::Range` -/
abbrev FlashRange : Type := UInt32 × UInt32

/-- `std::min(buffer.size(), left)` -/
def partSize (left : UInt32) : UInt32 := if 256 ≤ left then 256 else left

theorem partSize_toNat (left : UInt32) : (partSize left).toNat = min 256 left.toNat := by
  rw [partSize]
  split_ifs with h
  · exact (Nat.min_eq_left (UInt32.le_iff_toNat_le.mp h)).symm
  · rw [UInt32.le_iff_toNat_le, Nat.not_le] at h
    exact (Nat.min_eq_right (le_of_lt h)).symm

/-- What is left behind a part. -/
theorem left_behind (message second : UInt32) :
    (second - (message + partSize (second - message))).toNat =
      (second - message).toNat - (partSize (second - message)).toNat := by
  have hle : (partSize (second - message)).toNat ≤ (second - message).toNat := by
    rw [partSize_toNat]
    exact Nat.min_le_right _ _
  have hmessage := message.toNat_lt
  have hsecond := second.toNat_lt
  simp only [UInt32.toNat_sub, UInt32.toNat_add] at hle ⊢
  omega

theorem left_eq_zero {message second : UInt32} (h : (second - message).toNat = 0) : message = second := by
  have hmessage := message.toNat_lt
  have hsecond := second.toNat_lt
  rw [UInt32.toNat_sub] at h
  exact UInt32.toNat_inj.mp (by omega)

/-- The addresses and the sizes of what the loop reads into its buffer. It ends, since less is left each time. -/
def reads (message second : UInt32) : List (UInt32 × UInt32) :=
  if message = second then []
  else (message, partSize (second - message)) :: reads (message + partSize (second - message)) second
termination_by (second - message).toNat
decreasing_by
  have hne : (second - message).toNat ≠ 0 := fun h => ‹¬ message = second› (left_eq_zero h)
  rw [left_behind, partSize_toNat]
  omega

/-- The hash of a range. -/
def messageHash (C : Crypto) (flash : Memory) (data : FlashRange) : List UInt8 :=
  C.sha256Finish (((reads data.1 data.2).map fun part => NorMemory.read flash part.1.toNat part.2.toNat).foldl
    C.sha256Update C.sha256Starts)

structure VerifierEcDsa where
  key : List UInt8

/-- `IsValid`, which asserts that the key has its size. -/
def VerifierEcDsa.isValid (C : Crypto) (verifier : VerifierEcDsa) (flash : Memory) (signature data : FlashRange) :
    Option Bool :=
  if verifier.key.length ≠ 56 then none
  else if signature.2 - signature.1 ≠ 56 then some false
  else
    some (C.uEccVerify verifier.key (messageHash C flash data) (NorMemory.read flash signature.1.toNat 56))

structure VerifierRsa where
  publicKeyN : List UInt8
  publicKeyE : List UInt8

def VerifierRsa.isValid (C : Crypto) (verifier : VerifierRsa) (flash : Memory) (signature data : FlashRange) :
    Option Bool :=
  if signature.2 - signature.1 ≠ 56 then some false
  else
    some (C.rsaPssVerify
      { len := verifier.publicKeyN.length
        N := { n := verifier.publicKeyN.length, p := verifier.publicKeyN }
        E := { n := verifier.publicKeyE.length, p := verifier.publicKeyE } }
      (messageHash C flash data) (NorMemory.read flash signature.1.toNat 56))

/-- The ranges that `SecondStageToRamLoader` has for a verifier. -/
def signatureRange (prologue : UpgradePackHeaderPrologue) : FlashRange := (16, 16 + prologue.signatureLength.toUInt32)

def signedContentsRange (prologue : UpgradePackHeaderPrologue) : FlashRange :=
  (16 + prologue.signatureLength.toUInt32,
    16 + prologue.signatureLength.toUInt32 + prologue.signedContentsLength)

/-! ## What is hashed -/

section Loop

variable {message second : UInt32}

/-- **The loop reads the range**, and no more than its buffer takes. -/
theorem reads_spec (hle : message ≤ second) :
    ((reads message second).flatMap fun part => List.range' part.1.toNat part.2.toNat) =
        List.range' message.toNat (second.toNat - message.toNat) ∧
      ∀ part ∈ reads message second, part.2.toNat ≤ 256 := by
  rw [UInt32.le_iff_toNat_le] at hle
  induction hn : second.toNat - message.toNat using Nat.strong_induction_on generalizing message with
  | _ n ih =>
      have hsecond := second.toNat_lt
      have hleft : (second - message).toNat = n := by
        rw [UInt32.toNat_sub]
        omega
      rw [reads]
      split_ifs with heq
      · have hzero : n = 0 := by
          rw [← hn, heq]
          exact Nat.sub_self _
        rw [hzero]
        exact ⟨rfl, fun _ hmem => nomatch hmem⟩
      · have hpos : n ≠ 0 := fun hzero => heq (left_eq_zero (hleft.trans hzero))
        have hsize : (partSize (second - message)).toNat = min 256 n := by rw [partSize_toNat, hleft]
        have hnext : (message + partSize (second - message)).toNat = message.toNat + min 256 n := by
          rw [UInt32.toNat_add, hsize]
          omega
        obtain ⟨haddresses, hsizes⟩ := @ih (n - min 256 n) (by omega)
          (message + partSize (second - message)) (by omega) (by omega)
        constructor
        · rw [List.flatMap_cons, haddresses, hsize, hnext, List.range'_append_1]
          congr 1
          omega
        · intro part hpart
          rcases List.mem_cons.mp hpart with rfl | hpart
          · rw [hsize]
            exact Nat.min_le_left _ _
          · exact hsizes part hpart

theorem read_eq_map (flash : Memory) (address n : Nat) :
    NorMemory.read flash address n = (List.range' address n).map flash := by
  rw [List.range'_eq_map_range, List.map_map]
  rfl

/-- What is hashed is what is in the range. -/
theorem flatten_reads (flash : Memory) (hle : message ≤ second) :
    ((reads message second).map fun part => NorMemory.read flash part.1.toNat part.2.toNat).flatten =
      NorMemory.read flash message.toNat (second.toNat - message.toNat) := by
  rw [read_eq_map, ← (reads_spec hle).1, List.map_flatMap, List.flatMap_def]
  simp only [read_eq_map]

end Loop

/-! ## Packs that are verified -/

/-- A signer, and with it the verifier that has its public key. -/
inductive SignatureMethod
  | ecDsa (signer : ImageSignerEcDsa)
  | rsa (signer : ImageSignerRsa)

namespace SignatureMethod

def signing (C : Crypto) (random : List UInt8) : SignatureMethod → Signing
  | ecDsa signer => signer.signing C random
  | rsa signer => signer.signing C random

def isValid (C : Crypto) (flash : Memory) (signature data : FlashRange) : SignatureMethod → Option Bool
  | ecDsa signer => VerifierEcDsa.isValid C { key := signer.publicKey } flash signature data
  | rsa signer =>
      VerifierRsa.isValid C { publicKeyN := signer.publicKey.N, publicKeyE := signer.publicKey.E } flash signature data

def IsEcDsa : SignatureMethod → Prop
  | ecDsa _ => True
  | rsa _ => False

/-- The loop of the verifiers reads exactly the range, and the verifier accepts what is in flash. -/
def Accepts (C : Crypto) (flash : Memory) (m : SignatureMethod) : Prop :=
  (∀ first second : UInt32, first ≤ second →
    ((reads first second).flatMap fun part => List.range' part.1.toNat part.2.toNat) =
        List.range' first.toNat (second.toNat - first.toNat) ∧
      ∀ part ∈ reads first second, part.2.toNat ≤ 256) ∧
    m.isValid C flash (signatureRange (UpgradePackHeaderPrologue.ofBytes (NorMemory.read flash 0 16)))
      (signedContentsRange (UpgradePackHeaderPrologue.ofBytes (NorMemory.read flash 0 16))) = some true

end SignatureMethod

section Packs

variable {C : Crypto} {b : UpgradePackBuilder} {flash : Memory} {random : List UInt8}

theorem UpgradePackBuilder.MadeBy.length_signature {s : Signing} (h : b.MadeBy s) :
    b.signature.length = s.signatureLength.toNat := by
  rw [← h.signatureLength_eq]
  exact b.signer.length_imageSignature b.signedContents

theorem UpgradePackBuilder.MadeBy.signatureLength_prologue {s : Signing} (h : b.MadeBy s) :
    b.prologue.signatureLength = s.signatureLength := by
  rw [← UInt16.toNat_inj, b.signatureLength_toNat, h.length_signature]

/-- The hash in flash is that of what has been signed. -/
theorem messageHash_stored (hC : C.Correct) (h : b.Stored flash) :
    messageHash C flash (signedContentsRange b.prologue) = C.calculateSha256 b.signedContents := by
  have hlt := h.length_lt
  rw [UpgradePackBuilder.length_upgradePack] at hlt
  have hfirst : (16 + b.prologue.signatureLength.toUInt32).toNat = 16 + b.signature.length := by
    rw [UInt32.toNat_add, UInt16.toNat_toUInt32, b.signatureLength_toNat]
    exact Nat.mod_eq_of_lt (show 16 + b.signature.length < 2 ^ 32 by omega)
  have hsecond : (16 + b.prologue.signatureLength.toUInt32 + b.prologue.signedContentsLength).toNat =
      16 + b.signature.length + b.signedContents.length := by
    rw [UInt32.toNat_add, hfirst, h.signedContentsLength_toNat]
    exact Nat.mod_eq_of_lt (show _ < 2 ^ 32 by omega)
  have hle : 16 + b.prologue.signatureLength.toUInt32 ≤
      16 + b.prologue.signatureLength.toUInt32 + b.prologue.signedContentsLength := by
    rw [UInt32.le_iff_toNat_le, hfirst, hsecond]
    omega
  have hsize : (16 + b.prologue.signatureLength.toUInt32 + b.prologue.signedContentsLength).toNat -
      (16 + b.prologue.signatureLength.toUInt32).toNat = b.signedContents.length := by
    omega
  rw [messageHash, hC.sha256_parts, signedContentsRange, flatten_reads flash hle, hsize, hfirst, h.read_signedContents,
    Crypto.calculateSha256]

/-- Only a key of the right size passes the check of the builder. -/
theorem length_publicKey {signer : ImageSignerEcDsa} (h : b.MadeBy (signer.signing C random)) :
    signer.publicKey.length = 56 := by
  have hchecked := h.checked
  have hlength : b.signer.signatureLength.toNat = 56 := by
    rw [h.signatureLength_eq]
    rfl
  rw [UpgradePackBuilder.checkSignature, h.checkSignature_eq, hlength] at hchecked
  have hslice : (slice b.upgradePack 16 56).length = 56 := by
    have hsignature : b.signature.length = 56 := h.length_signature
    rw [slice, List.length_take, List.length_drop, b.length_upgradePack]
    omega
  have hkey : ¬ signer.publicKey.length ≠ (slice b.upgradePack 16 56).length := by
    intro hne
    have hfalse : signer.checkSignature C (slice b.upgradePack 16 56) (b.upgradePack.drop (16 + 56)) = false :=
      if_pos hne
    exact absurd (hfalse.symm.trans hchecked) (by decide)
  rw [← hslice]
  exact not_not.mp hkey

/-- The key that is verified with is the one that belongs to the private key. -/
theorem uEccVerify_signature (hC : C.Correct) {signer : ImageSignerEcDsa} (h : b.MadeBy (signer.signing C random)) :
    C.uEccVerify signer.publicKey (C.calculateSha256 b.signedContents) b.signature = true := by
  have hsignature : signer.calculateSignature C random (C.calculateSha256 b.signedContents) = some b.signature :=
    h.imageSignature_eq
  rw [ImageSignerEcDsa.calculateSignature] at hsignature
  split_ifs at hsignature with hprivate
  rcases hpublic : C.uEccComputePublicKey signer.privateKey with _ | publicKeyForVerification
  · rw [hpublic] at hsignature
    cases hsignature
  · rw [hpublic, Option.bind_some] at hsignature
    split_ifs at hsignature with hprefix
    have hkey : signer.publicKey = publicKeyForVerification := by
      apply (List.isPrefixOf_iff_prefix.mp hprefix).eq_of_length
      rw [length_publicKey h, hC.length_publicKey _ _ hpublic]
    rw [hkey]
    exact hC.uEccVerify_sign _ _ _ _ _ hpublic hsignature

/-- The array of the verifier has 56 bytes, the signature has 128. -/
theorem isValid_rsa {signer : ImageSignerRsa} (h : b.MadeBy (signer.signing C random)) (data : FlashRange) :
    (SignatureMethod.rsa signer).isValid C flash (signatureRange b.prologue) data = some false := by
  have hrange : (signatureRange b.prologue).2 - (signatureRange b.prologue).1 ≠ 56 := by
    rw [signatureRange, h.signatureLength_prologue]
    show 16 + (128 : UInt16).toUInt32 - 16 ≠ 56
    decide
  exact if_pos hrange

/-- **Verification agrees with signing** for ECDSA, and never for RSA. -/
theorem accepts_iff (hC : C.Correct) {m : SignatureMethod} (hstored : b.Stored flash)
    (hmade : b.MadeBy (m.signing C random)) : m.Accepts C flash ↔ m.IsEcDsa := by
  rw [SignatureMethod.Accepts, hstored.prologue_eq]
  cases m with
  | ecDsa signer =>
      have hrange : (signatureRange b.prologue).2 - (signatureRange b.prologue).1 = 56 := by
        rw [signatureRange, hmade.signatureLength_prologue]
        show 16 + (56 : UInt16).toUInt32 - 16 = 56
        decide
      have hread : NorMemory.read flash 16 56 = b.signature := by
        have hlength : b.signature.length = 56 := hmade.length_signature
        rw [← hlength]
        exact hstored.read_signature
      refine iff_of_true ⟨fun first second hle => reads_spec hle, ?_⟩ trivial
      show VerifierEcDsa.isValid C { key := signer.publicKey } flash _ _ = some true
      rw [VerifierEcDsa.isValid, if_neg (not_not.mpr (length_publicKey hmade)), if_neg (not_not.mpr hrange),
        messageHash_stored hC hstored]
      show some (C.uEccVerify _ _ (NorMemory.read flash 16 56)) = some true
      rw [hread, uEccVerify_signature hC hmade]
  | rsa signer =>
      refine iff_of_false ?_ (fun h => h)
      rintro ⟨-, hvalid⟩
      rw [isValid_rsa hmade] at hvalid
      cases hvalid

end Packs

/-! ## Some packs -/

/-- A number as bytes, the first one first. -/
def octets : Nat → Nat → List UInt8
  | 0, _ => []
  | size + 1, n => octets size (n / 256) ++ [UInt8.ofNat (n % 256)]

theorem length_octets (size n : Nat) : (octets size n).length = size := by
  induction size generalizing n with
  | zero => rfl
  | succ size ih => rw [octets, List.length_append, ih, List.length_singleton]

def ecDsa224PublicKey : List UInt8 :=
  octets 32 0x869ba27d395643161cfd347f9e214488217ec526fe5f1eca506bcee26ff69d3b ++
  octets 24 0x1dcc98e9ee1eb4e8f4a5ae2f306eab9b7bb6bfe73b162a8e

def ecDsa224PrivateKey : List UInt8 :=
  octets 32 0xc950625abe84038ac91d0c2b27c0c0e5d2a1e3b80a660ede9992c79600000000 ++
  octets 24 0x000000000000000000000000000000000000000000000000

def ecDsaHash : List UInt8 := octets 32 0x395cb2e51d31a4faf1f325162c5149c553e982cef032e73805ced3639f259852

def ecDsaSignature : List UInt8 :=
  octets 32 0xbee0714aebf1682efe1622a974664e5b71e4dffc3cdd2412b9a4b62b59c5eb03 ++
  octets 24 0xe9fde81849101e50750c7ca033ad8d605cfa852fdb2fc0f9

def rsaHash : List UInt8 := octets 32 0xc937b8ea875aba0bb515235808dbdfeec63a43730f37083aef7c78738bfec776

def rsaSignature : List UInt8 :=
  octets 32 0x005f00cc83dd467521352b58e0bbf7f73e2ed4eae6346071e18f6979cc75ac23 ++
  octets 32 0xbbeade4d9dfdb8a09dbe97fc28277a3732913f8d376687fb554c4e841c6c0e66 ++
  octets 32 0x4c13ad362c64fd3869b836ac2c2f27c46e1e6335a246b36248df498d4fac49a1 ++
  octets 32 0x3c5e8d70a45b4e77f6b2a8f5c5efb80a29cbba7c623ba09c0a476f3e111af10d

def rsaN : List UInt8 :=
  octets 32 0x6f62f5f1580bb703c671688774e3da365fbf430ec3adba9ef234b9109d0a3d10 ++
  octets 32 0xf7b6b5712710f353490d1a1992f433ac4ae6e811784238f681d1fd9f7a9ff54f ++
  octets 32 0x61d56af35e60e8ba10f079b1c10fef653900bdd7ec3a73ecb73f6ebac6123733 ++
  octets 32 0x2da8bfe2f65026aefdbd98e38736a4636d71d822e1db6f02e68c69b8655c98c6

def rsaE : List UInt8 := octets 4 0x01000100

def rsaD : List UInt8 :=
  octets 32 0xb1c73ea6a8822aec58e00e1ed6dceae95b0ef681b253196a2fa8dbf45fab8c02 ++
  octets 32 0x50320a26a3f71fb2d484f43a3a7874eb89d3df20efbea5f7888eacd19c029e93 ++
  octets 32 0x2a3cd7b7a017cc3e266d80c7e6d1e4b32e67dec7941615a6ce51de78c6b79c71 ++
  octets 32 0x31f51c34aec59e19493a08ab048de40fb0af8e7fd9da48e38c6d0f5c9bcb525a

def rsaP : List UInt8 :=
  octets 32 0xb97f15a495f71f8e6cf937d9443636e6989f59edb3b826092f907bacf4ff499c ++
  octets 32 0x42aa1f94b5baf581ddb9095b71bf154e49045755821e36fd460525101ac86cf2

def rsaQ : List UInt8 :=
  octets 32 0x6777707ee1b78f2bb199a2a5a0490d7cfb5678f0aeaa0bc6d75503fc3b3c5c9a ++
  octets 32 0x399136989121f85d9b3a90eacc17f6b2c6f1c71711e55b729b43ca13ed44b7d1

def rsaDP : List UInt8 :=
  octets 32 0x4989bb6f0ae186c6127dc77d422674d57e44a65a2bc85d146f9cc6d30baf61ab ++
  octets 32 0x3f575d5052cd08bee16d432167356009bd6342dff1f1f500cc8e63205ca0b1b5

def rsaDQ : List UInt8 :=
  octets 32 0x530fdcb61144bee255caafa7b9d7371322d35c289332c1f2e46ceed5c124adca ++
  octets 32 0xa35d2e39fc8711b39d22a93a61592d2b08de4c22a1e827f3feb3b03ccd818442

def rsaQP : List UInt8 :=
  octets 32 0x8f69afadeead217b48f58be0087bb33681a4a4ac69e279aa94906d14b1c06fcb ++
  octets 32 0x8848c9c4b138d0f7bda9297c65346b000fde1206b7e11134e4c06fdc9bcd0525

def imageSignerEcDsa : ImageSignerEcDsa := { publicKey := ecDsa224PublicKey, privateKey := ecDsa224PrivateKey }

def imageSignerRsa : ImageSignerRsa :=
  { publicKey := { N := rsaN, E := rsaE }
    privateKey := { D := rsaD, P := rsaP, Q := rsaQ, DP := rsaDP, DQ := rsaDQ, QP := rsaQP } }

/-- A pack without images, for a signature of this length. -/
def contentsFor (length : UInt16) : List UInt8 :=
  { (packFor [0x41] []) with
    signer := { signatureMethod := 1, signatureLength := length
                imageSignature := fun _ => List.replicate length.toNat 0, checkSignature := fun _ _ => true
                length_imageSignature := fun _ => List.length_replicate } : UpgradePackBuilder }.signedContents

/-- What the libraries do with these contents and keys. Bytes of zero follow the public key for RSA. -/
def libraries : Crypto where
  Sha256Context := List UInt8
  sha256Starts := []
  sha256Update := fun message part => message ++ part
  sha256Finish := fun message =>
    if message = contentsFor 56 then ecDsaHash
    else if message = contentsFor 128 then rsaHash
    else List.replicate 32 0
  uEccComputePublicKey := fun privateKey => if privateKey = ecDsa224PrivateKey then some ecDsa224PublicKey else none
  uEccSign := fun _ privateKey hash =>
    if privateKey = ecDsa224PrivateKey ∧ hash = ecDsaHash then some ecDsaSignature else none
  uEccVerify := fun publicKey hash signature =>
    decide (publicKey = ecDsa224PublicKey ∧ hash = ecDsaHash ∧ signature = ecDsaSignature)
  rsaCheckPubkey := fun context => decide (context = imageSignerRsa.publicKey.context)
  rsaCheckPrivkey := fun context => decide (context = imageSignerRsa.context)
  rsaPssSign := fun _ context hash =>
    if context = imageSignerRsa.context ∧ hash = rsaHash then some rsaSignature else none
  rsaPssVerify := fun context hash signature =>
    decide (context = imageSignerRsa.publicKey.context ∧ hash = rsaHash ∧ signature = rsaSignature)
  rsaSelfTest := true

theorem correct_libraries : libraries.Correct where
  sha256_parts := by
    intro parts
    have hfoldl (front : List UInt8) : parts.foldl (fun message part => message ++ part) front =
        front ++ parts.flatten := by
      induction parts generalizing front with
      | nil => exact (List.append_nil _).symm
      | cons part parts ih => rw [List.foldl_cons, ih, List.flatten_cons, List.append_assoc]
    exact congrArg libraries.sha256Finish (hfoldl [])
  length_publicKey := by
    intro privateKey publicKey hpublic
    simp only [libraries] at hpublic
    split_ifs at hpublic
    rw [← Option.some.inj hpublic, ecDsa224PublicKey, List.length_append, length_octets, length_octets]
  uEccVerify_sign := by
    intro random privateKey publicKey hash signature hpublic hsignature
    simp only [libraries] at hpublic hsignature ⊢
    split_ifs at hpublic hsignature with hprivate hsigned
    rw [decide_eq_true_eq]
    exact ⟨(Option.some.inj hpublic).symm, hsigned.2, (Option.some.inj hsignature).symm⟩

/-- The pack with this signature. -/
def signedPack (signing : Signing) (signature : List UInt8)
    (hlength : signature.length = signing.signatureLength.toNat) : UpgradePackBuilder :=
  { packFor [0x41] [] with
    signer :=
      { signatureMethod := signing.signatureMethod, signatureLength := signing.signatureLength
        imageSignature := fun _ => signature, checkSignature := signing.checkSignature
        length_imageSignature := fun _ => hlength } }

theorem madeBy_signedPack {signing : Signing} {signature : List UInt8} {hlength}
    (hsignature : signing.imageSignature (signedPack signing signature hlength).signedContents = some signature)
    (hchecked : (signedPack signing signature hlength).checkSignature = true) :
    (signedPack signing signature hlength).MadeBy signing :=
  ⟨rfl, rfl, hsignature, rfl, hchecked⟩

theorem stored_signedPack {signing : Signing} {signature : List UInt8} {hlength} :
    (signedPack signing signature hlength).Stored (burned (signedPack signing signature hlength)) := by
  apply stored_burned
  rw [UpgradePackBuilder.length_upgradePack, UpgradePackBuilder.length_signedContents]
  show 16 + (signature.length + (204 + 0)) < 2 ^ 32
  have hlt : signing.signatureLength.toNat < 2 ^ 16 := signing.signatureLength.toNat_lt
  omega

theorem length_ecDsaSignature :
    ecDsaSignature.length = (imageSignerEcDsa.signing libraries []).signatureLength.toNat := by
  simp only [ecDsaSignature, List.length_append, length_octets]
  rfl

theorem length_rsaSignature : rsaSignature.length = (imageSignerRsa.signing libraries []).signatureLength.toNat := by
  simp only [rsaSignature, List.length_append, length_octets]
  rfl

def ecDsaPack : UpgradePackBuilder :=
  signedPack (imageSignerEcDsa.signing libraries []) ecDsaSignature length_ecDsaSignature

def rsaPack : UpgradePackBuilder := signedPack (imageSignerRsa.signing libraries []) rsaSignature length_rsaSignature

theorem madeBy_ecDsaPack : ecDsaPack.MadeBy (imageSignerEcDsa.signing libraries []) :=
  madeBy_signedPack (by decide +kernel) (by decide +kernel)

theorem madeBy_rsaPack : rsaPack.MadeBy (imageSignerRsa.signing libraries []) :=
  madeBy_signedPack (by decide +kernel) (by decide +kernel)

theorem accepts_iff_ecDsaPack : (SignatureMethod.ecDsa imageSignerEcDsa).Accepts libraries (burned ecDsaPack) :=
  (accepts_iff correct_libraries stored_signedPack (m := .ecDsa imageSignerEcDsa)
    madeBy_ecDsaPack).mpr trivial

/-- A pack with an RSA signature that its signer has checked. -/
theorem not_accepts_rsaPack :
    libraries.Correct ∧ rsaPack.MadeBy ((SignatureMethod.rsa imageSignerRsa).signing libraries []) ∧
      rsaPack.Stored (burned rsaPack) ∧ ¬ (SignatureMethod.rsa imageSignerRsa).Accepts libraries (burned rsaPack) := by
  have hstored : rsaPack.Stored (burned rsaPack) := stored_signedPack
  refine ⟨correct_libraries, madeBy_rsaPack, hstored, ?_⟩
  rintro ⟨-, hvalid⟩
  rw [hstored.prologue_eq, isValid_rsa madeBy_rsaPack] at hvalid
  cases hvalid

end EmbeddedInfra.Upgrade
