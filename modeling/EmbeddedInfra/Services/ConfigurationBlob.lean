import EmbeddedInfra.Lib.NorMemory

set_option autoImplicit false

/-! # Configuration blobs

`services::ConfigurationBlobImpl` keeps a serialised configuration in a flash. The bytes are
prepared in a buffer in RAM (`blob`) that starts with a header: eight bytes of a hash and the size
of the configuration. The hash covers the size and the configuration; a blob read back from flash
is believed when its hash is right.

The hash function `mbedtls_sha256` and the configurations, which are message types that the protocol
buffer plugin generates, are parameters here (`Platform`, `Message`).
-/

namespace EmbeddedInfra.ConfigurationStore

open NorMemory

/-- What the blob takes from its surroundings: the width of `std::size_t`, and `mbedtls_sha256`,
which produces 32 bytes. -/
structure Platform where
  sizeBits : Nat
  sizeBits_ge : 32 ≤ sizeBits
  sha256 : List UInt8 → List UInt8
  length_sha256 : ∀ m, (sha256 m).length = 32

/-- Arithmetic in `std::size_t`. -/
def Platform.sizeT (P : Platform) (n : Nat) : Nat := n % 2 ^ P.sizeBits

/-- A generated message type: a message is serialised in at most `maxMessageSize` bytes, and
parsing them gives the message back. -/
structure Message (T : Type) where
  maxMessageSize : Nat
  serialize : T → List UInt8
  deserialize : List UInt8 → T
  fits : maxMessageSize + 12 < 2 ^ 32
  length_serialize : ∀ c, (serialize c).length ≤ maxMessageSize
  deserialize_serialize : ∀ c, deserialize (serialize c) = c

/-! ## The header -/

/-- A `uint32_t` in memory. -/
def littleEndian (n : Nat) : List UInt8 :=
  [UInt8.ofNat n, UInt8.ofNat (n / 256), UInt8.ofNat (n / 65536), UInt8.ofNat (n / 16777216)]

def ofLittleEndian (bytes : List UInt8) : Nat :=
  bytes.foldr (fun b n => b.toNat + 256 * n) 0

theorem ofLittleEndian_littleEndian {n : Nat} (h : n < 2 ^ 32) :
    ofLittleEndian (littleEndian n) = n := by
  simp only [littleEndian, ofLittleEndian, List.foldr_cons, List.foldr_nil, UInt8.toNat_ofNat']
  omega

structure Header where
  hash : List UInt8
  size : Nat

/-- `sizeof(header.hash)`. -/
def sizeofHash : Nat := 8

/-- `sizeof(header.size)`. -/
def sizeofSize : Nat := 4

/-- `sizeof(Header)`. -/
def sizeofHeader : Nat := 12

/-- Copying the head of the blob to a header. -/
def readHeader (blob : List UInt8) : Header :=
  { hash := blob.take sizeofHash, size := ofLittleEndian ((blob.drop sizeofHash).take sizeofSize) }

/-- Copying a header to the head of the blob. -/
def writeHeader (header : Header) (blob : List UInt8) : List UInt8 :=
  header.hash ++ littleEndian header.size ++ blob.drop sizeofHeader

/-! ## The functions of the blob -/

def currentBlob (blob : List UInt8) (currentSize : Nat) : List UInt8 :=
  (blob.drop sizeofHeader).take currentSize

def blobIsValid (P : Platform) (blob : List UInt8) : Bool :=
  let header := readHeader blob
  if blob.length < P.sizeT (header.size + sizeofHeader) then false
  else
    let messageHash := P.sha256 ((blob.drop sizeofHash).take
      (min (P.sizeT (header.size + sizeofSize)) (blob.length - sizeofHash)))
    messageHash.take sizeofHash == header.hash

/-- `PrepareBlobForWriting`. When the header is copied for the first time its hash is not
initialised yet; the bytes that are hashed start after it. -/
def prepareBlobForWriting (P : Platform) (currentSize : Nat) (blob : List UInt8) : List UInt8 :=
  let blob := writeHeader { hash := blob.take sizeofHash, size := currentSize } blob
  let messageHash := P.sha256 ((blob.drop sizeofHash).take (currentSize + sizeofSize))
  writeHeader { hash := messageHash.take sizeofHash, size := currentSize } blob

/-- Streaming a serialised configuration to `MaxBlob()`. -/
def streamToMaxBlob (bytes blob : List UInt8) : List UInt8 :=
  blob.take sizeofHeader ++ bytes ++ blob.drop (sizeofHeader + bytes.length)

/-- The buffer that `Serialize` hands to the flash. -/
def image (P : Platform) (bytes blob : List UInt8) : List UInt8 :=
  prepareBlobForWriting P bytes.length (streamToMaxBlob bytes blob)

/-- What `Recover` finds in a blob that was read from flash. -/
def contents (P : Platform) (blob : List UInt8) : Option (List UInt8) :=
  if blobIsValid P blob then some (currentBlob blob (readHeader blob).size) else none

/-! ## What is written is what is recovered -/

variable {blob : List UInt8} {header : Header}

theorem contents_eq_none {P : Platform} : contents P blob = none ↔ blobIsValid P blob = false := by
  unfold contents
  cases blobIsValid P blob <;> simp

theorem readHeader_writeHeader (hh : header.hash.length = 8) (hs : header.size < 2 ^ 32) :
    readHeader (writeHeader header blob) = header := by
  have hsize : ((writeHeader header blob).drop sizeofHash).take sizeofSize
      = littleEndian header.size := by
    rw [writeHeader, List.append_assoc, List.drop_left' (by simpa [sizeofHash] using hh)]
    exact List.take_left' rfl
  have hhash : (writeHeader header blob).take sizeofHash = header.hash := by
    rw [writeHeader, List.append_assoc, List.take_left' (by simpa [sizeofHash] using hh)]
  rw [readHeader, hsize, hhash, ofLittleEndian_littleEndian hs]

theorem drop_writeHeader (hh : header.hash.length = 8) :
    (writeHeader header blob).drop sizeofHeader = blob.drop sizeofHeader := by
  refine List.drop_left' ?_
  simp [hh, littleEndian, sizeofHeader]

theorem length_writeHeader (hh : header.hash.length = 8)
    (hb : 12 ≤ blob.length) : (writeHeader header blob).length = blob.length := by
  simp only [writeHeader, littleEndian, sizeofHeader, List.length_append, hh, List.length_cons,
    List.length_nil, List.length_drop]
  omega

section

variable {P : Platform} {bytes blob : List UInt8} (hb : 12 + bytes.length ≤ blob.length)

include hb

theorem length_streamToMaxBlob : (streamToMaxBlob bytes blob).length = blob.length := by
  simp only [streamToMaxBlob, sizeofHeader, List.length_append, List.length_take, List.length_drop]
  omega

theorem drop_streamToMaxBlob :
    (streamToMaxBlob bytes blob).drop sizeofHeader
      = bytes ++ blob.drop (sizeofHeader + bytes.length) := by
  rw [streamToMaxBlob, List.append_assoc]
  refine List.drop_left' ?_
  rw [List.length_take]
  simp only [sizeofHeader]
  omega

/-- The bytes that are hashed: the size, and the serialised configuration. -/
theorem hashed_writeHeader {hash : List UInt8} (h8 : hash.length = 8) :
    ((writeHeader ⟨hash, bytes.length⟩ (streamToMaxBlob bytes blob)).drop sizeofHash).take
      (bytes.length + sizeofSize) = littleEndian bytes.length ++ bytes := by
  rw [writeHeader, List.append_assoc, List.drop_left' (by simpa [sizeofHash] using h8),
    drop_streamToMaxBlob hb, ← List.append_assoc]
  refine List.take_left' ?_
  simp only [littleEndian, sizeofSize, List.length_append, List.length_cons, List.length_nil]
  omega

/-- The image is a header, the serialised configuration, and what was in the buffer before. -/
theorem image_eq : ∃ hash : List UInt8, hash.length = 8 ∧
    hash = (P.sha256 (littleEndian bytes.length ++ bytes)).take sizeofHash ∧
    image P bytes blob = writeHeader ⟨hash, bytes.length⟩ (streamToMaxBlob bytes blob) := by
  have h8 : ((streamToMaxBlob bytes blob).take sizeofHash).length = 8 := by
    rw [List.length_take, length_streamToMaxBlob hb]
    simp only [sizeofHash]
    omega
  refine ⟨_, ?_, rfl, ?_⟩
  · rw [List.length_take, P.length_sha256]
    rfl
  · unfold image prepareBlobForWriting
    simp only [hashed_writeHeader hb h8]
    conv_lhs => rw [writeHeader, drop_writeHeader h8]
    rfl

theorem length_image : (image P bytes blob).length = blob.length := by
  obtain ⟨hash, h8, -, heq⟩ := image_eq (P := P) hb
  rw [heq, length_writeHeader h8 (by rw [length_streamToMaxBlob hb]; omega),
    length_streamToMaxBlob hb]

/-- A blob that was written completely is valid, and holds what was serialised. -/
theorem contents_image (h32 : blob.length < 2 ^ 32) :
    contents P (image P bytes blob) = some bytes := by
  obtain ⟨hash, h8, hhash, heq⟩ := image_eq (P := P) hb
  have hlen : (image P bytes blob).length = blob.length := length_image hb
  have hhead : readHeader (image P bytes blob) = { hash := hash, size := bytes.length } := by
    rw [heq]
    exact readHeader_writeHeader h8 (show bytes.length < 2 ^ 32 by omega)
  have hbits : 2 ^ 32 ≤ 2 ^ P.sizeBits := Nat.pow_le_pow_right (by omega) P.sizeBits_ge
  have hdrop : (image P bytes blob).drop sizeofHeader
      = bytes ++ blob.drop (sizeofHeader + bytes.length) := by
    rw [heq, drop_writeHeader h8, drop_streamToMaxBlob hb]
  have hmessage : ((image P bytes blob).drop sizeofHash).take (bytes.length + sizeofSize)
      = littleEndian bytes.length ++ bytes := by
    rw [heq, hashed_writeHeader hb h8]
  have hvalid : blobIsValid P (image P bytes blob) = true := by
    unfold blobIsValid
    simp only [hhead, hlen, Platform.sizeT, sizeofHeader]
    rw [Nat.mod_eq_of_lt (by omega), if_neg (by omega),
      Nat.mod_eq_of_lt (by simp only [sizeofSize]; omega),
      Nat.min_eq_left (by simp only [sizeofSize, sizeofHash]; omega), hmessage, ← hhash]
    simp
  rw [contents, hvalid, if_pos rfl, hhead, currentBlob, hdrop]
  exact congrArg some (List.take_left' rfl)

end

/-- An erased blob is not valid, provided that the hash of a message of `0xff`s is not itself a
row of `0xff`s. -/
theorem contents_blank {P : Platform}
    (hP : ∀ n, (P.sha256 (List.replicate n blank)).take sizeofHash ≠ List.replicate sizeofHash blank)
    {n : Nat} (hn : 12 ≤ n) : contents P (List.replicate n blank) = none := by
  rw [contents_eq_none]
  unfold blobIsValid
  simp only
  split
  · rfl
  · rw [List.drop_replicate, List.take_replicate]
    have hhash : (readHeader (List.replicate n blank)).hash = List.replicate sizeofHash blank := by
      rw [readHeader, List.take_replicate]
      rw [Nat.min_eq_left (show sizeofHash ≤ n from Nat.le_trans (by decide) hn)]
    rw [hhash]
    exact beq_eq_false_iff_ne.mpr (hP _)

end EmbeddedInfra.ConfigurationStore
