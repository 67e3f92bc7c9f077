import EmbeddedInfra.Infra.Syntax.Proto

set_option autoImplicit false

/-! # Upgrade packs

An upgrade pack starts with a header in two parts, with the signature between them, and goes on with the
images, each with a header of its own. The boot loaders read these headers from flash; the pack builder
(`application::UpgradePackBuilder`) writes them. A structure in memory is the list of its bytes, numbers
with the low byte first.
-/

namespace EmbeddedInfra.Upgrade

open Proto

/-! ## Structures in memory -/

/-- The bytes of a member of a structure. -/
def slice (bytes : List UInt8) (offset size : Nat) : List UInt8 := (bytes.drop offset).take size

def slice16 (bytes : List UInt8) (offset : Nat) : UInt16 := UInt16.ofNat (ofLittleEndian (slice bytes offset 2))

def slice32 (bytes : List UInt8) (offset : Nat) : UInt32 := UInt32.ofNat (ofLittleEndian (slice bytes offset 4))

/-- A `uint16_t` -/
def bytes16 (value : UInt16) : List UInt8 := littleEndian 2 value.toNat

/-- A `uint32_t` -/
def bytes32 (value : UInt32) : List UInt8 := littleEndian 4 value.toNat

section Slices

variable {front part rest : List UInt8} {n k size : Nat}

@[simp] theorem length_bytes16 (value : UInt16) : (bytes16 value).length = 2 := ProtoParser.length_littleEndian _ _

@[simp] theorem length_bytes32 (value : UInt32) : (bytes32 value).length = 4 := ProtoParser.length_littleEndian _ _

/-- A member behind others. -/
theorem slice_append (hfront : front.length = n) : slice (front ++ rest) (n + k) size = slice rest k size := by
  rw [slice, ← hfront, List.drop_length_add_append, slice]

theorem slice_front (hpart : part.length = size) : slice (part ++ rest) 0 size = part := by
  rw [slice, List.drop_zero, ← hpart, List.take_left]

theorem slice16_front (value : UInt16) : slice16 (bytes16 value ++ rest) 0 = value := by
  rw [slice16, slice_front (length_bytes16 value), bytes16, ProtoParser.ofLittleEndian_littleEndian _ _ value.toNat_lt,
    UInt16.ofNat_toNat]

theorem slice32_front (value : UInt32) : slice32 (bytes32 value ++ rest) 0 = value := by
  rw [slice32, slice_front (length_bytes32 value), bytes32, ProtoParser.ofLittleEndian_littleEndian _ _ value.toNat_lt,
    UInt32.ofNat_toNat]

theorem slice16_append (hfront : front.length = n) : slice16 (front ++ rest) (n + k) = slice16 rest k := by
  rw [slice16, slice_append hfront, slice16]

theorem slice32_append (hfront : front.length = n) : slice32 (front ++ rest) (n + k) = slice32 rest k := by
  rw [slice32, slice_append hfront, slice32]

end Slices

/-! ## The headers -/

inductive UpgradePackStatus
  | empty
  | downloaded
  | readyToDeploy
  | deployStarted
  | deployed
  | invalid
  deriving DecidableEq, Repr

def UpgradePackStatus.toByte : UpgradePackStatus → UInt8
  | .empty => 0xff
  | .downloaded => 0xfe
  | .readyToDeploy => 0xfc
  | .deployStarted => 0xf8
  | .deployed => 0xf0
  | .invalid => 0x7f

/-- `'U', 'P', 'H'` -/
def upgradePackMagic : List UInt8 := [0x55, 0x50, 0x48]

def upgradeErrorCodeUnknownHeaderVersion : UInt32 := 0
def upgradeErrorCodeInvalidSignature : UInt32 := 1
def upgradeErrorCodeUnknownProductName : UInt32 := 2
def upgradeErrorCodeNoOrIncorrectSecondStageFound : UInt32 := 3
def upgradeErrorCodeNoSuitableImageUpgraderFound : UInt32 := 4

/-- The status is a byte of flash, in which bits may have been cleared. -/
structure UpgradePackHeaderPrologue where
  status : UInt8
  magic : List UInt8
  errorCode : UInt32
  signedContentsLength : UInt32
  signatureMethod : UInt16
  signatureLength : UInt16

namespace UpgradePackHeaderPrologue

def bytes (h : UpgradePackHeaderPrologue) : List UInt8 :=
  [h.status] ++ (h.magic ++ (bytes32 h.errorCode ++ (bytes32 h.signedContentsLength ++
    (bytes16 h.signatureMethod ++ bytes16 h.signatureLength))))

def ofBytes (b : List UInt8) : UpgradePackHeaderPrologue :=
  { status := b.getD 0 0
    magic := slice b 1 3
    errorCode := slice32 b 4
    signedContentsLength := slice32 b 8
    signatureMethod := slice16 b 12
    signatureLength := slice16 b 14 }

theorem length_bytes {h : UpgradePackHeaderPrologue} (hmagic : h.magic.length = 3) : h.bytes.length = 16 := by
  simp [bytes, hmagic]

theorem ofBytes_bytes {h : UpgradePackHeaderPrologue} (hmagic : h.magic.length = 3) : ofBytes h.bytes = h := by
  obtain ⟨status, magic, errorCode, signedContentsLength, signatureMethod, signatureLength⟩ := h
  have hstatus : [status].length = 1 := rfl
  simp only at hmagic
  simp only [ofBytes, bytes, mk.injEq]
  refine ⟨rfl, ?_, ?_, ?_, ?_, ?_⟩
  · show slice ([status] ++ _) (1 + 0) 3 = magic
    rw [slice_append hstatus, slice_front hmagic]
  · show slice32 ([status] ++ _) (1 + (3 + 0)) = errorCode
    rw [slice32_append hstatus, slice32_append hmagic, slice32_front]
  · show slice32 ([status] ++ _) (1 + (3 + (4 + 0))) = signedContentsLength
    rw [slice32_append hstatus, slice32_append hmagic, slice32_append (length_bytes32 _), slice32_front]
  · show slice16 ([status] ++ _) (1 + (3 + (4 + (4 + 0)))) = signatureMethod
    rw [slice16_append hstatus, slice16_append hmagic, slice16_append (length_bytes32 _),
      slice16_append (length_bytes32 _), slice16_front]
  · show slice16 ([status] ++ _) (1 + (3 + (4 + (4 + (2 + 0))))) = signatureLength
    rw [slice16_append hstatus, slice16_append hmagic, slice16_append (length_bytes32 _),
      slice16_append (length_bytes32 _), slice16_append (length_bytes16 _), ← List.append_nil (bytes16 signatureLength),
      slice16_front]

end UpgradePackHeaderPrologue

structure UpgradePackHeaderEpilogue where
  headerVersion : UInt16
  headerLength : UInt16
  numberOfImages : UInt32
  productName : List UInt8
  productVersion : List UInt8
  componentName : List UInt8
  componentVersion : UInt32

namespace UpgradePackHeaderEpilogue

/-- The arrays have their sizes. -/
structure Sized (h : UpgradePackHeaderEpilogue) : Prop where
  productName : h.productName.length = 64
  productVersion : h.productVersion.length = 64
  componentName : h.componentName.length = 64

def bytes (h : UpgradePackHeaderEpilogue) : List UInt8 :=
  bytes16 h.headerVersion ++ (bytes16 h.headerLength ++ (bytes32 h.numberOfImages ++
    (h.productName ++ (h.productVersion ++ (h.componentName ++ bytes32 h.componentVersion)))))

def ofBytes (b : List UInt8) : UpgradePackHeaderEpilogue :=
  { headerVersion := slice16 b 0
    headerLength := slice16 b 2
    numberOfImages := slice32 b 4
    productName := slice b 8 64
    productVersion := slice b 72 64
    componentName := slice b 136 64
    componentVersion := slice32 b 200 }

theorem length_bytes {h : UpgradePackHeaderEpilogue} (hsized : h.Sized) : h.bytes.length = 204 := by
  simp [bytes, hsized.productName, hsized.productVersion, hsized.componentName]

theorem ofBytes_bytes {h : UpgradePackHeaderEpilogue} (hsized : h.Sized) : ofBytes h.bytes = h := by
  obtain ⟨hname, hversion, hcomponent⟩ := hsized
  obtain ⟨headerVersion, headerLength, numberOfImages, productName, productVersion, componentName, componentVersion⟩ := h
  simp only at hname hversion hcomponent
  simp only [ofBytes, bytes, mk.injEq]
  refine ⟨slice16_front _, ?_, ?_, ?_, ?_, ?_, ?_⟩
  · show slice16 (bytes16 headerVersion ++ _) (2 + 0) = headerLength
    rw [slice16_append (length_bytes16 _), slice16_front]
  · show slice32 (bytes16 headerVersion ++ _) (2 + (2 + 0)) = numberOfImages
    rw [slice32_append (length_bytes16 _), slice32_append (length_bytes16 _), slice32_front]
  · show slice (bytes16 headerVersion ++ _) (2 + (2 + (4 + 0))) 64 = productName
    rw [slice_append (length_bytes16 _), slice_append (length_bytes16 _), slice_append (length_bytes32 _),
      slice_front hname]
  · show slice (bytes16 headerVersion ++ _) (2 + (2 + (4 + (64 + 0)))) 64 = productVersion
    rw [slice_append (length_bytes16 _), slice_append (length_bytes16 _), slice_append (length_bytes32 _),
      slice_append hname, slice_front hversion]
  · show slice (bytes16 headerVersion ++ _) (2 + (2 + (4 + (64 + (64 + 0))))) 64 = componentName
    rw [slice_append (length_bytes16 _), slice_append (length_bytes16 _), slice_append (length_bytes32 _),
      slice_append hname, slice_append hversion, slice_front hcomponent]
  · show slice32 (bytes16 headerVersion ++ _) (2 + (2 + (4 + (64 + (64 + (64 + 0)))))) = componentVersion
    rw [slice32_append (length_bytes16 _), slice32_append (length_bytes16 _), slice32_append (length_bytes32 _),
      slice32_append hname, slice32_append hversion, slice32_append hcomponent,
      ← List.append_nil (bytes32 componentVersion), slice32_front]

/-- What is in memory from the product name on, up to the end of the epilogue. -/
def fromProductName (h : UpgradePackHeaderEpilogue) : List UInt8 :=
  h.productName ++ (h.productVersion ++ (h.componentName ++ bytes32 h.componentVersion))

end UpgradePackHeaderEpilogue

structure ImageHeaderPrologue where
  lengthOfHeaderAndImage : UInt32
  targetName : List UInt8
  encryptionAndMacMethod : UInt32

namespace ImageHeaderPrologue

def bytes (h : ImageHeaderPrologue) : List UInt8 :=
  bytes32 h.lengthOfHeaderAndImage ++ (h.targetName ++ bytes32 h.encryptionAndMacMethod)

def ofBytes (b : List UInt8) : ImageHeaderPrologue :=
  { lengthOfHeaderAndImage := slice32 b 0
    targetName := slice b 4 8
    encryptionAndMacMethod := slice32 b 12 }

theorem length_bytes {h : ImageHeaderPrologue} (hname : h.targetName.length = 8) : h.bytes.length = 16 := by
  simp [bytes, hname]

theorem ofBytes_bytes {h : ImageHeaderPrologue} (hname : h.targetName.length = 8) : ofBytes h.bytes = h := by
  obtain ⟨length, name, method⟩ := h
  simp only at hname
  simp only [ofBytes, bytes, mk.injEq]
  refine ⟨slice32_front _, ?_, ?_⟩
  · show slice (bytes32 length ++ _) (4 + 0) 8 = name
    rw [slice_append (length_bytes32 _), slice_front hname]
  · show slice32 (bytes32 length ++ _) (4 + (8 + 0)) = method
    rw [slice32_append (length_bytes32 _), slice32_append hname, ← List.append_nil (bytes32 method), slice32_front]

end ImageHeaderPrologue

structure ImageHeaderEpilogue where
  destinationAddress : UInt32
  imageSize : UInt32

namespace ImageHeaderEpilogue

def bytes (h : ImageHeaderEpilogue) : List UInt8 := bytes32 h.destinationAddress ++ bytes32 h.imageSize

def ofBytes (b : List UInt8) : ImageHeaderEpilogue :=
  { destinationAddress := slice32 b 0, imageSize := slice32 b 4 }

theorem length_bytes (h : ImageHeaderEpilogue) : h.bytes.length = 8 := by
  simp [bytes]

theorem ofBytes_bytes (h : ImageHeaderEpilogue) : ofBytes h.bytes = h := by
  obtain ⟨destinationAddress, imageSize⟩ := h
  simp only [ofBytes, bytes, mk.injEq]
  refine ⟨slice32_front _, ?_⟩
  show slice32 (bytes32 destinationAddress ++ _) (4 + 0) = imageSize
  rw [slice32_append (length_bytes32 _), ← List.append_nil (bytes32 imageSize), slice32_front]

end ImageHeaderEpilogue

/-! ## The pack builder -/

/-- `application::ImageSecurity` -/
structure ImageSecurity where
  encryptionAndMacMethod : UInt32
  secure : List UInt8 → List UInt8

/-- `application::InputBinary`. A target name that is too long is not accepted. -/
structure InputBinary where
  targetName : List UInt8
  targetName_le : targetName.length ≤ 8
  destinationAddress : UInt32
  contents : List UInt8
  imageSecurity : ImageSecurity

namespace InputBinary

/-- What is encrypted: the destination, the size and the image. -/
def unencryptedImage (i : InputBinary) : List UInt8 :=
  ImageHeaderEpilogue.bytes
    { destinationAddress := i.destinationAddress, imageSize := UInt32.ofNat i.contents.length } ++ i.contents

def encryptedImage (i : InputBinary) : List UInt8 := i.imageSecurity.secure i.unencryptedImage

/-- The target name, filled out with zeros. -/
def targetNameArray (i : InputBinary) : List UInt8 := i.targetName ++ List.replicate (8 - i.targetName.length) 0

/-- `Image`, in front of which the size is put last. -/
def image (i : InputBinary) : List UInt8 :=
  let result := i.targetNameArray ++ (bytes32 i.imageSecurity.encryptionAndMacMethod ++ i.encryptedImage)
  bytes32 (UInt32.ofNat (result.length + 4)) ++ result

end InputBinary

/-- `application::InputHex`: addresses with their bytes, as the sparse vector gives them. There is at least
one. -/
structure InputHex where
  targetName : List UInt8
  targetName_le : targetName.length ≤ 8
  first : UInt32 × UInt8
  others : List (UInt32 × UInt8)
  imageSecurity : ImageSecurity

namespace InputHex

/-- One turn of the loop of `Linearize`. -/
def place (startAddress : UInt32) (result : List UInt8) (element : UInt32 × UInt8) : List UInt8 :=
  let size := (element.1 + 1 - startAddress).toNat
  (result ++ List.replicate (size - result.length) 0).set (element.1 - startAddress).toNat element.2

def linearize (i : InputHex) : List UInt8 := (i.first :: i.others).foldl (place i.first.1) []

/-- The result does not get shorter. -/
theorem length_le_place (startAddress : UInt32) (result : List UInt8) (element : UInt32 × UInt8) :
    result.length ≤ (place startAddress result element).length := by
  simp only [place, List.length_set, List.length_append]
  omega

theorem linearize_ne_nil (i : InputHex) : i.linearize ≠ [] := by
  have hgrows (elements : List (UInt32 × UInt8)) (result : List UInt8) :
      result.length ≤ (elements.foldl (place i.first.1) result).length := by
    induction elements generalizing result with
    | nil => exact le_rfl
    | cons element elements ih => exact (length_le_place _ _ _).trans (ih _)
  have hone : i.first.1 + 1 - i.first.1 = 1 := by
    rw [UInt32.add_comm, UInt32.add_sub_cancel]
  have hfirst : (place i.first.1 [] i.first).length = 1 := by
    simp only [place, hone, List.length_set, List.length_append, List.length_replicate, List.length_nil]
    rfl
  intro hnil
  have := hgrows i.others (place i.first.1 [] i.first)
  rw [hfirst] at this
  rw [linearize, List.foldl_cons] at hnil
  rw [hnil] at this
  exact absurd this (by decide)

def inputBinary (i : InputHex) : InputBinary :=
  { targetName := i.targetName
    targetName_le := i.targetName_le
    destinationAddress := i.first.1
    contents := i.linearize
    imageSecurity := i.imageSecurity }

end InputHex

inductive Input
  | binary (i : InputBinary)
  | hex (i : InputHex)

/-- The binary input of which the image is written. -/
def Input.inputBinary : Input → InputBinary
  | .binary i => i
  | .hex i => i.inputBinary

def Input.image (i : Input) : List UInt8 := i.inputBinary.image

/-- `application::ImageSigner`, whose signatures have the length it says. -/
structure ImageSigner where
  signatureMethod : UInt16
  signatureLength : UInt16
  imageSignature : List UInt8 → List UInt8
  checkSignature : List UInt8 → List UInt8 → Bool
  length_imageSignature : ∀ image, (imageSignature image).length = signatureLength.toNat

structure HeaderInfo where
  productName : List UInt8
  productVersion : List UInt8
  componentName : List UInt8
  componentVersion : UInt32

structure UpgradePackBuilder where
  headerInfo : HeaderInfo
  inputs : List Input
  signer : ImageSigner

namespace UpgradePackBuilder

/-- `AssignZeroFilled` into an array of zeros. -/
def assignZeroFilled (data : List UInt8) (size : Nat) : List UInt8 :=
  data.take size ++ List.replicate (size - data.length) 0

theorem length_assignZeroFilled (data : List UInt8) (size : Nat) : (assignZeroFilled data size).length = size := by
  simp only [assignZeroFilled, List.length_append, List.length_take, List.length_replicate]
  omega

variable (b : UpgradePackBuilder)

def epilogue : UpgradePackHeaderEpilogue :=
  { headerVersion := 1
    headerLength := 16 + b.signer.signatureLength + 204
    numberOfImages := UInt32.ofNat b.inputs.length
    productName := assignZeroFilled b.headerInfo.productName 64
    productVersion := assignZeroFilled b.headerInfo.productVersion 64
    componentName := assignZeroFilled b.headerInfo.componentName 64
    componentVersion := b.headerInfo.componentVersion }

theorem epilogue_sized : b.epilogue.Sized :=
  ⟨length_assignZeroFilled _ _, length_assignZeroFilled _ _, length_assignZeroFilled _ _⟩

/-- `AddImages` -/
def images : List UInt8 := b.inputs.flatMap Input.image

/-- What is signed. -/
def signedContents : List UInt8 := b.epilogue.bytes ++ b.images

def signature : List UInt8 := b.signer.imageSignature b.signedContents

def prologue : UpgradePackHeaderPrologue :=
  { status := UpgradePackStatus.readyToDeploy.toByte
    magic := upgradePackMagic
    errorCode := 0xffffffff
    signedContentsLength := UInt32.ofNat b.signedContents.length
    signatureMethod := b.signer.signatureMethod
    signatureLength := UInt16.ofNat b.signature.length }

def upgradePack : List UInt8 := b.prologue.bytes ++ (b.signature ++ b.signedContents)

/-- `CheckSignature`, without which there is an exception. -/
def checkSignature : Bool :=
  b.signer.checkSignature (slice b.upgradePack 16 b.signer.signatureLength.toNat)
    (b.upgradePack.drop (16 + b.signer.signatureLength.toNat))

end UpgradePackBuilder

end EmbeddedInfra.Upgrade
