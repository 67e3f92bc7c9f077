import EmbeddedInfra.Hal.Flash
import EmbeddedInfra.Upgrade.UpgradePack

set_option autoImplicit false

/-! # Upgrade packs in flash

The boot loaders read a pack from flash, header after header. `Stored` says that a pack is there; what is
read at the addresses that the loaders compute are then the parts that the pack builder has put together.
-/

namespace EmbeddedInfra.Upgrade

open NorMemory

/-! ## Strings of C -/

/-- The characters in front of the first zero. -/
def cString (bytes : List UInt8) : List UInt8 := bytes.takeWhile (· != 0)

/-- `strncmp(left, right, n) == 0`. A string that ends has a zero there. -/
def strncmpEqual (left right : List UInt8) (n : Nat) : Bool := cString (left.take n) == cString (right.take n)

/-- `strcmp(left, right) == 0`. The second one is in memory, and does not have to end where its array does. -/
def strcmpEqual (left right : List UInt8) : Bool := decide (cString left ++ [0] <+: right)

theorem cString_append_zero (front rest : List UInt8) : cString (front ++ 0 :: rest) = cString front := by
  induction front with
  | nil => simp [cString]
  | cons c front ih =>
      simp only [cString, List.cons_append, List.takeWhile_cons] at ih ⊢
      rw [ih]

theorem cString_zeroFilled (front : List UInt8) (n : Nat) : cString (front ++ List.replicate n 0) = cString front := by
  cases n with
  | zero => simp
  | succ n => rw [List.replicate_succ, cString_append_zero]

/-- What comes in front of the first zero, with a zero behind it. -/
theorem cString_zero_prefix (name rest : List UInt8) : cString name ++ [0] <+: name ++ 0 :: rest := by
  induction name with
  | nil => exact ⟨rest, rfl⟩
  | cons c name ih =>
      by_cases hc : c = 0
      · subst hc
        exact ⟨name ++ 0 :: rest, rfl⟩
      · have hcons : cString (c :: name) = c :: cString name := by simp [cString, hc]
        rw [hcons, List.cons_append, List.cons_append, List.cons_prefix_cons]
        exact ⟨rfl, ih⟩

/-- A string that is shorter than the array that it is copied to. -/
theorem strcmpEqual_assignZeroFilled {name rest : List UInt8} {size : Nat} (h : (cString name).length < size) :
    strcmpEqual name (UpgradePackBuilder.assignZeroFilled name size ++ rest) = true := by
  obtain ⟨n, rfl⟩ : ∃ n, size = n + 1 := ⟨size - 1, by omega⟩
  have harray : UpgradePackBuilder.assignZeroFilled name (n + 1) = (name ++ List.replicate (n + 1) 0).take (n + 1) := by
    rw [UpgradePackBuilder.assignZeroFilled, List.take_append, List.take_replicate]
    congr 2
    omega
  have hpre : cString name ++ [0] <+: name ++ List.replicate (n + 1) 0 := cString_zero_prefix _ _
  have hlen : (cString name ++ [0]).length ≤ n + 1 := by simpa using h
  rw [strcmpEqual, decide_eq_true_eq, harray]
  exact (List.prefix_take_iff.mpr ⟨hpre, hlen⟩).trans (List.prefix_append _ _)

/-! ## Parts of a pack -/

/-- The pack is in flash from address zero on. Addresses are `uint32_t`. -/
structure UpgradePackBuilder.Stored (b : UpgradePackBuilder) (flash : Memory) : Prop where
  read_eq : read flash 0 b.upgradePack.length = b.upgradePack
  length_lt : b.upgradePack.length < 2 ^ 32

def markAsError (flash : Memory) (errorCode : UInt32) : Memory :=
  program (program flash 0 [UpgradePackStatus.invalid.toByte]) 4 (bytes32 errorCode)

namespace InputBinary

variable (i : InputBinary)

/-- The header of the image. -/
def header : ImageHeaderPrologue :=
  { lengthOfHeaderAndImage := UInt32.ofNat i.image.length
    targetName := i.targetNameArray
    encryptionAndMacMethod := i.imageSecurity.encryptionAndMacMethod }

theorem length_targetNameArray : i.targetNameArray.length = 8 := by
  have := i.targetName_le
  simp only [targetNameArray, List.length_append, List.length_replicate]
  omega

theorem length_image : i.image.length = 16 + i.encryptedImage.length := by
  simp only [image, List.length_append, length_bytes32, length_targetNameArray]
  omega

theorem image_eq : i.image = i.header.bytes ++ i.encryptedImage := by
  have hlen : (i.targetNameArray ++ (bytes32 i.imageSecurity.encryptionAndMacMethod ++ i.encryptedImage)).length + 4 =
      i.image.length := by
    rw [length_image]
    simp only [List.length_append, length_bytes32, length_targetNameArray]
    omega
  rw [image, hlen]
  simp [ImageHeaderPrologue.bytes, header]

/-- The array has the target name as a string of C. -/
theorem strncmpEqual_targetNameArray (name : List UInt8) :
    strncmpEqual i.targetNameArray name 8 = decide (cString i.targetName = cString (name.take 8)) := by
  rw [strncmpEqual, List.take_of_length_le i.length_targetNameArray.le, targetNameArray, cString_zeroFilled,
    beq_eq_decide]

end InputBinary

section Flash

variable {flash : Memory} {address n : Nat} {p q r : List UInt8}

/-- What is read in front of other bytes. -/
theorem read_front (h : read flash address n = q ++ r) : read flash address q.length = q := by
  refine read_part (a := address) (n := n) (p := []) (r := r) ?_ (by simp) rfl
  rw [h, List.nil_append]

/-- What is read behind other bytes. -/
theorem read_behind (h : read flash address n = p ++ q) : read flash (address + p.length) q.length = q := by
  refine read_part (a := address) (n := n) (p := p) (r := []) ?_ rfl rfl
  rw [h, List.append_nil]

/-- An image at an address. -/
structure HasImageAt (flash : Memory) (address : Nat) (i : InputBinary) : Prop where
  read_eq : read flash address i.image.length = i.image
  address_lt : address + i.image.length < 2 ^ 32

variable {i : InputBinary}

section

variable (h : HasImageAt flash address i)
include h

theorem HasImageAt.header_eq :
    ImageHeaderPrologue.ofBytes (read flash address 16) = i.header := by
  have hread : read flash address i.image.length = i.header.bytes ++ i.encryptedImage := by
    rw [h.read_eq, i.image_eq]
  have hlen : i.header.bytes.length = 16 := ImageHeaderPrologue.length_bytes i.length_targetNameArray
  rw [← hlen, read_front hread, ImageHeaderPrologue.ofBytes_bytes i.length_targetNameArray]

theorem HasImageAt.length_eq : i.header.lengthOfHeaderAndImage.toNat = i.image.length := by
  have := h.address_lt
  exact UInt32.toNat_ofNat_of_lt' (show _ < 2 ^ 32 by omega)

theorem HasImageAt.read_encryptedImage :
    read flash (address + 16) i.encryptedImage.length = i.encryptedImage := by
  have hread : read flash address i.image.length = i.header.bytes ++ i.encryptedImage := by
    rw [h.read_eq, i.image_eq]
  have hlen : i.header.bytes.length = 16 := ImageHeaderPrologue.length_bytes i.length_targetNameArray
  rw [← hlen]
  exact read_behind hread

/-- The state of the decryptor, the header that is encrypted, and the image itself. -/
theorem HasImageAt.read_parts {stateSize : Nat}
    (hsize : stateSize + 8 ≤ i.encryptedImage.length) :
    read flash (address + 16) stateSize = i.encryptedImage.take stateSize ∧
      read flash (address + 16 + stateSize) 8 = slice i.encryptedImage stateSize 8 ∧
      read flash (address + 16 + stateSize + 8) (i.encryptedImage.length - (stateSize + 8)) =
        i.encryptedImage.drop (stateSize + 8) := by
  have hsplit : i.encryptedImage = i.encryptedImage.take stateSize ++
      (slice i.encryptedImage stateSize 8 ++ i.encryptedImage.drop (stateSize + 8)) := by
    rw [slice, ← List.drop_drop, List.take_append_drop, List.take_append_drop]
  have htake : (i.encryptedImage.take stateSize).length = stateSize := by
    rw [List.length_take]
    omega
  have hslice : (slice i.encryptedImage stateSize 8).length = 8 := by
    rw [slice, List.length_take, List.length_drop]
    omega
  have hread := h.read_encryptedImage.trans hsplit
  have hrest : read flash (address + 16 + stateSize) _ = _ := htake ▸ read_behind hread
  refine ⟨?_, ?_, ?_⟩
  · have := read_front hread
    rwa [htake] at this
  · have := read_front hrest
    rwa [hslice] at this
  · have := read_behind hrest
    rwa [hslice, List.length_drop] at this

end

/-- Images at an address, one after the other. -/
structure HasImagesAt (flash : Memory) (address : Nat) (inputs : List Input) : Prop where
  read_eq : read flash address (inputs.flatMap Input.image).length = inputs.flatMap Input.image
  address_lt : address + (inputs.flatMap Input.image).length < 2 ^ 32

theorem HasImagesAt.cons {input : Input} {inputs : List Input} (h : HasImagesAt flash address (input :: inputs)) :
    HasImageAt flash address input.inputBinary ∧ HasImagesAt flash (address + input.image.length) inputs := by
  obtain ⟨hread, hlt⟩ := h
  rw [List.flatMap_cons] at hread hlt
  rw [List.length_append] at hlt
  refine ⟨⟨read_front hread, ?_⟩, ⟨read_behind hread, ?_⟩⟩
  · show address + input.image.length < 2 ^ 32
    omega
  · omega

end Flash

namespace UpgradePackBuilder

variable {b : UpgradePackBuilder} {flash : Memory}

theorem signatureLength_toNat (b : UpgradePackBuilder) : b.prologue.signatureLength.toNat = b.signature.length := by
  have hlength := b.signer.length_imageSignature b.signedContents
  have hlt := b.signer.signatureLength.toNat_lt
  exact UInt16.toNat_ofNat_of_lt' (by rw [signature, hlength]; exact hlt)

theorem length_prologue (b : UpgradePackBuilder) : b.prologue.bytes.length = 16 :=
  UpgradePackHeaderPrologue.length_bytes rfl

theorem length_upgradePack (b : UpgradePackBuilder) :
    b.upgradePack.length = 16 + (b.signature.length + b.signedContents.length) := by
  rw [upgradePack, List.length_append, List.length_append, length_prologue]

theorem length_signedContents (b : UpgradePackBuilder) : b.signedContents.length = 204 + b.images.length := by
  rw [signedContents, List.length_append, UpgradePackHeaderEpilogue.length_bytes b.epilogue_sized]

variable (h : b.Stored flash)
include h

theorem Stored.prologue_eq : UpgradePackHeaderPrologue.ofBytes (read flash 0 16) = b.prologue := by
  rw [← b.length_prologue, read_front h.read_eq, UpgradePackHeaderPrologue.ofBytes_bytes rfl]

theorem Stored.status_eq : flash 0 = UpgradePackStatus.readyToDeploy.toByte := by
  have hfront : read flash 0 b.upgradePack.length = [] ++ UpgradePackStatus.readyToDeploy.toByte ::
      (b.upgradePack.drop 1) := by
    rw [h.read_eq]
    rfl
  exact get_part hfront rfl

theorem Stored.read_behind_prologue :
    read flash 16 (b.signature ++ b.signedContents).length = b.signature ++ b.signedContents := by
  have := read_behind h.read_eq
  rwa [b.length_prologue] at this

theorem Stored.read_signature : read flash 16 b.signature.length = b.signature :=
  read_front h.read_behind_prologue

theorem Stored.read_signedContents : read flash (16 + b.signature.length) b.signedContents.length = b.signedContents :=
  read_behind h.read_behind_prologue

theorem Stored.signedContentsLength_toNat : b.prologue.signedContentsLength.toNat = b.signedContents.length := by
  have hlt := h.length_lt
  rw [length_upgradePack] at hlt
  exact UInt32.toNat_ofNat_of_lt' (show _ < 2 ^ 32 by omega)

theorem Stored.contents_eq : add32 16 b.signature.length = 16 + b.signature.length := by
  have hlt := h.length_lt
  rw [length_upgradePack] at hlt
  exact add32_of_lt (by omega)

theorem Stored.epilogue_eq :
    UpgradePackHeaderEpilogue.ofBytes (read flash (16 + b.signature.length) 204) = b.epilogue := by
  have hlen := UpgradePackHeaderEpilogue.length_bytes b.epilogue_sized
  rw [← hlen, read_front h.read_signedContents, UpgradePackHeaderEpilogue.ofBytes_bytes b.epilogue_sized]

/-- The address of the first image. -/
theorem Stored.images_eq : add32 (16 + b.signature.length) 204 = 16 + b.signature.length + 204 := by
  have hlt := h.length_lt
  rw [length_upgradePack, length_signedContents] at hlt
  exact add32_of_lt (by omega)

theorem Stored.hasImages : HasImagesAt flash (16 + b.signature.length + 204) b.inputs := by
  have hlen := UpgradePackHeaderEpilogue.length_bytes b.epilogue_sized
  have hlt := h.length_lt
  rw [length_upgradePack, length_signedContents] at hlt
  refine ⟨?_, ?_⟩
  · rw [← hlen]
    exact read_behind h.read_signedContents
  · show 16 + b.signature.length + 204 + b.images.length < 2 ^ 32
    omega

/-- Every image takes some bytes, so that they can be counted. -/
theorem Stored.numberOfImages_toNat : b.epilogue.numberOfImages.toNat = b.inputs.length := by
  have hle : b.inputs.length ≤ b.images.length := by
    have hall (inputs : List Input) : inputs.length ≤ (inputs.flatMap Input.image).length := by
      induction inputs with
      | nil => exact Nat.zero_le _
      | cons input inputs ih =>
          have hlen : input.image.length = 16 + input.inputBinary.encryptedImage.length := input.inputBinary.length_image
          rw [List.flatMap_cons, List.length_append, List.length_cons]
          omega
    exact hall b.inputs
  have hlt := h.length_lt
  rw [length_upgradePack, length_signedContents] at hlt
  exact UInt32.toNat_ofNat_of_lt' (show _ < 2 ^ 32 by omega)

end UpgradePackBuilder

/-! ## Packs without a signature -/

/-- A signer that signs with nothing. -/
def signerNone : ImageSigner :=
  { signatureMethod := 0, signatureLength := 0, imageSignature := fun _ => [], checkSignature := fun _ _ => true
    length_imageSignature := fun _ => rfl }

/-- A pack that is not signed. -/
def packFor (productName : List UInt8) (inputs : List Input) : UpgradePackBuilder :=
  { headerInfo := { productName := productName, productVersion := [0x31], componentName := [], componentVersion := 0 }
    inputs := inputs
    signer := signerNone }

/-- The pack, and nothing else, in flash. -/
def burned (b : UpgradePackBuilder) : Memory := fun address => b.upgradePack.getD address blank

theorem stored_burned {b : UpgradePackBuilder} (hlt : b.upgradePack.length < 2 ^ 32) : b.Stored (burned b) := by
  constructor
  · refine List.ext_getElem (length_read _ _ _) fun n hn hn' => ?_
    simp [NorMemory.read, burned, hn']
  · exact hlt

theorem stored_packFor {productName : List UInt8} {inputs : List Input}
    (hlt : (inputs.flatMap Input.image).length < 2 ^ 16) :
    (packFor productName inputs).Stored (burned (packFor productName inputs)) := by
  apply stored_burned
  rw [UpgradePackBuilder.length_upgradePack, UpgradePackBuilder.length_signedContents]
  show 16 + (0 + (204 + (inputs.flatMap Input.image).length)) < 2 ^ 32
  omega

end EmbeddedInfra.Upgrade
