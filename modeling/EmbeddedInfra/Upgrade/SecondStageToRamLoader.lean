import EmbeddedInfra.Upgrade.Decryptor
import EmbeddedInfra.Upgrade.StoredPack

set_option autoImplicit false

/-! # Loading the second stage

`application::SecondStageToRamLoader` looks in an upgrade pack for the image named `boot2nd` and loads it.
It finds the images as the pack builder has put them down, one after the other, as long as it does not
come across a second stage that it cannot load: from there on it reads at the wrong place.
-/

namespace EmbeddedInfra.Upgrade

open NorMemory

/-! ## The loader -/

namespace SecondStageToRamLoader

/-- `"boot2nd"` -/
def boot2nd : List UInt8 := [0x62, 0x6f, 0x6f, 0x74, 0x32, 0x6e, 0x64]

variable {S : Type}

structure Loading (S : Type) where
  address : Nat
  ram : List UInt8
  decryptor : S

/-- What is left of the length when the headers are taken off, in an `uint32_t`. -/
def imageSize (d : Decryptor S) (imageHeader : ImageHeaderPrologue) : Nat :=
  sub32 (sub32 (sub32 imageHeader.lengthOfHeaderAndImage.toNat 16) d.stateSize) 8

/-- The image at an address is the second stage, and its header has been read. -/
def loadSecondStage (d : Decryptor S) (flash : Memory) (imageHeader : ImageHeaderPrologue) (l : Loading S) :
    Bool × Loading S :=
  let decryptor := d.reset l.decryptor (read flash l.address d.stateSize)
  let epilogueAddress := add32 l.address d.stateSize
  let epilogue := d.decryptPart decryptor (read flash epilogueAddress 8)
  let address := add32 epilogueAddress 8
  if imageSize d imageHeader > l.ram.length then
    (false, { address := address, ram := l.ram, decryptor := epilogue.2 })
  else
    let image := d.decryptAndAuthenticate epilogue.2 (read flash address (imageSize d imageHeader))
    (image.1.2,
      { address := address, ram := image.1.1 ++ l.ram.drop (imageSize d imageHeader), decryptor := image.2 })

def tryLoadImage (d : Decryptor S) (flash : Memory) (l : Loading S) : Bool × Loading S :=
  let imageHeader := ImageHeaderPrologue.ofBytes (read flash l.address 16)
  if strncmpEqual imageHeader.targetName boot2nd 8 then
    loadSecondStage d flash imageHeader { l with address := add32 l.address 16 }
  else (false, { l with address := add32 l.address imageHeader.lengthOfHeaderAndImage.toNat })

/-- The loop over the images. -/
def tryLoadImages (d : Decryptor S) (flash : Memory) : Nat → Loading S → Bool × Loading S
  | 0, l => (false, l)
  | n + 1, l =>
      if (tryLoadImage d flash l).1 then tryLoadImage d flash l
      else tryLoadImages d flash n (tryLoadImage d flash l).2

/-- What is left behind by `Load`. -/
structure Result where
  loaded : Bool
  ram : List UInt8
  flash : Memory

def sanity (override : Bool) (prologue : UpgradePackHeaderPrologue) : Bool :=
  (override || prologue.status = UpgradePackStatus.readyToDeploy.toByte ||
    prologue.status = UpgradePackStatus.deployStarted.toByte) && prologue.magic = upgradePackMagic

/-- What is looked at after the prologue. The verifier is given the signature and what is signed. -/
def loadContents (product : List UInt8) (d : Decryptor S) (s : S) (verifier : List UInt8 → List UInt8 → Bool)
    (flash : Memory) (ram : List UInt8) (prologue : UpgradePackHeaderPrologue) : Result :=
  let contents := add32 16 prologue.signatureLength.toNat
  let epilogue := UpgradePackHeaderEpilogue.ofBytes (read flash contents 204)
  if epilogue.headerVersion ≠ 1 then
    { loaded := false, ram := ram, flash := markAsError flash upgradeErrorCodeUnknownHeaderVersion }
  else if ¬ strcmpEqual product epilogue.fromProductName then
    { loaded := false, ram := ram, flash := markAsError flash upgradeErrorCodeUnknownProductName }
  else if ¬ verifier (read flash 16 prologue.signatureLength.toNat)
      (read flash contents prologue.signedContentsLength.toNat) then
    { loaded := false, ram := ram, flash := markAsError flash upgradeErrorCodeInvalidSignature }
  else
    let images := tryLoadImages d flash epilogue.numberOfImages.toNat
      { address := add32 contents 204, ram := ram, decryptor := s }
    if images.1 then { loaded := true, ram := images.2.ram, flash := flash }
    else
      { loaded := false, ram := images.2.ram
        flash := markAsError flash upgradeErrorCodeNoOrIncorrectSecondStageFound }

def load (product : List UInt8) (d : Decryptor S) (s : S) (verifier : List UInt8 → List UInt8 → Bool)
    (override : Bool) (flash : Memory) (ram : List UInt8) : Result :=
  let prologue := UpgradePackHeaderPrologue.ofBytes (read flash 0 16)
  if ¬ sanity override prologue then { loaded := false, ram := ram, flash := flash }
  else loadContents product d s verifier flash ram prologue

/-! ## Images of the pack builder -/

/-- The input is the second stage. -/
def Named (i : InputBinary) : Prop := cString i.targetName = boot2nd

instance (i : InputBinary) : Decidable (Named i) := inferInstanceAs (Decidable (_ = _))

/-- What becomes of the image when it is decrypted, and whether it is authentic. -/
def opened (d : Decryptor S) (s : S) (i : InputBinary) : List UInt8 × Bool :=
  (d.decryptAndAuthenticate
    (d.decryptPart (d.reset s (i.encryptedImage.take d.stateSize)) (slice i.encryptedImage d.stateSize 8)).2
    (i.encryptedImage.drop (d.stateSize + 8))).1

/-- The decrypted image fits the ram and authenticates. -/
def Loadable (d : Decryptor S) (s : S) (ram : List UInt8) (i : InputBinary) : Prop :=
  (opened d s i).1.length ≤ ram.length ∧ (opened d s i).2 = true

instance (d : Decryptor S) (s : S) (ram : List UInt8) (i : InputBinary) : Decidable (Loadable d s ram i) :=
  inferInstanceAs (Decidable (_ ∧ _))

/-- The image has been encrypted for the decryptor: it has a state and a header, and what is decrypted starts
with the bytes of the image. -/
structure Matches (d : Decryptor S) (s : S) (i : InputBinary) : Prop where
  size_le : d.stateSize + 8 ≤ i.encryptedImage.length
  contents_prefix : i.contents <+: (opened d s i).1

section Images

variable {d : Decryptor S} {flash : Memory} {l : Loading S} {i : InputBinary}

theorem length_opened (s : S) : (opened d s i).1.length = i.encryptedImage.length - (d.stateSize + 8) := by
  rw [opened, d.length_decryptAndAuthenticate, List.length_drop]

/-- The loader goes over an image with another name. -/
theorem tryLoadImage_other (h : HasImageAt flash l.address i) (hother : ¬ Named i) :
    tryLoadImage d flash l = (false, { l with address := l.address + i.image.length }) := by
  have hname : strncmpEqual i.header.targetName boot2nd 8 = false := by
    have heq : strncmpEqual i.header.targetName boot2nd 8 = _ := i.strncmpEqual_targetNameArray boot2nd
    rw [heq]
    exact decide_eq_false hother
  simp only [tryLoadImage, h.header_eq, hname, h.length_eq]
  rw [add32_of_lt h.address_lt]
  rfl

theorem imageSize_eq (h : HasImageAt flash l.address i) (hmatches : Matches d l.decryptor i) :
    imageSize d i.header = (opened d l.decryptor i).1.length := by
  have hlt := h.address_lt
  have hlen := i.length_image
  have hsize := hmatches.size_le
  have hfirst : sub32 i.image.length 16 = i.image.length - 16 := sub32_of_le (by omega) (by omega)
  have hsecond : sub32 (i.image.length - 16) d.stateSize = i.image.length - 16 - d.stateSize :=
    sub32_of_le (by omega) (by omega)
  have hthird : sub32 (i.image.length - 16 - d.stateSize) 8 = i.image.length - 16 - d.stateSize - 8 :=
    sub32_of_le (by omega) (by omega)
  rw [imageSize, h.length_eq, length_opened, hfirst, hsecond, hthird]
  omega

/-- The second stage is loaded if it can be. -/
theorem tryLoadImage_named (h : HasImageAt flash l.address i) (hname : Named i) (hmatches : Matches d l.decryptor i) :
    (tryLoadImage d flash l).1 = decide (Loadable d l.decryptor l.ram i) ∧
      (Loadable d l.decryptor l.ram i → i.contents <+: (tryLoadImage d flash l).2.ram) := by
  have hlt := h.address_lt
  have hlen := i.length_image
  have hsize := hmatches.size_le
  have hfind : strncmpEqual i.header.targetName boot2nd 8 = true := by
    have heq : strncmpEqual i.header.targetName boot2nd 8 = _ := i.strncmpEqual_targetNameArray boot2nd
    rw [heq]
    exact decide_eq_true hname
  obtain ⟨hstate, hepilogue, hbody⟩ := h.read_parts hsize
  have hload : tryLoadImage d flash l =
      if (opened d l.decryptor i).1.length > l.ram.length then
        (false, { address := l.address + 16 + d.stateSize + 8, ram := l.ram,
                  decryptor := (d.decryptPart (d.reset l.decryptor (i.encryptedImage.take d.stateSize))
                    (slice i.encryptedImage d.stateSize 8)).2 })
      else
        ((opened d l.decryptor i).2,
          { address := l.address + 16 + d.stateSize + 8,
            ram := (opened d l.decryptor i).1 ++ l.ram.drop (opened d l.decryptor i).1.length,
            decryptor := (d.decryptAndAuthenticate (d.decryptPart (d.reset l.decryptor
              (i.encryptedImage.take d.stateSize)) (slice i.encryptedImage d.stateSize 8)).2
              (i.encryptedImage.drop (d.stateSize + 8))).2 }) := by
    simp only [tryLoadImage, h.header_eq, hfind, if_true, loadSecondStage, imageSize_eq h hmatches, length_opened]
    rw [add32_of_lt (show l.address + 16 < 2 ^ 32 by omega), hstate,
      add32_of_lt (show l.address + 16 + d.stateSize < 2 ^ 32 by omega), hepilogue,
      add32_of_lt (show l.address + 16 + d.stateSize + 8 < 2 ^ 32 by omega), hbody]
    rfl
  rw [hload]
  by_cases hfits : (opened d l.decryptor i).1.length > l.ram.length
  · have hnot : ¬ Loadable d l.decryptor l.ram i := fun hl => absurd hl.1 (by omega)
    rw [if_pos hfits]
    exact ⟨(decide_eq_false hnot).symm, fun hl => absurd hl hnot⟩
  · rw [if_neg hfits]
    have hiff : Loadable d l.decryptor l.ram i ↔ (opened d l.decryptor i).2 = true := by
      simp only [Loadable]
      constructor
      · exact fun hl => hl.2
      · exact fun hl => ⟨by omega, hl⟩
    refine ⟨?_, fun _ => hmatches.contents_prefix.trans (List.prefix_append _ _)⟩
    rw [Bool.eq_iff_iff, decide_eq_true_eq]
    exact hiff.symm

/-- The first image that is named `boot2nd` can be loaded, or it is the last image. -/
def FirstDecides (d : Decryptor S) (s : S) (ram : List UInt8) : List Input → Prop
  | [] => True
  | input :: later =>
      if Named input.inputBinary then Loadable d s ram input.inputBinary ∨ later = [] else FirstDecides d s ram later

/-- The loop over the images finds the second stage. -/
theorem tryLoadImages_spec {inputs : List Input} (h : HasImagesAt flash l.address inputs)
    (hmatches : ∀ input ∈ inputs, Named input.inputBinary → Matches d l.decryptor input.inputBinary)
    (hfirst : FirstDecides d l.decryptor l.ram inputs) :
    ((tryLoadImages d flash inputs.length l).1 = true ↔
        ∃ input ∈ inputs, Named input.inputBinary ∧ Loadable d l.decryptor l.ram input.inputBinary) ∧
      ((tryLoadImages d flash inputs.length l).1 = true →
        ∃ input ∈ inputs, Named input.inputBinary ∧ Loadable d l.decryptor l.ram input.inputBinary ∧
          input.inputBinary.contents <+: (tryLoadImages d flash inputs.length l).2.ram) := by
  induction inputs generalizing l with
  | nil => simp [tryLoadImages]
  | cons input inputs ih =>
      obtain ⟨hhere, hrest⟩ := h.cons
      rw [FirstDecides] at hfirst
      rw [List.length_cons, tryLoadImages]
      by_cases hname : Named input.inputBinary
      · obtain ⟨hload, hram⟩ := tryLoadImage_named hhere hname (hmatches input List.mem_cons_self hname)
        rw [if_pos hname] at hfirst
        by_cases hloadable : Loadable d l.decryptor l.ram input.inputBinary
        · rw [decide_eq_true hloadable] at hload
          rw [if_pos hload]
          refine ⟨⟨fun _ => ⟨input, List.mem_cons_self, hname, hloadable⟩, fun _ => hload⟩, fun _ => ?_⟩
          exact ⟨input, List.mem_cons_self, hname, hloadable, hram hloadable⟩
        · obtain rfl := hfirst.resolve_left hloadable
          rw [decide_eq_false hloadable] at hload
          simp [hload, tryLoadImages, hloadable]
      · rw [if_neg hname] at hfirst
        have hstep := @tryLoadImage_other S d flash l _ hhere hname
        have hnext := @ih { l with address := l.address + input.image.length } hrest
          (fun j hj => hmatches j (List.mem_cons_of_mem _ hj)) hfirst
        rw [hstep, if_neg (by simp)]
        simp only [List.mem_cons, exists_eq_or_imp, hname, false_and, false_or]
        exact hnext

end Images

/-! ## Packs of the pack builder -/

/-- No later `Load` accepts what is in flash, unless the status is overridden. -/
def Rejected (flash : Memory) : Prop :=
  ∀ (T : Type) product (d : Decryptor T) (s : T) verifier ram, (load product d s verifier false flash ram).loaded = false

/-- The loader agrees with the pack builder: it loads exactly when there is a second stage to load, and then the
ram starts with the bytes of one; else the pack has an error status. -/
def Agrees (b : UpgradePackBuilder) (d : Decryptor S) (s : S) (ram : List UInt8) (r : Result) : Prop :=
  (r.loaded = true ↔ ∃ input ∈ b.inputs, Named input.inputBinary ∧ Loadable d s ram input.inputBinary) ∧
    (r.loaded = true → ∃ input ∈ b.inputs, Named input.inputBinary ∧ Loadable d s ram input.inputBinary ∧
      input.inputBinary.contents <+: r.ram) ∧
    (r.loaded = false → Rejected r.flash)

section Pack

variable {b : UpgradePackBuilder} {d : Decryptor S} {s : S} {flash : Memory} {ram : List UInt8}
  {verifier : List UInt8 → List UInt8 → Bool} {product : List UInt8} {override : Bool}

/-- An error status is not one that is accepted. -/
theorem rejected_markAsError (hstatus : flash 0 = UpgradePackStatus.readyToDeploy.toByte) (errorCode : UInt32) :
    Rejected (markAsError flash errorCode) := by
  intro T product d s verifier ram
  have hbyte : markAsError flash errorCode 0 = 0x7c := by
    simp only [markAsError, program, length_bytes32, List.length_singleton]
    rw [if_neg (by omega), if_pos (by omega), hstatus]
    decide
  have hprologue : (UpgradePackHeaderPrologue.ofBytes (read (markAsError flash errorCode) 0 16)).status = 0x7c :=
    hbyte
  have hinsane : sanity false (UpgradePackHeaderPrologue.ofBytes (read (markAsError flash errorCode) 0 16)) = false := by
    simp [sanity, hprologue, UpgradePackStatus.toByte]
  simp only [load, hinsane]
  rfl

variable (h : b.Stored flash) (hverifier : verifier b.signature b.signedContents = true)
include h

include hverifier

/-- What the loader does with a pack that is stored. -/
theorem load_stored : load product d s verifier override flash ram =
    if strcmpEqual product b.epilogue.fromProductName then
      let images := tryLoadImages d flash b.inputs.length
        { address := 16 + b.signature.length + 204, ram := ram, decryptor := s }
      if images.1 then { loaded := true, ram := images.2.ram, flash := flash }
      else
        { loaded := false, ram := images.2.ram
          flash := markAsError flash upgradeErrorCodeNoOrIncorrectSecondStageFound }
    else { loaded := false, ram := ram, flash := markAsError flash upgradeErrorCodeUnknownProductName } := by
  have hsane : sanity override b.prologue = true := by
    simp [sanity, UpgradePackBuilder.prologue]
  have hversion : b.epilogue.headerVersion = 1 := rfl
  simp only [load, h.prologue_eq, hsane, not_true_eq_false, if_false, loadContents, h.contents_eq, h.epilogue_eq,
    h.images_eq, h.numberOfImages_toNat, hversion, ne_eq, b.signatureLength_toNat, h.read_signature,
    h.signedContentsLength_toNat, h.read_signedContents, hverifier]
  by_cases hproduct : strcmpEqual product b.epilogue.fromProductName = true
  · simp [hproduct]
  · simp [hproduct]

/-- The loader agrees with the pack builder, as long as the product name ends inside its array and no image
follows a second stage that cannot be loaded. -/
theorem agrees_of_firstDecides
    (hmatches : ∀ input ∈ b.inputs, Named input.inputBinary → Matches d s input.inputBinary)
    (hname : (cString b.headerInfo.productName).length < 64) (hfirst : FirstDecides d s ram b.inputs) :
    Agrees b d s ram (load b.headerInfo.productName d s verifier override flash ram) := by
  have hproduct : strcmpEqual b.headerInfo.productName b.epilogue.fromProductName = true :=
    strcmpEqual_assignZeroFilled hname
  obtain ⟨hiff, hram⟩ := @tryLoadImages_spec S d flash
    { address := 16 + b.signature.length + 204, ram := ram, decryptor := s } b.inputs h.hasImages hmatches hfirst
  rw [load_stored h hverifier, if_pos hproduct]
  cases himages : (tryLoadImages d flash b.inputs.length
      { address := 16 + b.signature.length + 204, ram := ram, decryptor := s }).1 with
  | true =>
      rw [himages] at hiff hram
      simp only [himages, if_true]
      exact ⟨hiff, hram, fun hfalse => absurd hfalse (by simp)⟩
  | false =>
      rw [himages] at hiff
      simp only [himages, Bool.false_eq_true, if_false]
      exact ⟨hiff, fun htrue => absurd htrue (by simp), fun _ => rejected_markAsError h.status_eq _⟩

end Pack

/-! ## Some packs -/

/-- A second stage that is not encrypted. -/
def secondStage (contents : List UInt8) : Input :=
  .binary
    { targetName := boot2nd, targetName_le := by decide, destinationAddress := 0, contents := contents
      imageSecurity := imageEncryptorNone }

theorem matches_secondStage (contents : List UInt8) : Matches decryptorNone () (secondStage contents).inputBinary := by
  have hopened : (opened decryptorNone () (secondStage contents).inputBinary).1 = contents := rfl
  refine ⟨?_, ?_⟩
  · show 0 + 8 ≤ (InputBinary.unencryptedImage _).length
    rw [InputBinary.unencryptedImage, List.length_append, ImageHeaderEpilogue.length_bytes]
    omega
  · rw [hopened]
    exact List.prefix_refl contents

theorem agrees_of_firstDecides_one :
    Agrees (packFor [0x41] [secondStage [1, 2]]) decryptorNone () [0, 0, 0]
      (load [0x41] decryptorNone () (fun _ _ => true) false (burned (packFor [0x41] [secondStage [1, 2]])) [0, 0, 0]) := by
  refine agrees_of_firstDecides (stored_packFor (by decide)) rfl ?_ (by decide) ?_
  · intro input hinput _
    obtain rfl := List.mem_singleton.mp hinput
    exact matches_secondStage _
  · exact Or.inl (by decide)

/-- A product name that fills its array. -/
def longName : List UInt8 := List.replicate 64 0x41

/-- A second stage that does not fit, and one that does. -/
def twoStages : UpgradePackBuilder := packFor [0x41] [secondStage [1, 2, 3, 4], secondStage [9]]

/-- The version behind the product name is taken for a part of it; after a second stage that does not fit, the
loader goes on inside of it. -/
theorem not_agrees_longName_twoStages :
    ¬ Agrees (packFor longName [secondStage [1, 2]]) decryptorNone () [0, 0, 0]
      (load longName decryptorNone () (fun _ _ => true) false (burned (packFor longName [secondStage [1, 2]]))
        [0, 0, 0]) ∧
    ¬ Agrees twoStages decryptorNone () [0]
      (load [0x41] decryptorNone () (fun _ _ => true) false (burned twoStages) [0]) := by
  constructor
  · have hproduct : strcmpEqual longName (packFor longName [secondStage [1, 2]]).epilogue.fromProductName = false := by
      decide
    rintro ⟨hiff, -, -⟩
    have hloaded := hiff.mpr ⟨_, List.mem_cons_self, by decide, by decide⟩
    rw [load_stored (stored_packFor (by decide)) rfl, if_neg (by rw [hproduct]; decide)] at hloaded
    exact absurd hloaded (by decide)
  · have hstored : twoStages.Stored (burned twoStages) := stored_packFor (by decide)
    have himages : (tryLoadImages decryptorNone (burned twoStages) twoStages.inputs.length
        { address := 16 + twoStages.signature.length + 204, ram := [0], decryptor := () }).1 = false := by
      decide +kernel
    rintro ⟨hiff, -, -⟩
    have hloaded := hiff.mpr ⟨_, List.mem_cons_of_mem _ List.mem_cons_self, by decide, by decide⟩
    rw [load_stored hstored rfl, if_pos (by decide)] at hloaded
    simp only [himages, Bool.false_eq_true, if_false] at hloaded

end SecondStageToRamLoader

end EmbeddedInfra.Upgrade
