import EmbeddedInfra.Upgrade.Decryptor
import EmbeddedInfra.Upgrade.StoredPack

set_option autoImplicit false

/-! # Upgrading from a pack

`application::PackUpgrader` goes over the images of an upgrade pack and hands each one to the upgrader with
its target name. `application::ImageUpgraderInternalFlash` erases the sectors of the destination and writes
the image there, through a buffer of any size. What the pack builder has been given is then in the target
flash (`upgradeFromImages_spec`).
-/

namespace EmbeddedInfra.Upgrade

open NorMemory

/-! ## The target flash -/

/-- The sectors of a `hal::SynchronousFlash`, which follow each other as the addresses do. -/
structure SynchronousFlash where
  sectorOfAddress : Nat → Nat
  monotone : ∀ {a b : Nat}, a ≤ b → sectorOfAddress a ≤ sectorOfAddress b
  totalSize : Nat
  totalSize_lt : totalSize < 2 ^ 32

namespace SynchronousFlash

def eraseSectors (f : SynchronousFlash) (m : Memory) (beginIndex endIndex : Nat) : Memory :=
  fun a => if beginIndex ≤ f.sectorOfAddress a ∧ f.sectorOfAddress a < endIndex then blank else m a

end SynchronousFlash

/-! ## The upgrader of an image -/

/-- `application::ImageUpgraderInternalFlash`. The decryptor is an object that other upgraders may use, too. -/
structure ImageUpgrader (S : Type) where
  targetName : List UInt8
  decryptor : Decryptor S
  object : Nat
  bufferSize : Nat
  bufferSize_pos : 0 < bufferSize
  destinationAddressOffset : UInt32

namespace ImageUpgrader

variable {S : Type} (u : ImageUpgrader S)

/-- The loop of `Upgrade`, with so many bytes to go. -/
def writeParts (pack : Memory) (s : S) (target : Memory) (imageAddress destinationAddress remaining : Nat) :
    Memory × S :=
  if remaining = 0 then (target, s)
  else
    let size := min u.bufferSize remaining
    let part := u.decryptor.decryptPart s (read pack imageAddress size)
    writeParts pack part.2 (program target destinationAddress part.1) (add32 imageAddress size)
      (add32 destinationAddress size) (remaining - size)
termination_by remaining
decreasing_by
  have := u.bufferSize_pos
  omega

/-- `destinationAddress += destinationAddressOffset` -/
def destination (destinationAddress : UInt32) : Nat :=
  add32 destinationAddress.toNat u.destinationAddressOffset.toNat

/-- `Upgrade`, which always returns zero. -/
def upgrade (f : SynchronousFlash) (pack : Memory) (s : S) (target : Memory) (imageAddress : Nat)
    (imageSize destinationAddress : UInt32) : UInt32 × (Memory × S) :=
  let destinationAddress := u.destination destinationAddress
  let erased := f.eraseSectors target (f.sectorOfAddress destinationAddress)
    (f.sectorOfAddress (sub32 (add32 destinationAddress imageSize.toNat) 1) + 1)
  (0, u.writeParts pack s erased imageAddress destinationAddress imageSize.toNat)

end ImageUpgrader

/-! ## What an upgrader writes -/

section Writes

variable {S : Type} {u : ImageUpgrader S} {f : SynchronousFlash} {pack target : Memory} {s : S}
  {imageAddress destinationAddress : Nat} {encrypted data : List UInt8}

/-- The loop decrypts the image into the destination, and leaves everything else. -/
theorem ImageUpgrader.writeParts_spec (hread : read pack imageAddress encrypted.length = encrypted)
    (hdecrypts : u.decryptor.Decrypts s encrypted data) (hpack : imageAddress + encrypted.length < 2 ^ 32)
    (htarget : destinationAddress + encrypted.length < 2 ^ 32)
    (hblank : read target destinationAddress encrypted.length = List.replicate encrypted.length blank) :
    read (u.writeParts pack s target imageAddress destinationAddress encrypted.length).1 destinationAddress
        encrypted.length = data ∧
      ∀ x, x < destinationAddress ∨ destinationAddress + encrypted.length ≤ x →
        (u.writeParts pack s target imageAddress destinationAddress encrypted.length).1 x = target x := by
  induction hn : encrypted.length using Nat.strong_induction_on generalizing encrypted data imageAddress
    destinationAddress s target with
  | _ n ih =>
      subst hn
      have hlength := hdecrypts.length
      by_cases hzero : encrypted.length = 0
      · rw [hzero, ImageUpgrader.writeParts, if_pos rfl]
        refine ⟨?_, fun _ _ => rfl⟩
        rw [hzero] at hlength
        rw [List.length_eq_zero_iff.mp hlength]
        rfl
      · have hpos := u.bufferSize_pos
        obtain ⟨size, hsize⟩ : ∃ size, size = min u.bufferSize encrypted.length := ⟨_, rfl⟩
        have hle : size ≤ encrypted.length := by omega
        have hfirst : (encrypted.take size).length = size := by
          rw [List.length_take]
          omega
        have hrest : (encrypted.drop size).length = encrypted.length - size := List.length_drop
        -- the pack has the part and what follows it
        have hsplit : read pack imageAddress encrypted.length = encrypted.take size ++ encrypted.drop size := by
          rw [List.take_append_drop, hread]
        have hreadFirst : read pack imageAddress size = encrypted.take size := by
          have := read_front hsplit
          rwa [hfirst] at this
        have hreadRest : read pack (imageAddress + size) (encrypted.drop size).length = encrypted.drop size := by
          have := read_behind hsplit
          rwa [hfirst] at this
        obtain ⟨hpart, hlater⟩ := Decryptor.Decrypts.part ((List.take_append_drop size encrypted).symm ▸ hdecrypts)
        rw [hfirst] at hpart hlater
        have hpartLength : (u.decryptor.decryptPart s (encrypted.take size)).1.length = size := by
          rw [u.decryptor.length_decryptPart, hfirst]
        -- the target is blank where the part goes, and behind it
        have hblanks : read target destinationAddress size = List.replicate size blank ∧
            read target (destinationAddress + size) (encrypted.length - size) =
              List.replicate (encrypted.length - size) blank := by
          have hsum : encrypted.length = size + (encrypted.length - size) := by omega
          rw [hsum, read_add, List.replicate_add] at hblank
          exact List.append_inj hblank (by simp)
        have hblankRest : read (program target destinationAddress (u.decryptor.decryptPart s (encrypted.take size)).1)
            (destinationAddress + size) (encrypted.drop size).length =
              List.replicate (encrypted.drop size).length blank := by
          rw [read_program_disjoint (by omega), hrest, hblanks.2]
        have hwritten : read (program target destinationAddress (u.decryptor.decryptPart s (encrypted.take size)).1)
            destinationAddress size = data.take size := by
          have hself := read_program_self target destinationAddress (u.decryptor.decryptPart s (encrypted.take size)).1
          have hzip := zipWith_blank (u.decryptor.decryptPart s (encrypted.take size)).1
          rw [hpartLength] at hself hzip
          rw [hself, hblanks.1, hzip, hpart]
        obtain ⟨hdata, hframe⟩ := ih (encrypted.drop size).length (by omega) hreadRest hlater (by omega) (by omega)
          hblankRest rfl
        have hstep : u.writeParts pack s target imageAddress destinationAddress encrypted.length =
            u.writeParts pack (u.decryptor.decryptPart s (encrypted.take size)).2
              (program target destinationAddress (u.decryptor.decryptPart s (encrypted.take size)).1)
              (imageAddress + size) (destinationAddress + size) (encrypted.drop size).length := by
          rw [ImageUpgrader.writeParts, if_neg hzero, hrest]
          simp only [← hsize, hreadFirst]
          rw [add32_of_lt (by omega), add32_of_lt (by omega)]
        rw [hstep]
        have hsum : encrypted.length = size + (encrypted.drop size).length := by omega
        refine ⟨?_, fun x hx => ?_⟩
        · rw [hsum, read_add, hdata, read_congr (fun x _ hx => hframe x (Or.inl hx)), hwritten, List.take_append_drop]
        · rw [hframe x (by omega)]
          exact if_neg (by omega)

theorem ImageUpgrader.upgrade_spec {imageSize destination : UInt32} (hpos : 0 < encrypted.length)
    (hsize : imageSize.toNat = encrypted.length) (hread : read pack imageAddress encrypted.length = encrypted)
    (hdecrypts : u.decryptor.Decrypts s encrypted data) (hpack : imageAddress + encrypted.length < 2 ^ 32)
    (htarget : u.destination destination + encrypted.length < 2 ^ 32) :
    read (u.upgrade f pack s target imageAddress imageSize destination).2.1 (u.destination destination)
        encrypted.length = data ∧
      ∀ x, f.sectorOfAddress x < f.sectorOfAddress (u.destination destination) ∨
          f.sectorOfAddress (u.destination destination + encrypted.length - 1) < f.sectorOfAddress x →
        (u.upgrade f pack s target imageAddress imageSize destination).2.1 x = target x := by
  have hlast : sub32 (add32 (u.destination destination) encrypted.length) 1 =
      u.destination destination + encrypted.length - 1 := by
    rw [add32_of_lt htarget, sub32_of_le (by omega) htarget]
  have hblank : read (f.eraseSectors target (f.sectorOfAddress (u.destination destination))
      (f.sectorOfAddress (u.destination destination + encrypted.length - 1) + 1)) (u.destination destination)
        encrypted.length = List.replicate encrypted.length blank := by
    refine List.ext_getElem (by simp) fun n hn _ => ?_
    rw [length_read] at hn
    have hfrom := @SynchronousFlash.monotone f (u.destination destination) (u.destination destination + n) (by omega)
    have hto := @SynchronousFlash.monotone f (u.destination destination + n)
      (u.destination destination + encrypted.length - 1) (by omega)
    simp only [NorMemory.read, SynchronousFlash.eraseSectors, List.getElem_map, List.getElem_range,
      List.getElem_replicate]
    exact if_pos (by omega)
  obtain ⟨hdata, hframe⟩ := @writeParts_spec S u pack _ s imageAddress _ encrypted data hread hdecrypts hpack htarget hblank
  simp only [upgrade, hsize, hlast]
  refine ⟨hdata, fun x hx => ?_⟩
  rw [hframe x]
  · exact if_neg (by omega)
  · by_contra hin
    have hfrom := @SynchronousFlash.monotone f (u.destination destination) x (by omega)
    have hto := @SynchronousFlash.monotone f x (u.destination destination + encrypted.length - 1) (by omega)
    omega

end Writes

/-! ## The upgrader of a pack -/

/-- A call of an image upgrader. -/
structure Visit where
  targetName : List UInt8
  imageSize : UInt32
  destinationAddress : UInt32
  deriving DecidableEq, Repr

/-- The flashes, the decryptors, and which images have been visited. -/
structure Upgrading (S : Type) where
  address : Nat
  pack : Memory
  target : Memory
  decryptors : Nat → S
  visits : List Visit

namespace PackUpgrader

variable {S : Type} (f : SynchronousFlash) (imageUpgraders : List (ImageUpgrader S))

/-- `std::strncmp(imageHeader.targetName.data(), imageUpgrader->TargetName(), imageHeader.targetName.size()) == 0` -/
def isFor (imageHeader : ImageHeaderPrologue) (u : ImageUpgrader S) : Bool :=
  strncmpEqual imageHeader.targetName u.targetName 8

/-- An upgrader has been found for an image. -/
def upgradeImage (u : ImageUpgrader S) (imageHeader : ImageHeaderPrologue) (imageAddress : Nat) (g : Upgrading S) :
    Bool × Upgrading S :=
  let stateAddress := add32 imageAddress 16
  let decryptor := u.decryptor.reset (g.decryptors u.object) (read g.pack stateAddress u.decryptor.stateSize)
  let epilogueAddress := add32 stateAddress u.decryptor.stateSize
  let part := u.decryptor.decryptPart decryptor (read g.pack epilogueAddress 8)
  let epilogue := ImageHeaderEpilogue.ofBytes part.1
  let result := u.upgrade f g.pack part.2 g.target (add32 epilogueAddress 8) epilogue.imageSize
    epilogue.destinationAddress
  let upgraded : Upgrading S :=
    { g with
      target := result.2.1
      decryptors := Function.update g.decryptors u.object result.2.2
      visits := g.visits ++ [{ targetName := imageHeader.targetName, imageSize := epilogue.imageSize,
                               destinationAddress := epilogue.destinationAddress }] }
  if result.1 ≠ 0 then (false, { upgraded with pack := markAsError g.pack result.1 }) else (true, upgraded)

def tryUpgradeImage (g : Upgrading S) : Bool × Upgrading S :=
  let imageHeader := ImageHeaderPrologue.ofBytes (read g.pack g.address 16)
  let next := { g with address := add32 g.address imageHeader.lengthOfHeaderAndImage.toNat }
  match imageUpgraders.find? (isFor imageHeader) with
  | some u => upgradeImage f u imageHeader g.address next
  | none => (false, { next with pack := markAsError g.pack upgradeErrorCodeNoSuitableImageUpgraderFound })

/-- The loop over the images. -/
def tryUpgradeImages : Nat → Upgrading S → Bool × Upgrading S
  | 0, g => (true, g)
  | n + 1, g =>
      if (tryUpgradeImage f imageUpgraders g).1 then tryUpgradeImages n (tryUpgradeImage f imageUpgraders g).2
      else tryUpgradeImage f imageUpgraders g

def markAsDeployStarted (pack : Memory) : Memory := program pack 0 [UpgradePackStatus.deployStarted.toByte]

def markAsDeployed (pack : Memory) : Memory := program pack 0 [UpgradePackStatus.deployed.toByte]

/-- `UpgradeFromImages`, of an upgrader that has just been made. -/
def upgradeFromImages (pack target : Memory) (decryptors : Nat → S) : Upgrading S :=
  let prologue := UpgradePackHeaderPrologue.ofBytes (read pack 0 16)
  let start : Upgrading S := { address := 16, pack := pack, target := target, decryptors := decryptors, visits := [] }
  if prologue.magic ≠ upgradePackMagic then start
  else
    let contents := add32 16 prologue.signatureLength.toNat
    let started := { start with address := add32 contents 204, pack := markAsDeployStarted pack }
    let epilogue := UpgradePackHeaderEpilogue.ofBytes (read started.pack contents 204)
    if epilogue.headerVersion ≠ 1 then
      { started with pack := markAsError started.pack upgradeErrorCodeUnknownHeaderVersion }
    else
      let images := tryUpgradeImages f imageUpgraders epilogue.numberOfImages.toNat started
      if images.1 then { images.2 with pack := markAsDeployed images.2.pack } else images.2

/-- `IsImage` and the address of the next image. -/
def isImage (pack : Memory) (imageAddress : Nat) (imageName : List UInt8) : Bool × Nat :=
  let imageHeader := ImageHeaderPrologue.ofBytes (read pack imageAddress 16)
  (strncmpEqual imageHeader.targetName imageName 8, add32 imageAddress imageHeader.lengthOfHeaderAndImage.toNat)

/-- The loop of `HasImage`. -/
def hasImageFrom (pack : Memory) (imageName : List UInt8) : Nat → Nat → Bool
  | 0, _ => false
  | n + 1, imageAddress =>
      if (isImage pack imageAddress imageName).1 then true
      else hasImageFrom pack imageName n (isImage pack imageAddress imageName).2

def hasImage (pack : Memory) (imageName : List UInt8) : Bool :=
  let prologue := UpgradePackHeaderPrologue.ofBytes (read pack 0 16)
  let contents := add32 16 prologue.signatureLength.toNat
  let epilogue := UpgradePackHeaderEpilogue.ofBytes (read pack contents 204)
  hasImageFrom pack imageName epilogue.numberOfImages.toNat (add32 contents 204)

/-! ## One image -/

/-- The visit of the image of an input. -/
def visit (i : InputBinary) : Visit :=
  { targetName := i.targetNameArray
    imageSize := UInt32.ofNat i.contents.length
    destinationAddress := i.destinationAddress }

/-- Where the image of an input goes, which depends on the upgrader that is found for it. -/
def destinationOf (imageUpgraders : List (ImageUpgrader S)) (i : InputBinary) : Nat :=
  ((imageUpgraders.find? (isFor i.header)).map fun u => u.destination i.destinationAddress).getD 0

/-- An address outside the sectors of a range. -/
def Apart (f : SynchronousFlash) (x destination size : Nat) : Prop :=
  f.sectorOfAddress x < f.sectorOfAddress destination ∨ f.sectorOfAddress (destination + size - 1) < f.sectorOfAddress x

section Image

variable {f imageUpgraders} {u : ImageUpgrader S} {i : InputBinary} {g : Upgrading S} {address : Nat}

/-- The image is in its destination, and the rest of the target is as it was. -/
structure Written (f : SynchronousFlash) (before after : Upgrading S) (i : InputBinary) (destination : Nat) : Prop where
  pack_eq : after.pack = before.pack
  visits_eq : after.visits = before.visits ++ [visit i]
  read_eq : read after.target destination i.contents.length = i.contents
  frame : ∀ x, Apart f x destination i.contents.length → after.target x = before.target x

/-- What the encrypted image consists of: the state, and the header and the image, which are decrypted in this
order. -/
theorem encryptedImage_parts {d : Decryptor S} (hopens : d.Opens i.imageSecurity) (s : S) :
    ∃ state front rest, i.encryptedImage = state ++ (front ++ rest) ∧ state.length = d.stateSize ∧ front.length = 8 ∧
      rest.length = i.contents.length ∧
      (ImageHeaderEpilogue.ofBytes (d.decryptPart (d.reset s state) front).1).imageSize =
        UInt32.ofNat i.contents.length ∧
      (ImageHeaderEpilogue.ofBytes (d.decryptPart (d.reset s state) front).1).destinationAddress =
        i.destinationAddress ∧
      d.Decrypts (d.decryptPart (d.reset s state) front).2 rest i.contents := by
  obtain ⟨state, encrypted, hsecure, hstate, hlen, hdecrypts⟩ := hopens s i.unencryptedImage
  obtain ⟨header, hheader⟩ : ∃ header : ImageHeaderEpilogue,
      header = { destinationAddress := i.destinationAddress, imageSize := UInt32.ofNat i.contents.length } := ⟨_, rfl⟩
  have hplain : i.unencryptedImage = header.bytes ++ i.contents := by rw [hheader, InputBinary.unencryptedImage]
  have hheaderLength := header.length_bytes
  have hencrypted : encrypted.length = 8 + i.contents.length := by
    rw [hlen, hplain, List.length_append, hheaderLength]
  have hfront : (encrypted.take 8).length = header.bytes.length := by
    rw [List.length_take, hheaderLength]
    omega
  obtain ⟨hpart, hlater⟩ := Decryptor.Decrypts.part ((List.take_append_drop 8 encrypted).symm ▸ hdecrypts)
  rw [hfront, hplain, List.take_left] at hpart
  rw [hfront, hplain, List.drop_left] at hlater
  refine ⟨state, encrypted.take 8, encrypted.drop 8, ?_, hstate, hfront.trans hheaderLength, ?_, ?_, ?_, hlater⟩
  · rw [List.take_append_drop]
    exact hsecure
  · rw [List.length_drop]
    omega
  · rw [hpart, ImageHeaderEpilogue.ofBytes_bytes, hheader]
  · rw [hpart, ImageHeaderEpilogue.ofBytes_bytes, hheader]

theorem upgradeImage_spec (h : HasImageAt g.pack address i) (hopens : u.decryptor.Opens i.imageSecurity)
    (hne : i.contents ≠ []) (hfits : u.destination i.destinationAddress + i.contents.length < 2 ^ 32) :
    (upgradeImage f u i.header address g).1 = true ∧
      (upgradeImage f u i.header address g).2.address = g.address ∧
      Written f g (upgradeImage f u i.header address g).2 i (u.destination i.destinationAddress) := by
  obtain ⟨state, front, rest, hsplit, hstate, hfront, hrest, hsize, hdestination, hdecrypts⟩ :=
    encryptedImage_parts hopens (g.decryptors u.object)
  have himage := i.length_image
  rw [hsplit, List.length_append, List.length_append, hstate, hfront, hrest] at himage
  have hlt := h.address_lt
  -- the three parts are read one after the other
  have hread := h.read_encryptedImage.trans hsplit
  have hreadState : read g.pack (address + 16) u.decryptor.stateSize = state := hstate ▸ read_front hread
  have hreadBehind : read g.pack (address + 16 + u.decryptor.stateSize) (front ++ rest).length = front ++ rest :=
    hstate ▸ read_behind hread
  have hreadFront : read g.pack (address + 16 + u.decryptor.stateSize) 8 = front := hfront ▸ read_front hreadBehind
  have hreadRest : read g.pack (address + 16 + u.decryptor.stateSize + 8) rest.length = rest :=
    hfront ▸ read_behind hreadBehind
  have hpos : 0 < rest.length := by
    rw [hrest]
    exact List.length_pos_iff.mpr hne
  have hsize32 : (UInt32.ofNat i.contents.length).toNat = rest.length := by
    rw [hrest]
    exact UInt32.toNat_ofNat_of_lt' (show _ < 2 ^ 32 by omega)
  obtain ⟨hdata, hframe⟩ := @ImageUpgrader.upgrade_spec S u f g.pack g.target _ _ _ _
    (UInt32.ofNat i.contents.length) i.destinationAddress hpos hsize32 hreadRest hdecrypts (by omega)
    (by rw [hrest]; exact hfits)
  rw [hrest] at hdata hframe
  simp only [upgradeImage]
  rw [add32_of_lt (show address + 16 < 2 ^ 32 by omega), hreadState,
    add32_of_lt (show address + 16 + u.decryptor.stateSize < 2 ^ 32 by omega), hreadFront,
    add32_of_lt (show address + 16 + u.decryptor.stateSize + 8 < 2 ^ 32 by omega), hsize, hdestination]
  exact ⟨rfl, rfl, rfl, rfl, hdata, hframe⟩

theorem tryUpgradeImage_spec (h : HasImageAt g.pack g.address i) (hfind : imageUpgraders.find? (isFor i.header) = some u)
    (hopens : u.decryptor.Opens i.imageSecurity) (hne : i.contents ≠ [])
    (hfits : u.destination i.destinationAddress + i.contents.length < 2 ^ 32) :
    (tryUpgradeImage f imageUpgraders g).1 = true ∧
      (tryUpgradeImage f imageUpgraders g).2.address = g.address + i.image.length ∧
      Written f g (tryUpgradeImage f imageUpgraders g).2 i (u.destination i.destinationAddress) := by
  have hstep : tryUpgradeImage f imageUpgraders g =
      upgradeImage f u i.header g.address { g with address := g.address + i.image.length } := by
    simp only [tryUpgradeImage, h.header_eq, hfind, h.length_eq]
    rw [add32_of_lt h.address_lt]
  obtain ⟨htrue, haddress, hwritten⟩ :=
    @upgradeImage_spec S f u i { g with address := g.address + i.image.length } g.address h hopens hne hfits
  rw [hstep]
  exact ⟨htrue, haddress, hwritten.pack_eq, hwritten.visits_eq, hwritten.read_eq, hwritten.frame⟩

end Image

/-! ## All images -/

/-- No sector has addresses of both ranges. -/
def DisjointSectors (f : SynchronousFlash) (first firstSize second secondSize : Nat) : Prop :=
  ∀ x y, first ≤ x → x < first + firstSize → second ≤ y → y < second + secondSize →
    f.sectorOfAddress x ≠ f.sectorOfAddress y

theorem DisjointSectors.apart {f : SynchronousFlash} {first firstSize second secondSize x : Nat}
    (h : DisjointSectors f first firstSize second secondSize) (hpos : 0 < secondSize) (hle : first ≤ x)
    (hlt : x < first + firstSize) : Apart f x second secondSize := by
  rcases Nat.lt_or_ge x second with hx | hx
  · have hstart := h x second hle hlt (by omega) (by omega)
    have hmono := @SynchronousFlash.monotone f x second (by omega)
    exact Or.inl (by omega)
  · rcases Nat.lt_or_ge x (second + secondSize) with hx' | hx'
    · exact absurd rfl (h x x hle hlt hx hx')
    · have hend := h x (second + secondSize - 1) hle hlt (by omega) (by omega)
      have hmono := @SynchronousFlash.monotone f (second + secondSize - 1) x (by omega)
      exact Or.inr (by omega)

section Images

variable {f imageUpgraders} {g : Upgrading S} {inputs : List Input}

/-- There is an upgrader for the input, with a decryptor that opens it, and its image has a place in the target. -/
structure Upgradable (f : SynchronousFlash) (imageUpgraders : List (ImageUpgrader S)) (i : InputBinary) : Prop where
  found : ∃ u, imageUpgraders.find? (isFor i.header) = some u ∧ u.decryptor.Opens i.imageSecurity
  contents_ne_nil : i.contents ≠ []
  fits : destinationOf imageUpgraders i + i.contents.length ≤ f.totalSize

/-- The places of two inputs. -/
def DisjointInputs (f : SynchronousFlash) (imageUpgraders : List (ImageUpgrader S)) (first second : Input) : Prop :=
  DisjointSectors f (destinationOf imageUpgraders first.inputBinary) first.inputBinary.contents.length
    (destinationOf imageUpgraders second.inputBinary) second.inputBinary.contents.length

/-- The images are in their destinations, and the rest of the target is as it was. -/
structure AllWritten (f : SynchronousFlash) (imageUpgraders : List (ImageUpgrader S)) (before after : Upgrading S)
    (inputs : List Input) : Prop where
  pack_eq : after.pack = before.pack
  visits_eq : after.visits = before.visits ++ inputs.map fun input => visit input.inputBinary
  read_eq : ∀ input ∈ inputs, read after.target (destinationOf imageUpgraders input.inputBinary)
    input.inputBinary.contents.length = input.inputBinary.contents
  frame : ∀ x, (∀ input ∈ inputs, Apart f x (destinationOf imageUpgraders input.inputBinary)
    input.inputBinary.contents.length) → after.target x = before.target x

/-- The loop writes all images. -/
theorem tryUpgradeImages_spec (h : HasImagesAt g.pack g.address inputs)
    (hupgradable : ∀ input ∈ inputs, Upgradable f imageUpgraders input.inputBinary)
    (hdisjoint : inputs.Pairwise (DisjointInputs f imageUpgraders)) :
    (tryUpgradeImages f imageUpgraders inputs.length g).1 = true ∧
      AllWritten f imageUpgraders g (tryUpgradeImages f imageUpgraders inputs.length g).2 inputs := by
  induction inputs generalizing g with
  | nil => exact ⟨rfl, rfl, by simp [tryUpgradeImages], by simp, fun _ _ => rfl⟩
  | cons input inputs ih =>
      obtain ⟨hhere, hrest⟩ := h.cons
      obtain ⟨hfirst, hothers⟩ := List.pairwise_cons.mp hdisjoint
      have hinput := hupgradable input List.mem_cons_self
      obtain ⟨u, hfind, hopens⟩ := hinput.found
      have hdestination : destinationOf imageUpgraders input.inputBinary =
          u.destination input.inputBinary.destinationAddress := by
        rw [destinationOf, hfind]
        rfl
      have hfits := hinput.fits
      have htotal := f.totalSize_lt
      rw [hdestination] at hfits
      obtain ⟨htrue, haddress, hwritten⟩ := @tryUpgradeImage_spec S f imageUpgraders u _ g hhere hfind hopens
        hinput.contents_ne_nil (by omega)
      rw [← hdestination] at hwritten
      have hnext : HasImagesAt (tryUpgradeImage f imageUpgraders g).2.pack
          (tryUpgradeImage f imageUpgraders g).2.address inputs := by
        rw [hwritten.pack_eq, haddress]
        exact hrest
      obtain ⟨hall, hlater⟩ := ih hnext (fun j hj => hupgradable j (List.mem_cons_of_mem _ hj)) hothers
      rw [List.length_cons, tryUpgradeImages, if_pos htrue]
      refine ⟨hall, hlater.pack_eq.trans hwritten.pack_eq, ?_, ?_, ?_⟩
      · rw [hlater.visits_eq, hwritten.visits_eq, List.map_cons, List.append_assoc, List.singleton_append]
      · intro other hother
        rcases List.mem_cons.mp hother with rfl | hother
        · -- the images that follow do not touch this one
          rw [read_congr fun x hle hlt => hlater.frame x fun later hlaterMem =>
            (hfirst later hlaterMem).apart
              (List.length_pos_iff.mpr (hupgradable later (List.mem_cons_of_mem _ hlaterMem)).contents_ne_nil) hle hlt]
          exact hwritten.read_eq
        · exact hlater.read_eq other hother
      · intro x hx
        rw [hlater.frame x fun j hj => hx j (List.mem_cons_of_mem _ hj)]
        exact hwritten.frame x (hx input List.mem_cons_self)

end Images

/-! ## A whole pack -/

/-- The loop of `HasImage` looks at the target names. -/
theorem hasImageFrom_iff {pack : Memory} {imageAddress : Nat} {inputs : List Input}
    (h : HasImagesAt pack imageAddress inputs) (imageName : List UInt8) :
    hasImageFrom pack imageName inputs.length imageAddress = true ↔
      ∃ input ∈ inputs, cString input.inputBinary.targetName = cString (imageName.take 8) := by
  induction inputs generalizing imageAddress with
  | nil => simp [hasImageFrom]
  | cons input inputs ih =>
      obtain ⟨hhere, hrest⟩ := h.cons
      have hname : (isImage pack imageAddress imageName).1 =
          decide (cString input.inputBinary.targetName = cString (imageName.take 8)) := by
        simp only [isImage, hhere.header_eq]
        exact input.inputBinary.strncmpEqual_targetNameArray imageName
      have hnext : (isImage pack imageAddress imageName).2 = imageAddress + input.image.length := by
        simp only [isImage, hhere.header_eq, hhere.length_eq]
        exact add32_of_lt hhere.address_lt
      rw [List.length_cons, hasImageFrom, hname, hnext]
      by_cases heq : cString input.inputBinary.targetName = cString (imageName.take 8)
      · simp [heq]
      · simp [heq, ih hrest]

/-- The decryptor that belongs to a security of the pack builder. The expanded key of AES is a static variable, so
there is one key. -/
inductive Matching (aes : List UInt8 → List UInt8) : Decryptor DecryptorAesTiny → ImageSecurity → Prop
  | none : Matching aes decryptorNone imageEncryptorNone
  | aes (counter : List UInt8) (hcounter : counter.length = 16) :
      Matching aes (decryptorAesTiny aes) (imageEncryptorAes aes counter)

theorem Matching.opens {aes : List UInt8 → List UInt8} {d : Decryptor DecryptorAesTiny} {security : ImageSecurity}
    (h : Matching aes d security) : d.Opens security := by
  cases h with
  | none => exact opens_none
  | aes counter hcounter => exact opens_aes hcounter

/-- A pack, and upgraders for it. -/
structure Deployable (aes : List UInt8 → List UInt8) (f : SynchronousFlash)
    (imageUpgraders : List (ImageUpgrader DecryptorAesTiny)) (b : UpgradePackBuilder) : Prop where
  contents_ne_nil : ∀ i, Input.binary i ∈ b.inputs → i.contents ≠ []
  covered : ∀ input ∈ b.inputs, ∃ u ∈ imageUpgraders, isFor input.inputBinary.header u = true
  matching : ∀ input ∈ b.inputs, ∀ u ∈ imageUpgraders, isFor input.inputBinary.header u = true →
    Matching aes u.decryptor input.inputBinary.imageSecurity
  fits : ∀ input ∈ b.inputs,
    destinationOf imageUpgraders input.inputBinary + input.inputBinary.contents.length ≤ f.totalSize
  disjoint : b.inputs.Pairwise (DisjointInputs f imageUpgraders)

/-- What has been given to the pack builder has been deployed. -/
structure RoundTrip (imageUpgraders : List (ImageUpgrader S)) (b : UpgradePackBuilder) (pack : Memory)
    (after : Upgrading S) : Prop where
  visits_eq : after.visits = b.inputs.map fun input => visit input.inputBinary
  read_eq : ∀ input ∈ b.inputs, read after.target (destinationOf imageUpgraders input.inputBinary)
    input.inputBinary.contents.length = input.inputBinary.contents
  status_eq : after.pack 0 = UpgradePackStatus.deployed.toByte
  hasImage_iff : ∀ imageName, hasImage pack imageName = true ↔
    ∃ input ∈ b.inputs, cString input.inputBinary.targetName = cString (imageName.take 8)

section Pack

variable {aes : List UInt8 → List UInt8} {f} {upgraders : List (ImageUpgrader DecryptorAesTiny)}
  {b : UpgradePackBuilder} {pack target : Memory} {decryptors : Nat → DecryptorAesTiny}

theorem hasImage_stored (h : b.Stored pack) (imageName : List UInt8) : hasImage pack imageName = true ↔
    ∃ input ∈ b.inputs, cString input.inputBinary.targetName = cString (imageName.take 8) := by
  simp only [hasImage, h.prologue_eq, b.signatureLength_toNat, h.contents_eq, h.epilogue_eq, h.numberOfImages_toNat,
    h.images_eq]
  exact hasImageFrom_iff h.hasImages imageName

theorem Deployable.upgradable (h : Deployable aes f upgraders b) {input : Input} (hinput : input ∈ b.inputs) :
    Upgradable f upgraders input.inputBinary := by
  refine ⟨?_, ?_, h.fits input hinput⟩
  · obtain ⟨u, hu, hfor⟩ := h.covered input hinput
    obtain ⟨found, hfound⟩ := Option.isSome_iff_exists.mp (List.find?_isSome.mpr ⟨u, hu, hfor⟩)
    have hmatching := h.matching input hinput found (List.mem_of_find?_eq_some hfound) (List.find?_some hfound)
    exact ⟨found, hfound, hmatching.opens⟩
  · cases input with
    | binary i => exact h.contents_ne_nil i hinput
    | hex i => exact i.linearize_ne_nil

/-- What is read behind the status does not depend on it. -/
theorem read_markAsDeployStarted {address n : Nat} (hpos : 0 < address) :
    read (markAsDeployStarted pack) address n = read pack address n :=
  read_program_disjoint (Or.inr hpos)

/-- A pack of the pack builder is deployed. -/
theorem upgradeFromImages_spec (h : b.Stored pack) (hdeployable : Deployable aes f upgraders b) :
    RoundTrip upgraders b pack (upgradeFromImages f upgraders pack target decryptors) := by
  have himages : HasImagesAt (markAsDeployStarted pack) (16 + b.signature.length + 204) b.inputs := by
    refine ⟨?_, h.hasImages.address_lt⟩
    rw [read_markAsDeployStarted (by omega)]
    exact h.hasImages.read_eq
  obtain ⟨htrue, hwritten⟩ := @tryUpgradeImages_spec DecryptorAesTiny f upgraders
    { address := 16 + b.signature.length + 204, pack := markAsDeployStarted pack, target := target,
      decryptors := decryptors, visits := [] } b.inputs himages (fun _ hinput => hdeployable.upgradable hinput)
    hdeployable.disjoint
  have hmagic : b.prologue.magic = upgradePackMagic := rfl
  have hversion : b.epilogue.headerVersion = 1 := rfl
  have hresult : upgradeFromImages f upgraders pack target decryptors =
      { (tryUpgradeImages f upgraders b.inputs.length
          { address := 16 + b.signature.length + 204, pack := markAsDeployStarted pack, target := target,
            decryptors := decryptors, visits := [] }).2 with
        pack := markAsDeployed (markAsDeployStarted pack) } := by
    simp only [upgradeFromImages, h.prologue_eq, hmagic, ne_eq, not_true_eq_false, if_false, b.signatureLength_toNat,
      h.contents_eq, h.images_eq]
    rw [read_markAsDeployStarted (by omega)]
    simp only [h.epilogue_eq, hversion, not_true_eq_false, if_false, h.numberOfImages_toNat, htrue, if_true,
      hwritten.pack_eq]
  rw [hresult]
  refine ⟨hwritten.visits_eq, hwritten.read_eq, ?_, hasImage_stored h⟩
  show markAsDeployed (markAsDeployStarted pack) 0 = _
  simp only [markAsDeployed, markAsDeployStarted, program, h.status_eq]
  decide

end Pack

/-- AES with the key `000102…0f`, as far as it is used below. -/
def aesBlock (_block : List UInt8) : List UInt8 :=
  [0x69, 0xc4, 0xe0, 0xd8, 0x6a, 0x7b, 0x04, 0x30, 0xd8, 0xcd, 0xb7, 0x80, 0x70, 0xb4, 0xc5, 0x5a]

/-- The counter `00112233…ff`. -/
def firstCounter : List UInt8 :=
  [0x00, 0x11, 0x22, 0x33, 0x44, 0x55, 0x66, 0x77, 0x88, 0x99, 0xaa, 0xbb, 0xcc, 0xdd, 0xee, 0xff]

/-- An image for `upgrader`, which fills its array. -/
def plainInput : Input :=
  .binary
    { targetName := [0x75, 0x70, 0x67, 0x72, 0x61, 0x64, 0x65, 0x72], targetName_le := by decide
      destinationAddress := 0, contents := [1, 2], imageSecurity := imageEncryptorNone }

/-- An image for `app`, encrypted. -/
def encryptedInput : Input :=
  .binary
    { targetName := [0x61, 0x70, 0x70], targetName_le := by decide
      destinationAddress := 4, contents := [3, 4, 5], imageSecurity := imageEncryptorAes aesBlock firstCounter }

/-- Upgraders with buffers of one byte and of two. -/
def twoUpgraders : List (ImageUpgrader DecryptorAesTiny) :=
  [{ targetName := [0x75, 0x70, 0x67, 0x72, 0x61, 0x64, 0x65, 0x72], decryptor := decryptorNone, object := 0
     bufferSize := 1, bufferSize_pos := Nat.zero_lt_one, destinationAddressOffset := 0 },
   { targetName := [0x61, 0x70, 0x70], decryptor := decryptorAesTiny aesBlock, object := 1
     bufferSize := 2, bufferSize_pos := Nat.zero_lt_two, destinationAddressOffset := 0 }]

/-- Sectors of four bytes. -/
def smallFlash : SynchronousFlash :=
  { sectorOfAddress := fun address => address / 4
    monotone := fun h => Nat.div_le_div_right h
    totalSize := 16
    totalSize_lt := by decide }

theorem deployable_two : Deployable aesBlock smallFlash twoUpgraders (packFor [0x41] [plainInput, encryptedInput]) := by
  have hplain : destinationOf twoUpgraders plainInput.inputBinary = 0 := by decide
  have hencrypted : destinationOf twoUpgraders encryptedInput.inputBinary = 4 := by decide
  have hinputs {P : Input → Prop} (hfirst : P plainInput) (hsecond : P encryptedInput) :
      ∀ input ∈ (packFor [0x41] [plainInput, encryptedInput]).inputs, P input := by
    intro input hinput
    rcases List.mem_cons.mp hinput with rfl | hinput
    · exact hfirst
    · rcases List.mem_cons.mp hinput with rfl | hinput
      · exact hsecond
      · exact absurd hinput (List.not_mem_nil)
  refine ⟨?_, hinputs ⟨_, List.mem_cons_self, by decide⟩ ⟨_, List.mem_cons_of_mem _ List.mem_cons_self, by decide⟩,
    hinputs ?_ ?_, hinputs (by rw [hplain]; decide) (by rw [hencrypted]; decide), ?_⟩
  · intro i hi
    exact @hinputs (fun input => input.inputBinary.contents ≠ []) (by decide) (by decide) (Input.binary i) hi
  · intro u hu hfor
    rcases List.mem_cons.mp hu with rfl | hu
    · exact .none
    · obtain rfl := List.mem_singleton.mp hu
      exact absurd hfor (by decide)
  · intro u hu hfor
    rcases List.mem_cons.mp hu with rfl | hu
    · exact absurd hfor (by decide)
    · obtain rfl := List.mem_singleton.mp hu
      exact .aes firstCounter rfl
  · refine List.pairwise_pair.mpr ?_
    intro x y _ hx hy _
    rw [hplain] at hx
    rw [hencrypted] at hy
    have hx' : x < 2 := by simpa [plainInput, Input.inputBinary] using hx
    show x / 4 ≠ y / 4
    omega

theorem upgradeFromImages_spec_two :
    RoundTrip twoUpgraders (packFor [0x41] [plainInput, encryptedInput])
      (burned (packFor [0x41] [plainInput, encryptedInput]))
      (upgradeFromImages smallFlash twoUpgraders (burned (packFor [0x41] [plainInput, encryptedInput]))
        (fun _ => blank) fun _ => { currentStreamBlockOffset := 0, currentStreamBlock := [], counter := [] }) :=
  upgradeFromImages_spec (stored_packFor (by decide)) deployable_two

/-- A name of more than eight characters is found by the first eight. -/
theorem not_hasImage_iff_upgraders :
    (packFor [0x41] [plainInput]).Stored (burned (packFor [0x41] [plainInput])) ∧
      ¬ (hasImage (burned (packFor [0x41] [plainInput])) [0x75, 0x70, 0x67, 0x72, 0x61, 0x64, 0x65, 0x72, 0x73] = true ↔
        [0x75, 0x70, 0x67, 0x72, 0x61, 0x64, 0x65, 0x72, 0x73] ∈
          (packFor [0x41] [plainInput]).inputs.map fun input => input.inputBinary.targetName) := by
  have hstored : (packFor [0x41] [plainInput]).Stored (burned (packFor [0x41] [plainInput])) := stored_packFor (by decide)
  refine ⟨hstored, ?_⟩
  rw [hasImage_stored hstored]
  intro hiff
  have := hiff.mp ⟨plainInput, List.mem_cons_self, by decide⟩
  exact absurd this (by decide)

end PackUpgrader

end EmbeddedInfra.Upgrade
