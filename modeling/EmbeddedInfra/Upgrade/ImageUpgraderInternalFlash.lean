import EmbeddedInfra.Upgrade.DecryptorXtea
import EmbeddedInfra.Upgrade.PackUpgrader

set_option autoImplicit false

/-! # Images that are decrypted in pieces

`application::ImageUpgraderInternalFlash` cuts an image into pieces of the size of its buffer, and decrypts one
after the other. What it writes is what the decryptor makes of these pieces (`writeParts_eq`), so the image
is in the target when that is the image (`upgraded_iff`). Without encryption and in counter mode the pieces may
be cut anywhere. With XTEA each of them has to consist of whole blocks.
-/

namespace EmbeddedInfra.Upgrade

open NorMemory Pieces CounterMode CipherBlockChaining

/-! ## The loop -/

section Loop

variable {S : Type} {u : ImageUpgrader S} {pack target : Memory} {s : S} {imageAddress destinationAddress : Nat}

theorem read_take {m : Memory} {a n k : Nat} (h : k ≤ n) : (read m a n).take k = read m a k := by
  have hsum : n = k + (n - k) := by omega
  rw [hsum, read_add, List.take_left' (length_read m a k)]

theorem read_drop {m : Memory} {a n k : Nat} (h : k ≤ n) : (read m a n).drop k = read m (a + k) (n - k) := by
  have hsum : n = k + (n - k) := by omega
  rw [hsum, read_add, List.drop_left' (length_read m a k), Nat.add_sub_cancel_left]

theorem read_eq_nil {m : Memory} {a n : Nat} : read m a n = [] ↔ n = 0 := by
  rw [← List.length_eq_zero_iff, length_read]

/-- The loop programs the pieces, decrypted one after the other. -/
theorem ImageUpgrader.writeParts_eq {n : Nat} (hpack : imageAddress + n < 2 ^ 32)
    (htarget : destinationAddress + n < 2 ^ 32) :
    (u.writeParts pack s target imageAddress destinationAddress n).1 =
      program target destinationAddress
        (u.decryptor.decryptParts s (pieces u.bufferSize (read pack imageAddress n))) := by
  induction n using Nat.strong_induction_on generalizing imageAddress destinationAddress s target with
  | _ n ih =>
      by_cases hzero : n = 0
      · rw [ImageUpgrader.writeParts, if_pos hzero, read_eq_nil.mpr hzero, pieces_nil]
        exact (program_nil _ _).symm
      · have hpos := u.bufferSize_pos
        have hsize : min u.bufferSize n ≤ n := Nat.min_le_right _ _
        have hne : read pack imageAddress n ≠ [] := by
          rw [ne_eq, read_eq_nil]
          exact hzero
        -- the front piece, and the bytes behind it
        have hfront : (read pack imageAddress n).take u.bufferSize = read pack imageAddress (min u.bufferSize n) := by
          rw [← read_take hsize, ← length_read pack imageAddress n, List.take_eq_take_min]
          rw [length_read]
        have hbehind : pieces u.bufferSize ((read pack imageAddress n).drop u.bufferSize) =
            pieces u.bufferSize (read pack (imageAddress + min u.bufferSize n) (n - min u.bufferSize n)) := by
          rw [← read_drop hsize]
          rcases Nat.le_total u.bufferSize n with hle | hle
          · rw [Nat.min_eq_left hle]
          · rw [Nat.min_eq_right hle, List.drop_of_length_le (by rw [length_read]; exact hle),
              List.drop_of_length_le (by rw [length_read])]
        have hlength := u.decryptor.length_decryptPart s (read pack imageAddress (min u.bufferSize n))
        rw [length_read] at hlength
        rw [ImageUpgrader.writeParts, if_neg hzero]
        simp only
        rw [add32_of_lt (by omega), add32_of_lt (by omega), ih _ (by omega) (by omega) (by omega),
          pieces_of_ne_nil hpos hne, hfront, hbehind, Decryptor.decryptParts, ← program_append, hlength]

end Loop

/-! ## The target -/

/-- Every sector with an address of the destination is erased and no other one, and the image is in the
destination. -/
structure Upgraded (f : SynchronousFlash) (before after : Memory) (destination : Nat) (data : List UInt8) : Prop where
  programmed : read after destination data.length = data
  erased : ∀ x, x < destination ∨ destination + data.length ≤ x →
    (∃ i < data.length, f.sectorOfAddress x = f.sectorOfAddress (destination + i)) → after x = blank
  kept : ∀ x, (∀ i < data.length, f.sectorOfAddress x ≠ f.sectorOfAddress (destination + i)) → after x = before x

section Target

variable {f : SynchronousFlash} {target : Memory} {destination x : Nat} {data written : List UInt8}

/-- The sectors from the first to the last one are those with an address of the destination. -/
theorem sector_mem_iff {n : Nat} (hpos : 0 < n) :
    (f.sectorOfAddress destination ≤ f.sectorOfAddress x ∧
      f.sectorOfAddress x < f.sectorOfAddress (destination + n - 1) + 1) ↔
        ∃ i < n, f.sectorOfAddress x = f.sectorOfAddress (destination + i) := by
  constructor
  · rintro ⟨hfrom, hto⟩
    rcases Nat.lt_or_ge x destination with hbefore | hstart
    · have hmono := @SynchronousFlash.monotone f x destination (by omega)
      exact ⟨0, hpos, by rw [Nat.add_zero]; omega⟩
    · rcases Nat.lt_or_ge x (destination + n) with hin | hbehind
      · exact ⟨x - destination, by omega, by rw [Nat.add_sub_cancel' hstart]⟩
      · have hmono := @SynchronousFlash.monotone f (destination + n - 1) x (by omega)
        have hlast : destination + (n - 1) = destination + n - 1 := by omega
        exact ⟨n - 1, by omega, by rw [hlast]; omega⟩
  · rintro ⟨i, hi, hsector⟩
    have hfrom := @SynchronousFlash.monotone f destination (destination + i) (by omega)
    have hto := @SynchronousFlash.monotone f (destination + i) (destination + n - 1) (by omega)
    omega

theorem upgraded_iff (hne : data ≠ []) (hlength : written.length = data.length) :
    Upgraded f target
        (program (f.eraseSectors target (f.sectorOfAddress destination)
          (f.sectorOfAddress (destination + data.length - 1) + 1)) destination written) destination data ↔
      written = data := by
  have hpos := List.length_pos_iff.mpr hne
  obtain ⟨blanked, hblanked⟩ : ∃ blanked, blanked = f.eraseSectors target (f.sectorOfAddress destination)
      (f.sectorOfAddress (destination + data.length - 1) + 1) := ⟨_, rfl⟩
  have hblank {x : Nat} (h : ∃ i < data.length, f.sectorOfAddress x = f.sectorOfAddress (destination + i)) :
      blanked x = blank := by
    rw [hblanked]
    exact if_pos ((sector_mem_iff hpos).mpr h)
  have hread : read (program blanked destination written) destination data.length = written := by
    have hrange : read blanked destination written.length = List.replicate written.length blank := by
      apply List.ext_getElem (by simp)
      intro i hi _
      rw [length_read] at hi
      simp only [NorMemory.read, List.getElem_map, List.getElem_range, List.getElem_replicate]
      exact hblank ⟨i, by omega, rfl⟩
    rw [← hlength, read_program_self, hrange, zipWith_blank]
  rw [← hblanked]
  constructor
  · intro h
    exact hread.symm.trans h.programmed
  · intro h
    constructor
    · rw [hread, h]
    · intro x hx hsector
      rw [program, if_neg (by omega)]
      exact hblank hsector
    · intro x hsector
      have hout : ¬ (destination ≤ x ∧ x < destination + written.length) := by
        intro hin
        exact hsector (x - destination) (by omega) (by rw [Nat.add_sub_cancel' hin.1])
      rw [program, if_neg hout, hblanked]
      apply if_neg
      rw [sector_mem_iff hpos]
      rintro ⟨i, hi, hx⟩
      exact hsector i hi hx

end Target

/-! ## An image of a pack -/

section Image

variable {S : Type} {f : SynchronousFlash} {u : ImageUpgrader S} {g : Upgrading S} {imageHeader : ImageHeaderPrologue}
  {imageAddress : Nat} {epilogue : ImageHeaderEpilogue} {state encrypted data : List UInt8}

/-- The image is in its place when its header and its pieces, decrypted one after the other, are what they should
be. The pack may have more bytes than the image. -/
theorem upgradeImage_iff (hne : data ≠ []) (hsize : epilogue.imageSize.toNat = data.length)
    (hstate : state.length = u.decryptor.stateSize) (hlength : 8 + data.length ≤ encrypted.length)
    (hfits : imageAddress + 16 + (state ++ encrypted).length < 2 ^ 32)
    (hread : read g.pack (imageAddress + 16) (state ++ encrypted).length = state ++ encrypted)
    (hplace : u.destination epilogue.destinationAddress + data.length ≤ f.totalSize)
    (hepilogue : (u.decryptor.decryptPart (u.decryptor.reset (g.decryptors u.object) state) (encrypted.take 8)).1 =
      epilogue.bytes) :
    Upgraded f g.target (PackUpgrader.upgradeImage f u imageHeader imageAddress g).2.target
        (u.destination epilogue.destinationAddress) data ↔
      u.decryptor.decryptParts (u.decryptor.reset (g.decryptors u.object) state)
        (encrypted.take 8 :: pieces u.bufferSize ((encrypted.drop 8).take data.length)) = epilogue.bytes ++ data := by
  have hpos := List.length_pos_iff.mpr hne
  have htotal := f.totalSize_lt
  rw [List.length_append] at hfits
  -- the three parts are read one after the other
  have hreadState : read g.pack (imageAddress + 16) u.decryptor.stateSize = state := hstate ▸ read_front hread
  have hreadBehind : read g.pack (imageAddress + 16 + u.decryptor.stateSize) encrypted.length = encrypted :=
    hstate ▸ read_behind hread
  have hreadFront : read g.pack (imageAddress + 16 + u.decryptor.stateSize) 8 = encrypted.take 8 := by
    rw [← read_take (show 8 ≤ encrypted.length by omega), hreadBehind]
  have hreadRest : read g.pack (imageAddress + 16 + u.decryptor.stateSize + 8) data.length =
      (encrypted.drop 8).take data.length := by
    rw [← read_take (show data.length ≤ encrypted.length - 8 by omega),
      ← read_drop (show 8 ≤ encrypted.length by omega), hreadBehind]
  have hlast : sub32 (add32 (u.destination epilogue.destinationAddress) data.length) 1 =
      u.destination epilogue.destinationAddress + data.length - 1 := by
    rw [add32_of_lt (by omega), sub32_of_le (by omega) (by omega)]
  have hheader : ImageHeaderEpilogue.ofBytes epilogue.bytes = epilogue := ImageHeaderEpilogue.ofBytes_bytes epilogue
  simp only [PackUpgrader.upgradeImage]
  rw [add32_of_lt (show imageAddress + 16 < 2 ^ 32 by omega), hreadState,
    add32_of_lt (show imageAddress + 16 + u.decryptor.stateSize < 2 ^ 32 by omega), hreadFront,
    add32_of_lt (show imageAddress + 16 + u.decryptor.stateSize + 8 < 2 ^ 32 by omega), hepilogue, hheader]
  simp only [ImageUpgrader.upgrade, hsize, hlast]
  rw [if_neg (by simp)]
  show Upgraded f g.target (ImageUpgrader.writeParts u _ _ _ _ _ _).1 _ _ ↔ _
  obtain ⟨later, hlater⟩ : ∃ later, later =
      (u.decryptor.decryptPart (u.decryptor.reset (g.decryptors u.object) state) (encrypted.take 8)).2 := ⟨_, rfl⟩
  rw [ImageUpgrader.writeParts_eq (by omega) (by omega), hreadRest, Decryptor.decryptParts, hepilogue, ← hlater,
    List.append_right_inj]
  apply upgraded_iff hne
  rw [Decryptor.length_decryptParts, flatten_pieces u.bufferSize_pos, List.length_take, List.length_drop]
  omega

/-- A decryptor that takes back what the encryptor has done, in whatever pieces. -/
theorem upgraded_of_opens {security : ImageSecurity} (hopens : u.decryptor.Opens security) (hne : data ≠ [])
    (hsize : epilogue.imageSize.toNat = data.length)
    (hfits : imageAddress + 16 + (security.secure (epilogue.bytes ++ data)).length < 2 ^ 32)
    (hread : read g.pack (imageAddress + 16) (security.secure (epilogue.bytes ++ data)).length =
      security.secure (epilogue.bytes ++ data))
    (hplace : u.destination epilogue.destinationAddress + data.length ≤ f.totalSize) :
    Upgraded f g.target (PackUpgrader.upgradeImage f u imageHeader imageAddress g).2.target
      (u.destination epilogue.destinationAddress) data := by
  obtain ⟨state, encrypted, hsecure, hstate, hlength, hdecrypts⟩ :=
    hopens (g.decryptors u.object) (epilogue.bytes ++ data)
  have hheader := epilogue.length_bytes
  rw [List.length_append, hheader] at hlength
  have hfront : (encrypted.take 8).length = epilogue.bytes.length := by
    rw [List.length_take, hheader]
    omega
  have hepilogue := (Decryptor.Decrypts.part ((List.take_append_drop 8 encrypted).symm ▸ hdecrypts)).1
  rw [hfront, List.take_left] at hepilogue
  rw [hsecure] at hfits hread
  rw [upgradeImage_iff hne hsize hstate (by omega) hfits hread hplace hepilogue]
  have hrest : (encrypted.drop 8).take data.length = encrypted.drop 8 :=
    List.take_of_length_le (by rw [List.length_drop]; omega)
  apply hdecrypts
  rw [List.flatten_cons, flatten_pieces u.bufferSize_pos, hrest, List.take_append_drop]

end Image

/-! ## With XTEA -/

section Xtea

variable {c : BlockCipher 8} {s : DecryptorXtea} {epilogue : ImageHeaderEpilogue} {iv data : List UInt8}

/-- The blocks of the header and the image. -/
def xteaBlocks (c : BlockCipher 8) (iv unalignedData : List UInt8) : List UInt8 :=
  CipherBlockChaining.encrypt c (ImageEncryptorXtea.alignedSize unalignedData.length / 8) iv
    (ImageEncryptorXtea.aligned unalignedData)

theorem length_xteaBlocks (hiv : iv.length = 8) (unalignedData : List UInt8) :
    (xteaBlocks c iv unalignedData).length = ImageEncryptorXtea.alignedSize unalignedData.length := by
  obtain ⟨hlength, -, hdvd⟩ := ImageEncryptorXtea.length_aligned unalignedData
  rw [xteaBlocks, CipherBlockChaining.length_encrypt hiv (by omega)]
  omega

theorem decrypt_xteaBlocks (hiv : iv.length = 8) (unalignedData : List UInt8) :
    CipherBlockChaining.decrypt c (ImageEncryptorXtea.alignedSize unalignedData.length / 8) iv
      (xteaBlocks c iv unalignedData) = ImageEncryptorXtea.aligned unalignedData := by
  obtain ⟨hlength, -, hdvd⟩ := ImageEncryptorXtea.length_aligned unalignedData
  rw [xteaBlocks, CipherBlockChaining.decrypt_encrypt hiv (by omega)]

/-- The header is one block. -/
theorem decryptPart_epilogue (hiv : iv.length = 8) :
    ((decryptorXtea c).decryptPart ((decryptorXtea c).reset s iv)
      ((xteaBlocks c iv (epilogue.bytes ++ data)).take 8)).1 = epilogue.bytes := by
  have hheader := epilogue.length_bytes
  have hlength := @length_xteaBlocks c iv hiv (epilogue.bytes ++ data)
  have hwhole := @decrypt_xteaBlocks c iv hiv (epilogue.bytes ++ data)
  obtain ⟨-, hle, hdvd⟩ := ImageEncryptorXtea.length_aligned (epilogue.bytes ++ data)
  obtain ⟨blocks, hblocks⟩ : ∃ blocks, blocks = xteaBlocks c iv (epilogue.bytes ++ data) := ⟨_, rfl⟩
  rw [← hblocks] at hlength hwhole ⊢
  rw [List.length_append, hheader] at hle hdvd hlength hwhole
  have hfront : (blocks.take 8).length = 8 := by
    rw [List.length_take]
    omega
  have hpart : ((decryptorXtea c).decryptPart ((decryptorXtea c).reset s iv) (blocks.take 8)).1 =
      CipherBlockChaining.decrypt c 1 iv (blocks.take 8) := by
    have hdecrypt := (@DecryptorXtea.decryptPart_of_dvd c (s.reset iv) (blocks.take 8) (by rw [hfront])).1
    rw [hfront, DecryptorXtea.reset_iv hiv] at hdecrypt
    exact hdecrypt
  have hcount : ImageEncryptorXtea.alignedSize (8 + data.length) / 8 =
      1 + (ImageEncryptorXtea.alignedSize (8 + data.length) / 8 - 1) := by omega
  rw [hcount, ← List.take_append_drop 8 blocks, decrypt_append (by rw [hfront]), ImageEncryptorXtea.aligned,
    List.append_assoc] at hwhole
  rw [hpart]
  refine (List.append_inj hwhole ?_).1
  rw [CipherBlockChaining.length_decrypt hiv (by rw [hfront]), hheader]

/-- The pieces are decrypted to the image when all of them consist of whole blocks. -/
theorem decryptParts_whole {bufferSize : Nat} (hbuffer : 0 < bufferSize) (hiv : iv.length = 8)
    (h : 8 ∣ data.length ∧ (data.length ≤ bufferSize ∨ 8 ∣ bufferSize)) :
    (decryptorXtea c).decryptParts ((decryptorXtea c).reset s iv)
        ((xteaBlocks c iv (epilogue.bytes ++ data)).take 8 ::
          pieces bufferSize (((xteaBlocks c iv (epilogue.bytes ++ data)).drop 8).take data.length)) =
      epilogue.bytes ++ data := by
  have hheader := epilogue.length_bytes
  have hlength := @length_xteaBlocks c iv hiv (epilogue.bytes ++ data)
  have hwhole := @decrypt_xteaBlocks c iv hiv (epilogue.bytes ++ data)
  have hdvd : 8 ∣ (epilogue.bytes ++ data).length := by
    rw [List.length_append, hheader]
    exact Nat.dvd_add (Nat.dvd_refl 8) h.1
  have hsame := congrArg List.length (ImageEncryptorXtea.aligned_of_dvd hdvd)
  rw [(ImageEncryptorXtea.length_aligned _).1] at hsame
  rw [ImageEncryptorXtea.aligned_of_dvd hdvd, hsame] at hwhole
  rw [hsame] at hlength
  obtain ⟨blocks, hblocks⟩ : ∃ blocks, blocks = xteaBlocks c iv (epilogue.bytes ++ data) := ⟨_, rfl⟩
  rw [← hblocks] at hlength hwhole ⊢
  have hcount := hlength
  rw [List.length_append, hheader] at hcount
  have hrest : (blocks.drop 8).take data.length = blocks.drop 8 :=
    List.take_of_length_le (by rw [List.length_drop]; omega)
  have hpieces : ∀ part ∈ blocks.take 8 :: pieces bufferSize (blocks.drop 8), 8 ∣ part.length := by
    rw [List.forall_mem_cons]
    constructor
    · rw [List.length_take]
      omega
    · rw [dvd_pieces_iff hbuffer, List.length_drop, hcount, Nat.add_sub_cancel_left]
      exact h
  have hflatten : (blocks.take 8 :: pieces bufferSize (blocks.drop 8)).flatten = blocks := by
    rw [List.flatten_cons, flatten_pieces hbuffer, List.take_append_drop]
  rw [hrest, decryptParts_xtea hpieces, hflatten, hlength]
  exact (congrArg (fun initial => CipherBlockChaining.decrypt c _ initial blocks)
    (DecryptorXtea.reset_iv hiv s)).trans hwhole

/-- Otherwise there is an initial block with which a piece stays encrypted that is not what the image has there. -/
theorem exists_refused {bufferSize : Nat} (hbuffer : 0 < bufferSize)
    (h : ¬ (8 ∣ data.length ∧ (data.length ≤ bufferSize ∨ 8 ∣ bufferSize))) :
    ∃ iv : List UInt8, iv.length = 8 ∧ ∀ s : DecryptorXtea,
      (decryptorXtea c).decryptParts ((decryptorXtea c).reset s iv)
        ((xteaBlocks c iv (epilogue.bytes ++ data)).take 8 ::
          pieces bufferSize (((xteaBlocks c iv (epilogue.bytes ++ data)).drop 8).take data.length)) ≠
      epilogue.bytes ++ data := by
  have hheader := epilogue.length_bytes
  obtain ⟨start, hstart, hdvd, hpieces⟩ := @exists_not_dvd UInt8 bufferSize 8 data.length hbuffer h
  obtain ⟨hlength, hle, haligned⟩ := ImageEncryptorXtea.length_aligned (epilogue.bytes ++ data)
  rw [List.length_append, hheader] at hlength hle haligned
  -- the block of the piece does not start with the byte of the image
  obtain ⟨iv, hiv, hblock⟩ := @exists_initial 8 (1 + start / 8) c (ImageEncryptorXtea.aligned (epilogue.bytes ++ data))
    (List.replicate 8 (data[start] + 1)) (List.length_replicate ..) (by omega)
  refine ⟨iv, hiv, ?_⟩
  intro s hall
  have hblocks := @length_xteaBlocks c iv hiv (epilogue.bytes ++ data)
  rw [List.length_append, hheader] at hblocks
  obtain ⟨encrypted, hencrypted⟩ := hblock (ImageEncryptorXtea.alignedSize (8 + data.length) / 8 - (2 + start / 8))
  have hcount : 1 + start / 8 + 1 + (ImageEncryptorXtea.alignedSize (8 + data.length) / 8 - (2 + start / 8)) =
      ImageEncryptorXtea.alignedSize (epilogue.bytes ++ data).length / 8 := by
    rw [List.length_append, hheader]
    omega
  have hplace : (1 + start / 8) * 8 = 8 + start := by omega
  rw [hcount, hplace, ← xteaBlocks] at hencrypted
  obtain ⟨blocks, hname⟩ : ∃ blocks, blocks = xteaBlocks c iv (epilogue.bytes ++ data) := ⟨_, rfl⟩
  rw [← hname] at hencrypted hblocks hall
  have hrest : ((blocks.drop 8).take data.length).length = data.length := by
    rw [List.length_take, List.length_drop]
    omega
  obtain ⟨front, piece, rest, hsplit, hfront, hpiece, hflatten⟩ := hpieces _ hrest
  have hheadDvd : 8 ∣ (blocks.take 8).length := by
    rw [List.length_take]
    omega
  obtain ⟨before, behind, hparts, hbefore⟩ := @decryptParts_refused c ((decryptorXtea c).reset s iv)
    (blocks.take 8 :: front) rest piece (List.forall_mem_cons.mpr ⟨hheadDvd, hfront⟩) hpiece
  have hbeforeLength : before.length = 8 + start := by
    rw [hbefore, List.flatten_cons, List.length_append, hflatten, List.length_take]
    omega
  have hpiecePos : 0 < piece.length := by
    apply Nat.pos_of_ne_zero
    intro hzero
    rw [hzero] at hpiece
    exact hpiece (Nat.dvd_zero 8)
  -- the piece starts with the block
  have hfirst : piece[0]? = some (data[start] + 1) := by
    calc piece[0]?
        = ((blocks.drop 8).take data.length)[start]? := by
          rw [← flatten_pieces hbuffer ((blocks.drop 8).take data.length), hsplit, List.flatten_append,
            List.getElem?_append_right hflatten.le, hflatten, Nat.sub_self, List.flatten_cons,
            List.getElem?_append_left hpiecePos]
      _ = (blocks.drop (8 + start))[0]? := by
          rw [List.getElem?_take_of_lt hstart, List.getElem?_drop, List.getElem?_drop, Nat.add_zero]
      _ = some (data[start] + 1) := by
          rw [hencrypted]
          rfl
  have himage : piece[0]? = some data[start] := by
    calc piece[0]?
        = (before ++ (piece ++ behind))[8 + start]? := by
          rw [List.getElem?_append_right hbeforeLength.le, hbeforeLength, Nat.sub_self,
            List.getElem?_append_left hpiecePos]
      _ = (epilogue.bytes ++ data)[8 + start]? := by
          rw [← hparts, List.cons_append, ← hsplit, hall]
      _ = some data[start] := by
          rw [List.getElem?_append_right (by omega), hheader, Nat.add_sub_cancel_left,
            List.getElem?_eq_getElem hstart]
  have hsame := Option.some.inj (hfirst.symm.trans himage)
  simp at hsame

end Xtea

/-! ## Every decryptor -/

/-- The decryptors. -/
inductive DecryptorKind
  | none
  | aesTiny
  | aesMbedTls
  | xtea

namespace DecryptorKind

def State : DecryptorKind → Type
  | none => Unit
  | aesTiny => DecryptorAesTiny
  | aesMbedTls => Position (List UInt8)
  | xtea => DecryptorXtea

variable (aes : List UInt8 → List UInt8) (c : BlockCipher 8)

def decryptor : (k : DecryptorKind) → Decryptor k.State
  | none => decryptorNone
  | aesTiny => decryptorAesTiny aes
  | aesMbedTls => decryptorAesMbedTls aes
  | xtea => decryptorXtea c

/-- What the matching encryptor makes of the header and the image, when the random number generator has given these
bytes. -/
def secure : DecryptorKind → List UInt8 → List UInt8 → List UInt8
  | none, _, data => imageEncryptorNone.secure data
  | aesTiny, random, data => (imageEncryptorAes aes random).secure data
  | aesMbedTls, random, data => (imageEncryptorAes aes random).secure data
  | xtea, random, data => (ImageEncryptorXtea.secure c random data).getD []

/-- With a buffer of this size, the image is decrypted into the target, wherever it is in the pack and wherever it
goes, and whatever the random bytes are. -/
def Upgrades (k : DecryptorKind) (bufferSize : Nat) (data : List UInt8) : Prop :=
  ∀ (f : SynchronousFlash) (u : ImageUpgrader k.State) (g : Upgrading k.State) (imageHeader : ImageHeaderPrologue)
    (imageAddress : Nat) (epilogue : ImageHeaderEpilogue) (random : List UInt8),
    u.decryptor = k.decryptor aes c → u.bufferSize = bufferSize → random.length = u.decryptor.stateSize →
    epilogue.imageSize.toNat = data.length →
    imageAddress + 16 + (k.secure aes c random (epilogue.bytes ++ data)).length < 2 ^ 32 →
    read g.pack (imageAddress + 16) (k.secure aes c random (epilogue.bytes ++ data)).length =
      k.secure aes c random (epilogue.bytes ++ data) →
    u.destination epilogue.destinationAddress + data.length ≤ f.totalSize →
    Upgraded f g.target (PackUpgrader.upgradeImage f u imageHeader imageAddress g).2.target
      (u.destination epilogue.destinationAddress) data

variable {aes c} {bufferSize : Nat} {data : List UInt8}

theorem upgrades_of_opens {k : DecryptorKind} (security : List UInt8 → ImageSecurity)
    (hsecure : ∀ random data, k.secure aes c random data = (security random).secure data)
    (hopens : ∀ random, random.length = (k.decryptor aes c).stateSize → (k.decryptor aes c).Opens (security random))
    (hne : data ≠ []) : k.Upgrades aes c bufferSize data := by
  intro f u g imageHeader imageAddress epilogue random hdecryptor hbuffer hrandom hsize hfits hread hplace
  rw [hsecure] at hfits hread
  rw [hdecryptor] at hrandom
  exact upgraded_of_opens (hdecryptor ▸ hopens random hrandom) hne hsize hfits hread hplace

theorem secure_xtea {iv : List UInt8} (hiv : iv.length = 8) (unalignedData : List UInt8) :
    xtea.secure aes c iv unalignedData = iv ++ xteaBlocks c iv unalignedData := by
  rw [secure, ImageEncryptorXtea.secure_eq hiv, Option.getD_some, xteaBlocks]

/-- What has been decrypted of the pieces decides. -/
theorem upgraded_xtea_iff {f : SynchronousFlash} {u : ImageUpgrader xtea.State} {g : Upgrading xtea.State}
    {imageHeader : ImageHeaderPrologue} {imageAddress : Nat} {epilogue : ImageHeaderEpilogue} {iv : List UInt8}
    (hdecryptor : u.decryptor = decryptorXtea c) (hiv : iv.length = 8) (hne : data ≠ [])
    (hsize : epilogue.imageSize.toNat = data.length)
    (hfits : imageAddress + 16 + (xtea.secure aes c iv (epilogue.bytes ++ data)).length < 2 ^ 32)
    (hread : read g.pack (imageAddress + 16) (xtea.secure aes c iv (epilogue.bytes ++ data)).length =
      xtea.secure aes c iv (epilogue.bytes ++ data))
    (hplace : u.destination epilogue.destinationAddress + data.length ≤ f.totalSize) :
    Upgraded f g.target (PackUpgrader.upgradeImage f u imageHeader imageAddress g).2.target
        (u.destination epilogue.destinationAddress) data ↔
      (decryptorXtea c).decryptParts ((decryptorXtea c).reset (g.decryptors u.object) iv)
        ((xteaBlocks c iv (epilogue.bytes ++ data)).take 8 ::
          pieces u.bufferSize (((xteaBlocks c iv (epilogue.bytes ++ data)).drop 8).take data.length)) =
        epilogue.bytes ++ data := by
  have hheader := epilogue.length_bytes
  have hlength := @length_xteaBlocks c iv hiv (epilogue.bytes ++ data)
  have hle := (ImageEncryptorXtea.length_aligned (epilogue.bytes ++ data)).2.1
  rw [List.length_append, hheader] at hle hlength
  rw [secure_xtea hiv] at hfits hread
  have hiff := @upgradeImage_iff xtea.State f u g imageHeader imageAddress epilogue iv
    (xteaBlocks c iv (epilogue.bytes ++ data)) data hne hsize (by rw [hdecryptor]; exact hiv) (by omega) hfits hread
    hplace (by rw [hdecryptor]; exact decryptPart_epilogue hiv)
  rw [hiff, hdecryptor]
  exact Iff.rfl

/-- A pack that holds these bytes behind the header of an image at its start. -/
def packOf (secured : List UInt8) : Memory := fun a => secured.getD (a - 16) blank

theorem read_packOf (secured : List UInt8) : read (packOf secured) 16 secured.length = secured := by
  apply List.ext_getElem (length_read _ _ _)
  intro i hi hi'
  simp only [NorMemory.read, List.getElem_map, List.getElem_range, packOf]
  rw [Nat.add_sub_cancel_left, List.getD_eq_getElem _ _ hi']

/-- An upgrader of images for the start of the target. -/
def upgraderOf {S : Type} (d : Decryptor S) (bufferSize : Nat) (hbuffer : 0 < bufferSize) : ImageUpgrader S :=
  { targetName := []
    decryptor := d
    object := 0
    bufferSize := bufferSize
    bufferSize_pos := hbuffer
    destinationAddressOffset := 0 }

/-- Target and pack in flashes of four gigabytes. -/
def largestFlash : SynchronousFlash :=
  { sectorOfAddress := id
    monotone := fun h => h
    totalSize := 2 ^ 32 - 1
    totalSize_lt := by omega }

theorem not_upgrades_xtea (hbuffer : 0 < bufferSize) (hne : data ≠ []) (hfits : data.length + 40 ≤ 2 ^ 32)
    (h : ¬ (8 ∣ data.length ∧ (data.length ≤ bufferSize ∨ 8 ∣ bufferSize))) : ¬ xtea.Upgrades aes c bufferSize data := by
  intro hupgrades
  obtain ⟨epilogue, hepilogue⟩ : ∃ epilogue : ImageHeaderEpilogue,
      epilogue = { destinationAddress := 0, imageSize := UInt32.ofNat data.length } := ⟨_, rfl⟩
  have hsize : epilogue.imageSize.toNat = data.length := by
    rw [hepilogue]
    exact UInt32.toNat_ofNat_of_lt' (show data.length < 2 ^ 32 by omega)
  obtain ⟨iv, hiv, hrefused⟩ := @exists_refused c epilogue data bufferSize hbuffer h
  have hheader := epilogue.length_bytes
  have hlength : (xtea.secure aes c iv (epilogue.bytes ++ data)).length =
      8 + ImageEncryptorXtea.alignedSize (8 + data.length) := by
    rw [secure_xtea hiv, List.length_append, hiv, length_xteaBlocks hiv, List.length_append, hheader]
  have hbound : ImageEncryptorXtea.alignedSize (8 + data.length) + 24 < 2 ^ 32 := by
    rw [ImageEncryptorXtea.alignedSize]
    omega
  obtain ⟨u, hu⟩ : ∃ u, u = upgraderOf (decryptorXtea c) bufferSize hbuffer := ⟨_, rfl⟩
  obtain ⟨g, hg⟩ : ∃ g : Upgrading xtea.State, g =
      { address := 0, pack := packOf (xtea.secure aes c iv (epilogue.bytes ++ data)), target := fun _ => blank,
        decryptors := fun _ => { iv := iv, length_iv := hiv }, visits := [] } := ⟨_, rfl⟩
  have hdecryptor : u.decryptor = decryptorXtea c := by rw [hu, upgraderOf]
  have hbufferSize : u.bufferSize = bufferSize := by rw [hu, upgraderOf]
  have hplace : u.destination epilogue.destinationAddress + data.length ≤ largestFlash.totalSize := by
    have hstart : u.destination epilogue.destinationAddress = 0 := by
      rw [hu, hepilogue]
      rfl
    show _ ≤ 2 ^ 32 - 1
    omega
  have hread : read g.pack (0 + 16) (xtea.secure aes c iv (epilogue.bytes ++ data)).length =
      xtea.secure aes c iv (epilogue.bytes ++ data) := by
    rw [hg]
    exact read_packOf _
  have hupgraded := hupgrades largestFlash u g (ImageHeaderPrologue.ofBytes []) 0 epilogue iv hdecryptor hbufferSize
    (by rw [hdecryptor]; exact hiv) hsize (by omega) hread hplace
  rw [upgraded_xtea_iff hdecryptor hiv hne hsize (by omega) hread hplace, hbufferSize] at hupgraded
  exact hrefused _ hupgraded

/-- Without encryption and with AES, an image is upgraded with a buffer of any size. With XTEA, it has to consist of
whole blocks, and the buffer has to be large enough for all of it or to consist of whole blocks, too. (With a header
in front, a larger image has no place in a pack.) -/
theorem upgrades_iff (aes : List UInt8 → List UInt8) (c : BlockCipher 8) (k : DecryptorKind) (hbuffer : 0 < bufferSize)
    (hne : data ≠ []) :
    k.Upgrades aes c bufferSize data ↔
      (k = xtea → data.length + 40 ≤ 2 ^ 32 → 8 ∣ data.length ∧ (data.length ≤ bufferSize ∨ 8 ∣ bufferSize)) := by
  cases k with
  | none =>
      have hupgrades : DecryptorKind.none.Upgrades aes c bufferSize data :=
        upgrades_of_opens (fun _ => imageEncryptorNone) (fun _ _ => rfl) (fun _ _ => opens_none) hne
      exact iff_of_true hupgrades (fun h => nomatch h)
  | aesTiny =>
      have hupgrades : aesTiny.Upgrades aes c bufferSize data :=
        upgrades_of_opens (imageEncryptorAes aes) (fun _ _ => rfl) (fun _ hrandom => opens_aes hrandom) hne
      exact iff_of_true hupgrades (fun h => nomatch h)
  | aesMbedTls =>
      have hupgrades : aesMbedTls.Upgrades aes c bufferSize data :=
        upgrades_of_opens (imageEncryptorAes aes) (fun _ _ => rfl) (fun _ hrandom => opens_aesMbedTls hrandom) hne
      exact iff_of_true hupgrades (fun h => nomatch h)
  | xtea =>
      constructor
      · intro hupgrades _ hfits
        by_contra h
        exact not_upgrades_xtea hbuffer hne hfits h hupgrades
      · intro h f u g imageHeader imageAddress epilogue iv hdecryptor hbufferSize hrandom hsize hfits hread hplace
        have hiv : iv.length = 8 := by
          rw [hrandom, hdecryptor]
          rfl
        have hheader := epilogue.length_bytes
        have hlength : (xtea.secure aes c iv (epilogue.bytes ++ data)).length =
            8 + ImageEncryptorXtea.alignedSize (8 + data.length) := by
          rw [secure_xtea hiv, List.length_append, hiv, length_xteaBlocks hiv, List.length_append, hheader]
        have hsmall : data.length + 40 ≤ 2 ^ 32 := by
          rw [hlength, ImageEncryptorXtea.alignedSize] at hfits
          omega
        rw [upgraded_xtea_iff hdecryptor hiv hne hsize hfits hread hplace, hbufferSize]
        exact decryptParts_whole hbuffer hiv (h rfl hsmall)

/-- Two blocks, with a buffer for one of them. -/
theorem upgrades_two_blocks : xtea.Upgrades id (Upgrade.xtea (List.replicate 16 0)) 8 (List.replicate 16 0) := by
  refine (upgrades_iff id (Upgrade.xtea (List.replicate 16 0)) xtea (by decide) (by decide)).mpr ?_
  intro _ _
  decide

/-- One byte is not a block, and neither are the pieces that a buffer of twelve bytes cuts off. -/
theorem not_upgrades_part_of_block :
    ¬ xtea.Upgrades id (Upgrade.xtea (List.replicate 16 0)) 256 [0x2a] ∧
      ¬ xtea.Upgrades id (Upgrade.xtea (List.replicate 16 0)) 12 (List.replicate 16 0) := by
  constructor
  · exact not_upgrades_xtea (by decide) (by decide) (by decide) (by decide)
  · exact not_upgrades_xtea (by decide) (by decide) (by decide) (by decide)

end DecryptorKind

end EmbeddedInfra.Upgrade
