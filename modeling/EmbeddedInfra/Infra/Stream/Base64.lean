import EmbeddedInfra.Infra.Stream.TextStreams

set_option autoImplicit false

/-! # Base64

`infra::AsBase64` writes six bits of the data at a time: `bitIndex` says where the next ones start in a byte.
`infra::FromBase64` shifts them into a word of 16 bits, and takes a byte out of it when there are eight.
-/

namespace EmbeddedInfra.TextStreams

def encodeTable : List UInt8 :=
  "ABCDEFGHIJKLMNOPQRSTUVWXYZabcdefghijklmnopqrstuvwxyz0123456789+/".toList.map Char.toUInt8

/-- `encodeTable[encodedByte]` -/
def encodeByte (encodedByte : UInt8) : UInt8 := encodeTable.getD encodedByte.toNat 0

/-! ## Writing -/

/-- What the loop over the data leaves: what it has written, and its variables. -/
structure Encoded where
  text : List UInt8
  encodedByte : UInt8
  size : UInt32

def encodeLoop (bitIndex encodedByte : UInt8) (size : UInt32) : List UInt8 → Encoded
  | [] => { text := [], encodedByte := encodedByte, size := size }
  | byte :: data =>
      let first := encodedByte ||| (byte >>> bitIndex)
      let second := (byte <<< (8 - bitIndex)) >>> 2
      if bitIndex + 2 = 8 then
        let encoded := encodeLoop 2 0 (size + 1 + 1) data
        { encoded with text := encodeByte first :: encodeByte second :: encoded.text }
      else
        let encoded := encodeLoop (bitIndex + 2) second (size + 1) data
        { encoded with text := encodeByte first :: encoded.text }

/-- What follows the loop: the bits that are left, and padding. -/
def Encoded.finish (encoded : Encoded) : List UInt8 :=
  let size := encoded.size
  let last := if size &&& 3 ≠ 0 then [encodeByte encoded.encodedByte] else []
  let size := if size &&& 3 ≠ 0 then size + 1 else size
  let padding := if size &&& 3 ≠ 0 then ['='.toUInt8] else []
  let size := if size &&& 3 ≠ 0 then size + 1 else size
  let morePadding := if size &&& 3 ≠ 0 then ['='.toUInt8] else []
  encoded.text ++ (last ++ padding ++ morePadding)

/-- `operator<<(AsBase64Helper)` -/
def asBase64 (data : List UInt8) : List UInt8 := (encodeLoop 2 0 0 data).finish

/-! ## Reading -/

/-- The position in the table; it is 64 for other characters. -/
def decodeByte (base64 : UInt8) : UInt8 := UInt8.ofNat (encodeTable.idxOf base64)

/-- What the loop over the text leaves: what it has put into the range, how much room is left there, its variables
and the text that has not been read. `invalid` says that it has found another character. -/
structure Decoded where
  data : List UInt8 := []
  room : Nat
  bitIndex : UInt8
  remaining : List UInt8
  invalid : Bool := false

def decodeLoop (bitIndex : UInt8) (decodedWord : UInt16) : Nat → List UInt8 → Decoded
  | room, [] => { room := room, bitIndex := bitIndex, remaining := [] }
  | 0, c :: text => { room := 0, bitIndex := bitIndex, remaining := c :: text }
  | room + 1, c :: text =>
      let decodedValue := decodeByte c
      if decodedValue < 64 then
        let decodedWord := (decodedWord <<< 6) ||| decodedValue.toUInt16
        let bitIndex := bitIndex + 6
        if bitIndex ≥ 8 then
          let decoded := decodeLoop (bitIndex - 8) decodedWord room text
          { decoded with data := (decodedWord >>> (bitIndex - 8).toUInt16).toUInt8 :: decoded.data }
        else decodeLoop bitIndex decodedWord (room + 1) text
      else { room := room + 1, bitIndex := bitIndex, remaining := text, invalid := true }

/-- The loop over the padding: what has not been read, and whether a failure was reported. -/
def readPadding : UInt8 → List UInt8 → List UInt8 × Bool
  | _, [] => ([], false)
  | bitIndex, c :: text =>
      if bitIndex ≠ 0 then
        let read := readPadding (bitIndex - 2) text
        (read.1, decide (c ≠ '='.toUInt8) || read.2)
      else (c :: text, false)

/-- `operator>>(FromBase64Helper)`: what has been put into a range of a given size. -/
def TextInputStream.fromBase64 (s : TextInputStream) (size : Nat) : List UInt8 × TextInputStream :=
  let decoded := decodeLoop 0 0 size s.remaining
  if decoded.invalid then (decoded.data, { s with remaining := decoded.remaining, failed := true })
  else
    let padding := readPadding decoded.bitIndex decoded.remaining
    (decoded.data, { s with
      remaining := padding.1
      failed := s.failed || padding.2 || decide (decoded.room ≠ 0) })

/-! ## The format -/

/-- The character for a number of six bits, in the standard alphabet. -/
def character (n : Nat) : UInt8 := encodeTable.getD n 0

/-- **Base64**: four characters for three bytes, and padding to four characters at the end. -/
def base64 : List UInt8 → List UInt8
  | [] => []
  | [a] =>
      let n := a.toNat * 2 ^ 16
      [character (n / 2 ^ 18), character (n / 2 ^ 12 % 64), '='.toUInt8, '='.toUInt8]
  | [a, b] =>
      let n := a.toNat * 2 ^ 16 + b.toNat * 2 ^ 8
      [character (n / 2 ^ 18), character (n / 2 ^ 12 % 64), character (n / 2 ^ 6 % 64), '='.toUInt8]
  | a :: b :: c :: data =>
      let n := a.toNat * 2 ^ 16 + b.toNat * 2 ^ 8 + c.toNat
      character (n / 2 ^ 18) :: character (n / 2 ^ 12 % 64) :: character (n / 2 ^ 6 % 64) :: character (n % 64) ::
        base64 data

/-! ## What is written -/

section Writing

variable {a b c : UInt8} {size : UInt32} {data : List UInt8}

/-- Bits that are put below others. -/
theorem or_eq_add {m n : Nat} (i : Nat) (hn : n < 2 ^ i) : 2 ^ i * m ||| n = 2 ^ i * m + n :=
  (Nat.two_pow_add_eq_or_of_lt hn m).symm

/-- The first six bits of a byte -/
theorem toNat_first : ((0 : UInt8) ||| (a >>> 2)).toNat = a.toNat / 4 := by
  rw [UInt8.toNat_or, UInt8.toNat_shiftRight, Nat.shiftRight_eq_div_pow]
  exact Nat.zero_or _

/-- The last two bits of a byte, before four others -/
theorem toNat_two : ((a <<< (8 - 2)) >>> 2).toNat = 2 ^ 4 * (a.toNat % 4) := by
  rw [UInt8.toNat_shiftRight, UInt8.toNat_shiftLeft, Nat.shiftRight_eq_div_pow, Nat.shiftLeft_eq]
  show a.toNat * 64 % 256 / 4 = 2 ^ 4 * (a.toNat % 4)
  omega

/-- The last four bits of a byte, before two others -/
theorem toNat_four : ((b <<< (8 - (2 + 2))) >>> 2).toNat = 2 ^ 2 * (b.toNat % 16) := by
  rw [UInt8.toNat_shiftRight, UInt8.toNat_shiftLeft, Nat.shiftRight_eq_div_pow, Nat.shiftLeft_eq]
  show b.toNat * 16 % 256 / 4 = 2 ^ 2 * (b.toNat % 16)
  omega

/-- Two bits of a byte and four of the next one -/
theorem toNat_second :
    (((a <<< (8 - 2)) >>> 2) ||| (b >>> (2 + 2))).toNat = a.toNat % 4 * 16 + b.toNat / 16 := by
  have hb := b.toNat_lt
  have hlow : (b >>> (2 + 2)).toNat = b.toNat / 16 := by
    rw [UInt8.toNat_shiftRight, Nat.shiftRight_eq_div_pow]
    rfl
  rw [UInt8.toNat_or, toNat_two, hlow, or_eq_add 4 (by omega)]
  omega

/-- Four bits of a byte and two of the next one -/
theorem toNat_third :
    (((b <<< (8 - (2 + 2))) >>> 2) ||| (c >>> (2 + 2 + 2))).toNat = b.toNat % 16 * 4 + c.toNat / 64 := by
  have hc := c.toNat_lt
  have hlow : (c >>> (2 + 2 + 2)).toNat = c.toNat / 64 := by
    rw [UInt8.toNat_shiftRight, Nat.shiftRight_eq_div_pow]
    rfl
  rw [UInt8.toNat_or, toNat_four, hlow, or_eq_add 2 (by omega)]
  omega

/-- The last six bits of a byte -/
theorem toNat_fourth : ((c <<< (8 - (2 + 2 + 2))) >>> 2).toNat = c.toNat % 64 := by
  rw [UInt8.toNat_shiftRight, UInt8.toNat_shiftLeft, Nat.shiftRight_eq_div_pow, Nat.shiftLeft_eq]
  show c.toNat * 4 % 256 / 4 = c.toNat % 64
  omega

/-- Three bytes are four characters. -/
theorem encodeLoop_three :
    encodeLoop 2 0 size (a :: b :: c :: data) =
      { encodeLoop 2 0 (size + 1 + 1 + 1 + 1) data with
        text := [character (a.toNat / 4), character (a.toNat % 4 * 16 + b.toNat / 16),
          character (b.toNat % 16 * 4 + c.toNat / 64), character (c.toNat % 64)] ++
            (encodeLoop 2 0 (size + 1 + 1 + 1 + 1) data).text } := by
  rw [encodeLoop, if_neg (by decide), encodeLoop, if_neg (by decide), encodeLoop, if_pos (by decide)]
  dsimp only
  unfold encodeByte
  rw [toNat_first, toNat_second, toNat_third, toNat_fourth]
  rfl

theorem and_three_eq_zero_iff : size &&& 3 = 0 ↔ size.toNat % 4 = 0 := by
  rw [← UInt32.toNat_inj, UInt32.toNat_and]
  show size.toNat &&& (2 ^ 2 - 1) = 0 ↔ _
  rw [Nat.and_two_pow_sub_one_eq_mod]

/-- How many characters have been written matters modulo four. -/
theorem toNat_add_mod (k : UInt32) : (size + k).toNat % 4 = (size.toNat + k.toNat) % 4 := by
  rw [UInt32.toNat_add]
  omega

theorem finish_append (text : List UInt8) (encoded : Encoded) :
    Encoded.finish { encoded with text := text ++ encoded.text } = text ++ encoded.finish := by
  unfold Encoded.finish
  rw [List.append_assoc]

theorem finish_of_mod_zero {encoded : Encoded} (h : encoded.size.toNat % 4 = 0) : encoded.finish = encoded.text := by
  have hsize := and_three_eq_zero_iff.mpr h
  unfold Encoded.finish
  simp only [hsize, ne_eq, not_true_eq_false, if_false, List.append_nil]

theorem size_add {k : Nat} (h : size.toNat % 4 = k) : (size + 1).toNat % 4 = (k + 1) % 4 := by
  rw [toNat_add_mod]
  show (size.toNat + 1) % 4 = (k + 1) % 4
  omega

theorem finish_of_mod_two {encoded : Encoded} (h : encoded.size.toNat % 4 = 1) :
    encoded.finish = encoded.text ++ [encodeByte encoded.encodedByte, '='.toUInt8, '='.toUInt8] := by
  have h₁ : ¬ encoded.size &&& 3 = 0 := and_three_eq_zero_iff.not.mpr (by omega)
  have h₂ : ¬ (encoded.size + 1) &&& 3 = 0 := and_three_eq_zero_iff.not.mpr (by rw [size_add h]; decide)
  have h₃ : ¬ (encoded.size + 1 + 1) &&& 3 = 0 :=
    and_three_eq_zero_iff.not.mpr (by rw [size_add (size_add h)]; decide)
  unfold Encoded.finish
  simp only [h₁, h₂, h₃, ne_eq, not_false_eq_true, if_true, List.cons_append, List.nil_append]

theorem finish_of_mod_three {encoded : Encoded} (h : encoded.size.toNat % 4 = 2) :
    encoded.finish = encoded.text ++ [encodeByte encoded.encodedByte, '='.toUInt8] := by
  have h₁ : ¬ encoded.size &&& 3 = 0 := and_three_eq_zero_iff.not.mpr (by omega)
  have h₂ : ¬ (encoded.size + 1) &&& 3 = 0 := and_three_eq_zero_iff.not.mpr (by rw [size_add h]; decide)
  have h₃ : (encoded.size + 1 + 1) &&& 3 = 0 := and_three_eq_zero_iff.mpr (size_add (size_add h))
  unfold Encoded.finish
  simp only [h₁, h₂, h₃, ne_eq, not_false_eq_true, not_true_eq_false, if_true, if_false, List.cons_append,
    List.nil_append, List.append_nil]

/-- **The text** is the standard one. -/
theorem finish_encodeLoop (data : List UInt8) {size : UInt32} (h : size.toNat % 4 = 0) :
    (encodeLoop 2 0 size data).finish = base64 data := by
  induction data using base64.induct generalizing size with
  | case1 => exact finish_of_mod_zero h
  | case2 a =>
      have ha := a.toNat_lt
      have hloop : encodeLoop 2 0 size [a] =
          { text := [encodeByte ((0 : UInt8) ||| (a >>> 2))]
            encodedByte := (a <<< (8 - 2)) >>> 2
            size := size + 1 } := by
        rw [encodeLoop, if_neg (by decide), encodeLoop]
      rw [hloop, finish_of_mod_two (size_add h)]
      unfold encodeByte base64
      rw [toNat_first, toNat_two]
      dsimp only
      rw [show a.toNat * 2 ^ 16 / 2 ^ 18 = a.toNat / 4 by omega,
        show a.toNat * 2 ^ 16 / 2 ^ 12 % 64 = 2 ^ 4 * (a.toNat % 4) by omega]
      rfl
  | case3 a b =>
      have ha := a.toNat_lt
      have hb := b.toNat_lt
      have hloop : encodeLoop 2 0 size [a, b] =
          { text := [encodeByte ((0 : UInt8) ||| (a >>> 2)), encodeByte (((a <<< (8 - 2)) >>> 2) ||| (b >>> (2 + 2)))]
            encodedByte := (b <<< (8 - (2 + 2))) >>> 2
            size := size + 1 + 1 } := by
        rw [encodeLoop, if_neg (by decide), encodeLoop, if_neg (by decide), encodeLoop]
      rw [hloop, finish_of_mod_three (size_add (size_add h))]
      unfold encodeByte base64
      rw [toNat_first, toNat_second, toNat_four]
      dsimp only
      rw [show (a.toNat * 2 ^ 16 + b.toNat * 2 ^ 8) / 2 ^ 18 = a.toNat / 4 by omega,
        show (a.toNat * 2 ^ 16 + b.toNat * 2 ^ 8) / 2 ^ 12 % 64 = a.toNat % 4 * 16 + b.toNat / 16 by omega,
        show (a.toNat * 2 ^ 16 + b.toNat * 2 ^ 8) / 2 ^ 6 % 64 = 2 ^ 2 * (b.toNat % 16) by omega]
      rfl
  | case4 a b c data ih =>
      have ha := a.toNat_lt
      have hb := b.toNat_lt
      have hc := c.toNat_lt
      have hnext := ih (size_add (size_add (size_add (size_add h))))
      rw [encodeLoop_three, finish_append, hnext, base64]
      rw [show (a.toNat * 2 ^ 16 + b.toNat * 2 ^ 8 + c.toNat) / 2 ^ 18 = a.toNat / 4 by omega,
        show (a.toNat * 2 ^ 16 + b.toNat * 2 ^ 8 + c.toNat) / 2 ^ 12 % 64 = a.toNat % 4 * 16 + b.toNat / 16 by omega,
        show (a.toNat * 2 ^ 16 + b.toNat * 2 ^ 8 + c.toNat) / 2 ^ 6 % 64 = b.toNat % 16 * 4 + c.toNat / 64 by omega,
        show (a.toNat * 2 ^ 16 + b.toNat * 2 ^ 8 + c.toNat) % 64 = c.toNat % 64 by omega]
      rfl

end Writing

/-! ## What is read -/

section Reading

variable {i j k l : Nat} {w : UInt16} {bitIndex : UInt8} {room : Nat} {text : List UInt8}

/-- Six more bits -/
def shiftIn (w : UInt16) (i : Nat) : UInt16 := (w <<< 6) ||| (UInt8.ofNat i).toUInt16

theorem toNat_shiftIn (w : UInt16) (hi : i < 64) : (shiftIn w i).toNat = 2 ^ 6 * (w.toNat % 2 ^ 10) + i := by
  have hi' : (UInt8.ofNat i).toUInt16.toNat = i := by
    show i % 256 = i
    omega
  have hw : (w <<< 6).toNat = 2 ^ 6 * (w.toNat % 2 ^ 10) := by
    rw [UInt16.toNat_shiftLeft, Nat.shiftLeft_eq]
    show w.toNat * 64 % 65536 = 2 ^ 6 * (w.toNat % 2 ^ 10)
    omega
  rw [shiftIn, UInt16.toNat_or, hw, hi', or_eq_add 6 hi]

/-- Each of the characters has a position of its own in the table. -/
theorem decodeByte_character (hi : i < 64) : decodeByte (character i) = UInt8.ofNat i := by
  have htable : encodeTable.map UInt8.toNat =
      List.range' 65 26 ++ List.range' 97 26 ++ List.range' 48 10 ++ [43, 47] := by decide +kernel
  have hnodup : encodeTable.Nodup := .of_map UInt8.toNat (htable ▸ by decide)
  have hlt : i < encodeTable.length := by
    rw [← List.length_map UInt8.toNat, htable]
    exact hi
  rw [decodeByte, character, List.getD_eq_getElem?_getD, List.getElem?_eq_getElem hlt, Option.getD_some,
    hnodup.idxOf_getElem i hlt]

/-- The characters of the table are read. -/
theorem decodeByte_character_lt (hi : i < 64) : decodeByte (character i) < 64 := by
  rw [decodeByte_character hi, UInt8.lt_iff_toNat_lt]
  show i % 256 < 64
  omega

/-- Without room nothing is read. -/
theorem decodeLoop_zero : decodeLoop bitIndex w 0 text = { room := 0, bitIndex := bitIndex, remaining := text } := by
  cases text <;> rfl

/-- A character that completes a byte -/
theorem decodeLoop_byte (hi : i < 64) (hbits : bitIndex + 6 ≥ 8) :
    decodeLoop bitIndex w (room + 1) (character i :: text) =
      { decodeLoop (bitIndex + 6 - 8) (shiftIn w i) room text with
        data := (shiftIn w i >>> (bitIndex + 6 - 8).toUInt16).toUInt8 ::
          (decodeLoop (bitIndex + 6 - 8) (shiftIn w i) room text).data } := by
  rw [decodeLoop, if_pos (decodeByte_character_lt hi), decodeByte_character hi, if_pos hbits]
  rfl

/-- The first character does not complete a byte. -/
theorem decodeLoop_first (hi : i < 64) :
    decodeLoop 0 w (room + 1) (character i :: text) = decodeLoop 6 (shiftIn w i) (room + 1) text := by
  rw [decodeLoop, if_pos (decodeByte_character_lt hi), decodeByte_character hi, if_neg (by decide)]
  rfl

/-- The second one completes the first byte, and leaves four bits. -/
theorem decodeLoop_second (hi : i < 64) (hj : j < 64) :
    decodeLoop 6 (shiftIn w i) (room + 1) (character j :: text) =
      { decodeLoop 4 (shiftIn (shiftIn w i) j) room text with
        data := UInt8.ofNat (i * 4 + j / 16) :: (decodeLoop 4 (shiftIn (shiftIn w i) j) room text).data } := by
  have hbyte : (shiftIn (shiftIn w i) j >>> 4).toUInt8 = UInt8.ofNat (i * 4 + j / 16) := by
    rw [← UInt8.toNat_inj, UInt16.toNat_toUInt8, UInt16.toNat_shiftRight, Nat.shiftRight_eq_div_pow, toNat_shiftIn _ hj,
      toNat_shiftIn _ hi]
    show (2 ^ 6 * ((2 ^ 6 * (w.toNat % 2 ^ 10) + i) % 2 ^ 10) + j) / 16 % 256 = (i * 4 + j / 16) % 256
    omega
  rw [← hbyte]
  exact decodeLoop_byte hj (by decide)

/-- The third one completes the second byte, and leaves two bits. -/
theorem decodeLoop_third (hj : j < 64) (hk : k < 64) :
    decodeLoop 4 (shiftIn w j) (room + 1) (character k :: text) =
      { decodeLoop 2 (shiftIn (shiftIn w j) k) room text with
        data := UInt8.ofNat (j % 16 * 16 + k / 4) :: (decodeLoop 2 (shiftIn (shiftIn w j) k) room text).data } := by
  have hbyte : (shiftIn (shiftIn w j) k >>> 2).toUInt8 = UInt8.ofNat (j % 16 * 16 + k / 4) := by
    rw [← UInt8.toNat_inj, UInt16.toNat_toUInt8, UInt16.toNat_shiftRight, Nat.shiftRight_eq_div_pow, toNat_shiftIn _ hk,
      toNat_shiftIn _ hj]
    show (2 ^ 6 * ((2 ^ 6 * (w.toNat % 2 ^ 10) + j) % 2 ^ 10) + k) / 4 % 256 = (j % 16 * 16 + k / 4) % 256
    omega
  rw [← hbyte]
  exact decodeLoop_byte hk (by decide)

/-- The fourth one completes the third byte. -/
theorem decodeLoop_fourth (hk : k < 64) (hl : l < 64) :
    decodeLoop 2 (shiftIn w k) (room + 1) (character l :: text) =
      { decodeLoop 0 (shiftIn (shiftIn w k) l) room text with
        data := UInt8.ofNat (k % 4 * 64 + l) :: (decodeLoop 0 (shiftIn (shiftIn w k) l) room text).data } := by
  have hbyte : (shiftIn (shiftIn w k) l >>> 0).toUInt8 = UInt8.ofNat (k % 4 * 64 + l) := by
    rw [← UInt8.toNat_inj, UInt16.toNat_toUInt8, UInt16.toNat_shiftRight, Nat.shiftRight_eq_div_pow, toNat_shiftIn _ hl,
      toNat_shiftIn _ hk]
    show (2 ^ 6 * ((2 ^ 6 * (w.toNat % 2 ^ 10) + k) % 2 ^ 10) + l) / 1 % 256 = (k % 4 * 64 + l) % 256
    omega
  rw [← hbyte]
  exact decodeLoop_byte hl (by decide)

theorem readPadding_zero : readPadding 0 text = (text, false) := by
  cases text <;> rfl

/-- A padding character stands for two bits. -/
theorem readPadding_cons (h : bitIndex ≠ 0) :
    readPadding bitIndex ('='.toUInt8 :: text) = readPadding (bitIndex - 2) text := by
  rw [readPadding, if_pos h]
  rfl

/-- The loop has put `data` into a range of its size, and the padding up to `rest` follows. -/
structure Decoded.Complete (decoded : Decoded) (data rest : List UInt8) : Prop where
  data_eq : decoded.data = data
  room_eq : decoded.room = 0
  valid : decoded.invalid = false
  padding : readPadding decoded.bitIndex decoded.remaining = (rest, false)

/-- One more byte in front -/
theorem Decoded.Complete.cons {decoded : Decoded} {data rest : List UInt8} (h : decoded.Complete data rest)
    {byte a : UInt8} (ha : byte = a) :
    Decoded.Complete { decoded with data := byte :: decoded.data } (a :: data) rest where
  data_eq := by rw [h.data_eq, ha]
  room_eq := h.room_eq
  valid := h.valid
  padding := h.padding

/-- A byte is determined by the number that it is. -/
theorem ofNat_eq {n : Nat} {a : UInt8} (h : n = a.toNat) : UInt8.ofNat n = a := by rw [h, UInt8.ofNat_toNat]

/-- **The loop** reads standard text, whatever the word is at the beginning. -/
theorem decodeLoop_base64 (data rest : List UInt8) (w : UInt16) :
    (decodeLoop 0 w data.length (base64 data ++ rest)).Complete data rest := by
  induction data using base64.induct generalizing w with
  | case1 =>
      rw [base64, List.length_nil, decodeLoop_zero]
      exact { data_eq := rfl, room_eq := rfl, valid := rfl, padding := readPadding_zero }
  | case2 a =>
      have ha := a.toNat_lt
      have hi : a.toNat * 2 ^ 16 / 2 ^ 18 < 64 := by omega
      have hj : a.toNat * 2 ^ 16 / 2 ^ 12 % 64 < 64 := by omega
      rw [base64]
      dsimp only [List.length_singleton, List.cons_append]
      rw [@decodeLoop_first _ _ 0 _ hi, decodeLoop_second hi hj, decodeLoop_zero]
      refine Decoded.Complete.cons ?_ (ofNat_eq (by omega))
      have hpadding : readPadding 4 ('='.toUInt8 :: '='.toUInt8 :: rest) = (rest, false) := by
        rw [readPadding_cons (by decide), readPadding_cons (by decide)]
        exact readPadding_zero
      exact { data_eq := rfl, room_eq := rfl, valid := rfl, padding := hpadding }
  | case3 a b =>
      have ha := a.toNat_lt
      have hb := b.toNat_lt
      have hi : (a.toNat * 2 ^ 16 + b.toNat * 2 ^ 8) / 2 ^ 18 < 64 := by omega
      have hj : (a.toNat * 2 ^ 16 + b.toNat * 2 ^ 8) / 2 ^ 12 % 64 < 64 := by omega
      have hk : (a.toNat * 2 ^ 16 + b.toNat * 2 ^ 8) / 2 ^ 6 % 64 < 64 := by omega
      rw [base64]
      dsimp only [List.length_cons, List.length_nil, List.cons_append]
      rw [decodeLoop_first hi, decodeLoop_second hi hj, decodeLoop_third hj hk, decodeLoop_zero]
      refine Decoded.Complete.cons (Decoded.Complete.cons ?_ (ofNat_eq (by omega))) (ofNat_eq (by omega))
      have hpadding : readPadding 2 ('='.toUInt8 :: rest) = (rest, false) := by
        rw [readPadding_cons (by decide)]
        exact readPadding_zero
      exact { data_eq := rfl, room_eq := rfl, valid := rfl, padding := hpadding }
  | case4 a b c data ih =>
      have ha := a.toNat_lt
      have hb := b.toNat_lt
      have hc := c.toNat_lt
      have hi : (a.toNat * 2 ^ 16 + b.toNat * 2 ^ 8 + c.toNat) / 2 ^ 18 < 64 := by omega
      have hj : (a.toNat * 2 ^ 16 + b.toNat * 2 ^ 8 + c.toNat) / 2 ^ 12 % 64 < 64 := by omega
      have hk : (a.toNat * 2 ^ 16 + b.toNat * 2 ^ 8 + c.toNat) / 2 ^ 6 % 64 < 64 := by omega
      have hl : (a.toNat * 2 ^ 16 + b.toNat * 2 ^ 8 + c.toNat) % 64 < 64 := by omega
      rw [base64]
      dsimp only [List.length_cons, List.cons_append]
      rw [decodeLoop_first hi, decodeLoop_second hi hj, decodeLoop_third hj hk, decodeLoop_fourth hk hl]
      refine Decoded.Complete.cons (Decoded.Complete.cons (Decoded.Complete.cons (ih _) ?_) ?_) ?_
      all_goals exact ofNat_eq (by omega)

end Reading

/-! ## Both of them -/

/-- Standard text is read, up to where it ends. -/
theorem fromBase64_base64 (data rest : List UInt8) (s : TextInputStream) :
    TextInputStream.fromBase64 { s with remaining := base64 data ++ rest } data.length =
      (data, { s with remaining := rest }) := by
  have hloop := decodeLoop_base64 data rest 0
  unfold TextInputStream.fromBase64
  simp only [hloop.valid, hloop.data_eq, hloop.padding, hloop.room_eq, Bool.false_eq_true, if_false, ne_eq,
    not_true_eq_false, decide_false, Bool.or_false]

theorem length_base64 (data : List UInt8) : (base64 data).length = 4 * ((data.length + 2) / 3) := by
  induction data using base64.induct with
  | case1 => rfl
  | case2 | case3 => simp only [base64, List.length_cons, List.length_nil, Nat.reduceAdd, Nat.reduceDiv, Nat.reduceMul]
  | case4 a b c data ih =>
      rw [base64]
      dsimp only [List.length_cons]
      omega

/-- **Base64 makes a round trip**: the text that is written is the standard one for the data, with four characters for
every three bytes that it begins with, and it is read back into a range of the size of the data, up to its end, without
a failure, whatever follows it. -/
theorem base64_roundTrip (data : List UInt8) :
    asBase64 data = base64 data ∧
    (asBase64 data).length = 4 * ((data.length + 2) / 3) ∧
    ∀ (s : TextInputStream) (rest : List UInt8),
      TextInputStream.fromBase64 { s with remaining := asBase64 data ++ rest } data.length =
        (data, { s with remaining := rest }) := by
  have htext : asBase64 data = base64 data := finish_encodeLoop data rfl
  rw [htext]
  exact ⟨rfl, length_base64 data, fun s rest => fromBase64_base64 data rest s⟩

end EmbeddedInfra.TextStreams
