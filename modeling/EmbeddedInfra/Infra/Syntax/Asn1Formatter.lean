import EmbeddedInfra.Infra.Stream.ByteStreams
import EmbeddedInfra.Infra.Syntax.Asn1
import Mathlib.Data.List.DropRight
import Mathlib.Data.Nat.Digits.Lemmas

set_option autoImplicit false

/-! # Formatting ASN.1

`infra::Asn1Formatter` writes values to a data stream. A container writes its tag and keeps a marker; when it
ends, the length of what was written since is inserted at the marker, so that the contents move. What is
written is compared with the distinguished encoding of a tree of values, and read back with the iterators of
`infra::Asn1Sequence`.
-/

namespace EmbeddedInfra.Asn1

open EmbeddedInfra.Streams

/-! ## The formatter -/

def addLength (w : ByteOutputStreamWriter) (length : UInt32) : ByteOutputStreamWriter :=
  if length > 0xFF then
    ((w.insert [0x82]).insert [((length &&& 0xFF00) >>> 8).toUInt8]).insert [(length &&& 0xFF).toUInt8]
  else if length > 0x7F then (w.insert [0x81]).insert [(length &&& 0xFF).toUInt8]
  else w.insert [(length &&& 0xFF).toUInt8]

def addTagLength (w : ByteOutputStreamWriter) (tag : UInt8) (length : UInt32) : ByteOutputStreamWriter :=
  addLength (w.insert [tag]) length

/-- `AddTagLengthValue` of a range -/
def addTagLengthValue (w : ByteOutputStreamWriter) (tag : UInt8) (length : UInt32) (value : List UInt8) :
    ByteOutputStreamWriter :=
  (addTagLength w tag length).insert value

/-- `Asn1Formatter::Tag` -/
inductive Tag
  | integer
  | bitString
  | null
  | oid
  | sequence
  | set
  | printableString
  | utcTime
  | generalizedTime
  | constructed
  | contextSpecific
deriving DecidableEq, Repr

def Tag.value : Tag → UInt8
  | .integer => 0x02
  | .bitString => 0x03
  | .null => 0x05
  | .oid => 0x06
  | .sequence => 0x10
  | .set => 0x11
  | .printableString => 0x13
  | .utcTime => 0x17
  | .generalizedTime => 0x18
  | .constructed => 0x20
  | .contextSpecific => 0x80

def addSerial (w : ByteOutputStreamWriter) (serial : List UInt8) : ByteOutputStreamWriter :=
  addTagLengthValue w Tag.integer.value (UInt32.ofNat serial.length) serial

/-- `AddBigNumber`, of a number with its least significant byte first -/
def addBigNumber (w : ByteOutputStreamWriter) (number : List UInt8) : ByteOutputStreamWriter :=
  let number := number.rdropWhile (· == 0)
  if number.getLast?.any (fun byte => byte &&& 0x80 != 0) then
    let w := addTagLength w Tag.integer.value (UInt32.ofNat (number.length + 1))
    number.reverse.foldl (fun w byte => w.insert [byte]) (w.insert [0x00])
  else
    let w := addTagLength w Tag.integer.value (UInt32.ofNat number.length)
    number.reverse.foldl (fun w byte => w.insert [byte]) w

def addObjectId (w : ByteOutputStreamWriter) (oid : List UInt8) : ByteOutputStreamWriter :=
  addTagLengthValue w Tag.oid.value (UInt32.ofNat oid.length) oid

/-- `AddBitString`; the byte before the string is the number of bits of padding -/
def addBitString (w : ByteOutputStreamWriter) (string : List UInt8) : ByteOutputStreamWriter :=
  ((addTagLength w Tag.bitString.value (UInt32.ofNat (string.length + 1))).insert [0x00]).insert string

def addPrintableString (w : ByteOutputStreamWriter) (string : List UInt8) : ByteOutputStreamWriter :=
  addTagLengthValue w Tag.printableString.value (UInt32.ofNat string.length) string

/-- The destructor of `Asn1ContainerFormatter`. The error policy of the saved stream asserts. -/
def finishContainer (w : ByteOutputStreamWriter) (sizeMarker : Nat) : Option ByteOutputStreamWriter :=
  let saved := addLength (w.saveState sizeMarker) (UInt32.ofNat (w.getProcessedBytesSince sizeMarker))
  if saved.failed then none else some (w.restoreState saved)

/-! ## Trees of values -/

inductive Leaf
  | serial (bytes : List UInt8)
  | bigNumber (number : List UInt8)
  | objectId (oid : List UInt8)
  | bitString (string : List UInt8)
  | printableString (string : List UInt8)
deriving DecidableEq, Repr

inductive Container
  | sequence
  | set
  | contextSpecific (context : UInt8)
deriving DecidableEq, Repr

mutual

inductive Tree
  | leaf (value : Leaf)
  | container (kind : Container) (children : Trees)

/-- Trees in a container, one at least. -/
inductive Trees
  | last (tree : Tree)
  | cons (tree : Tree) (rest : Trees)

end

def addLeaf (w : ByteOutputStreamWriter) : Leaf → ByteOutputStreamWriter
  | .serial bytes => addSerial w bytes
  | .bigNumber number => addBigNumber w number
  | .objectId oid => addObjectId w oid
  | .bitString string => addBitString w string
  | .printableString string => addPrintableString w string

/-- The tags that `StartSequence`, `StartSet` and `StartContextSpecific` write. -/
def Container.tag : Container → UInt8
  | .sequence => Tag.constructed.value ||| Tag.sequence.value
  | .set => Tag.constructed.value ||| Tag.set.value
  | .contextSpecific context => Tag.constructed.value ||| Tag.contextSpecific.value ||| context

mutual

/-- A tree is written, with a formatter of its own for each container. -/
def addTree (w : ByteOutputStreamWriter) : Tree → Option ByteOutputStreamWriter
  | .leaf value => some (addLeaf w value)
  | .container kind children => do
      let w := w.insert [kind.tag]
      let sizeMarker := w.constructSaveMarker
      let w ← addTrees w children
      finishContainer w sizeMarker

def addTrees (w : ByteOutputStreamWriter) : Trees → Option ByteOutputStreamWriter
  | .last tree => addTree w tree
  | .cons tree rest => do
      let w ← addTree w tree
      addTrees w rest

end

/-! ## The distinguished encoding -/

/-- The definite form of a length with as few bytes as possible. -/
def derLength (n : Nat) : List UInt8 :=
  if n < 128 then [UInt8.ofNat n]
  else
    let digits := (Nat.digits 256 n).reverse.map UInt8.ofNat
    UInt8.ofNat (0x80 + digits.length) :: digits

def Leaf.tag : Leaf → UInt8
  | .serial _ => 0x02
  | .bigNumber _ => 0x02
  | .objectId _ => 0x06
  | .bitString _ => 0x03
  | .printableString _ => 0x13

/-- A number that is not negative, with its most significant byte first and a sign bit of zero. -/
def bigEndian (number : List UInt8) : List UInt8 :=
  let digits := (number.rdropWhile (· == 0)).reverse
  if digits.head?.any (0x80 ≤ ·) then 0 :: digits else digits

def Leaf.contents : Leaf → List UInt8
  | .serial bytes => bytes
  | .bigNumber number => bigEndian number
  | .objectId oid => oid
  | .bitString string => 0 :: string
  | .printableString string => string

def Tree.tag : Tree → UInt8
  | .leaf value => value.tag
  | .container kind _ => kind.tag

mutual

def Tree.contents : Tree → List UInt8
  | .leaf value => value.contents
  | .container _ children => children.encode

def Trees.encode : Trees → List UInt8
  | .last tree => tree.tag :: (derLength tree.contents.length ++ tree.contents)
  | .cons tree rest => (tree.tag :: (derLength tree.contents.length ++ tree.contents)) ++ rest.encode

end

def Tree.encode (t : Tree) : List UInt8 := t.tag :: (derLength t.contents.length ++ t.contents)

mutual

/-- No leaf is empty, and no length needs more than two bytes. -/
def Tree.Valid : Tree → Prop
  | .leaf value => value.contents ≠ [] ∧ value.contents.length ≤ 65535
  | .container _ children => children.Valid ∧ children.encode.length ≤ 65535

def Trees.Valid : Trees → Prop
  | .last tree => tree.Valid
  | .cons tree rest => tree.Valid ∧ rest.Valid

end

/-! ## Reading a tree -/

/-- What is read: tags, contents and nesting. -/
inductive Node
  | leaf (tag : UInt8) (contents : List UInt8)
  | container (tag : UInt8) (children : List Node)

mutual

def Tree.node : Tree → Node
  | .leaf value => .leaf value.tag value.contents
  | .container kind children => .container kind.tag children.nodes

def Trees.nodes : Trees → List Node
  | .last tree => [tree.node]
  | .cons tree rest => tree.node :: rest.nodes

end

/-- A value is read, and the values in it when its tag is that of a container. -/
def readValue (atEnd : Asn1SequenceIterator → Bool) (memory : Memory) : Nat → Asn1Value → Option Node
  | 0, _ => none
  | steps + 1, value =>
      if value.tag &&& Tag.constructed.value = 0 then (value.range.bytes memory).map (Node.leaf value.tag)
      else do
        let it ← sequenceBegin memory value.range
        let values ← valuesUntil atEnd memory steps it
        let children ← values.mapM (readValue atEnd memory steps)
        return .container value.tag children

/-- All values of a range are read. -/
def readRange (atEnd : Asn1SequenceIterator → Bool) (memory : Memory) (range : ByteRange) (steps : Nat) :
    Option (List Node) := do
  let it ← sequenceBegin memory range
  let values ← valuesUntil atEnd memory steps it
  values.mapM (readValue atEnd memory steps)

/-- With room for it, a tree is written in the distinguished encoding, and what is written is read as this tree. -/
def RoundTrips (atEnd : Asn1SequenceIterator → Bool) (t : Tree) : Prop :=
  ∀ storage : List UInt8, t.encode.length ≤ storage.length →
    ∃ w, addTree (ByteOutputStreamWriter.ofMemory storage) t = some w ∧ w.failed = false ∧ w.processed = t.encode ∧
      ∀ memory address, Holds memory address w.processed →
        ∃ steps, readRange atEnd memory ⟨some address, some (address + w.processed.length)⟩ steps = some [t.node]

/-! ## Lengths -/

def shortestForm (n : Nat) : LengthForm := if n < 128 then .short else if n < 256 then .oneByte else .twoBytes

variable {n : Nat} {t : Tree} {memory : Memory}

theorem fits_shortestForm (h : n ≤ 65535) : (shortestForm n).fits n := by
  unfold shortestForm
  split
  · assumption
  · split
    · assumption
    · show n < 0x10000
      omega

/-- A length of two bytes at most is written in its shortest form. -/
theorem derLength_eq (h : n ≤ 65535) : derLength n = lengthBytes (shortestForm n) n := by
  unfold derLength shortestForm
  by_cases hshort : n < 128
  · rw [if_pos hshort, if_pos hshort, lengthBytes]
  · rw [if_neg hshort, if_neg hshort]
    by_cases hone : n < 256
    · rw [if_pos hone, Nat.digits_of_lt 256 n (by omega) hone]
      rfl
    · rw [if_neg hone, Nat.digits_of_two_le_of_pos (by omega) (by omega),
        Nat.digits_of_lt 256 (n / 256) (by omega) (by omega)]
      rfl

/-- The low byte of a length. -/
theorem lowByte_eq (n : Nat) : (UInt32.ofNat n &&& 0xFF).toUInt8 = UInt8.ofNat (n % 256) := by
  apply UInt8.toNat.inj
  rw [UInt32.toNat_toUInt8, UInt32.toNat_and, UInt32.toNat_ofNat', UInt8.toNat_ofNat']
  have hmask : (0xFF : UInt32).toNat = 2 ^ 8 - 1 := rfl
  rw [hmask, Nat.and_two_pow_sub_one_eq_mod]
  omega

theorem highByte_eq (h : n ≤ 65535) :
    ((UInt32.ofNat n &&& 0xFF00) >>> 8).toUInt8 = UInt8.ofNat (n / 256) := by
  apply UInt8.toNat.inj
  rw [UInt32.toNat_toUInt8, UInt32.toNat_shiftRight, UInt32.toNat_and, UInt32.toNat_ofNat', UInt8.toNat_ofNat']
  have hmask : (0xFF00 : UInt32).toNat = (2 ^ 8 - 1) <<< 8 := rfl
  have hshift : (8 : UInt32).toNat % 32 = 8 := rfl
  rw [hmask, hshift, Nat.shiftRight_and_distrib, Nat.shiftLeft_shiftRight, Nat.and_two_pow_sub_one_eq_mod,
    Nat.shiftRight_eq_div_pow]
  omega

/-- The bytes that `AddLength` writes one by one. -/
theorem addLength_eq (w : ByteOutputStreamWriter) (h : n ≤ 65535) :
    addLength w (UInt32.ofNat n) = (derLength n).foldl (fun w byte => w.insert [byte]) w := by
  have hgt : ∀ m : UInt32, UInt32.ofNat n > m ↔ m.toNat < n := by
    intro m
    rw [gt_iff_lt, UInt32.lt_iff_toNat_lt, UInt32.toNat_ofNat', Nat.mod_eq_of_lt (by omega)]
  have hff : (0xFF : UInt32).toNat = 255 := rfl
  have h7f : (0x7F : UInt32).toNat = 127 := rfl
  rw [derLength_eq h, addLength, shortestForm, lowByte_eq, highByte_eq h]
  simp only [hgt, hff, h7f]
  by_cases htwo : 255 < n
  · rw [if_pos htwo, if_neg (by omega), if_neg (by omega)]
    rfl
  · rw [if_neg htwo, Nat.mod_eq_of_lt (by omega)]
    by_cases hone : 127 < n
    · rw [if_pos hone, if_neg (by omega), if_pos (by omega)]
      rfl
    · rw [if_neg hone, if_pos (by omega)]
      rfl

/-! ## Writing -/

section Writing

variable {w : ByteOutputStreamWriter} {before text free after : List UInt8}

theorem writes_addLength (h : Writes w before text free after) (hn : n ≤ 65535)
    (hroom : (derLength n).length ≤ free.length) :
    ∃ free', (derLength n).length + free'.length = free.length ∧
      Writes (addLength w (UInt32.ofNat n)) before (text ++ derLength n) free' after := by
  rw [addLength_eq w hn]
  exact h.insertEach hroom

theorem writes_addTagLength (h : Writes w before text free after) (tag : UInt8) (hn : n ≤ 65535)
    (hroom : (tag :: derLength n).length ≤ free.length) :
    ∃ free', (tag :: derLength n).length + free'.length = free.length ∧
      Writes (addTagLength w tag (UInt32.ofNat n)) before (text ++ (tag :: derLength n)) free' after := by
  rw [List.length_cons] at hroom ⊢
  obtain ⟨free₁, hfree₁, hw₁⟩ := h.insert_of_le [tag] (by rw [List.length_singleton]; omega)
  rw [List.length_singleton] at hfree₁
  obtain ⟨free₂, hfree₂, hw₂⟩ := writes_addLength hw₁ hn (by omega)
  refine ⟨free₂, by omega, ?_⟩
  rw [List.append_assoc, List.singleton_append] at hw₂
  exact hw₂

/-- A tag, a length and what comes behind it in one or more pieces. -/
theorem writes_pieces (h : Writes w before text free after) (tag : UInt8) (pieces : List (List UInt8))
    (hn : pieces.flatten.length ≤ 65535)
    (hroom : (tag :: (derLength pieces.flatten.length ++ pieces.flatten)).length ≤ free.length) :
    ∃ free', (tag :: (derLength pieces.flatten.length ++ pieces.flatten)).length + free'.length = free.length ∧
      Writes (pieces.foldl ByteOutputStreamWriter.insert (addTagLength w tag (UInt32.ofNat pieces.flatten.length)))
        before (text ++ (tag :: (derLength pieces.flatten.length ++ pieces.flatten))) free' after := by
  rw [← List.cons_append, List.length_append] at hroom ⊢
  obtain ⟨free₁, hfree₁, hw₁⟩ := writes_addTagLength h tag hn (by omega)
  have hpieces : pieces.flatten.length ≤ free₁.length := by omega
  obtain ⟨free₂, hfree₂, hw₂⟩ := hw₁.insertAll hpieces
  refine ⟨free₂, by omega, ?_⟩
  rw [List.append_assoc] at hw₂
  exact hw₂

theorem signBit_eq (byte : UInt8) : (byte &&& 0x80 != 0) = decide (0x80 ≤ byte) := by
  rcases byte with ⟨bits⟩
  revert bits
  decide

/-- The pieces that a leaf is written in, behind its tag and its length. -/
def Leaf.pieces : Leaf → List (List UInt8)
  | .serial bytes => [bytes]
  | .bigNumber number => (bigEndian number).map fun byte => [byte]
  | .objectId oid => [oid]
  | .bitString string => [[0], string]
  | .printableString string => [string]

theorem Leaf.flatten_pieces (leaf : Leaf) : leaf.pieces.flatten = leaf.contents := by
  cases leaf with
  | bigNumber number =>
      show ((bigEndian number).map fun byte => [byte]).flatten = bigEndian number
      rw [← List.flatMap_def, List.flatMap_singleton']
  | _ => simp [Leaf.pieces, Leaf.contents]

theorem addLeaf_eq (w : ByteOutputStreamWriter) (leaf : Leaf) :
    addLeaf w leaf = leaf.pieces.foldl ByteOutputStreamWriter.insert
      (addTagLength w leaf.tag (UInt32.ofNat leaf.contents.length)) := by
  cases leaf with
  | bigNumber number =>
      show addBigNumber w number = ((bigEndian number).map fun byte => [byte]).foldl ByteOutputStreamWriter.insert
        (addTagLength w 0x02 (UInt32.ofNat (bigEndian number).length))
      have hhead : ((number.rdropWhile (· == 0)).reverse.head?.any fun byte => decide (0x80 ≤ byte))
          = (number.rdropWhile (· == 0)).getLast?.any fun byte => byte &&& 0x80 != 0 := by
        rw [List.head?_reverse]
        cases (number.rdropWhile (· == 0)).getLast? with
        | none => rfl
        | some byte => exact (signBit_eq byte).symm
      rw [addBigNumber, bigEndian, hhead, List.foldl_map]
      dsimp only
      split
      · rw [List.length_cons, List.length_reverse]
        rfl
      · rw [List.length_reverse]
        rfl
  | _ => rfl

/-- **A leaf is written in the distinguished encoding.** -/
theorem writes_addLeaf (h : Writes w before text free after) {leaf : Leaf} (hn : leaf.contents.length ≤ 65535)
    (hroom : (Tree.leaf leaf).encode.length ≤ free.length) :
    ∃ free', (Tree.leaf leaf).encode.length + free'.length = free.length ∧
      Writes (addLeaf w leaf) before (text ++ (Tree.leaf leaf).encode) free' after := by
  have hwrites := writes_pieces h leaf.tag leaf.pieces
  rw [leaf.flatten_pieces] at hwrites
  rw [addLeaf_eq]
  exact hwrites hn hroom

/-- **The length is inserted before the contents of a container.** -/
theorem writes_finishContainer {contents : List UInt8} (h : Writes w before (text ++ contents) free after)
    (hn : contents.length ≤ 65535) (hroom : (derLength contents.length).length ≤ free.length) :
    ∃ w' free', finishContainer w text.length = some w' ∧
      (derLength contents.length).length + free'.length = free.length ∧
      Writes w' before (text ++ (derLength contents.length ++ contents)) free' after := by
  have hprocessed : w.getProcessedBytesSince text.length = contents.length := by
    rw [ByteOutputStreamWriter.getProcessedBytesSince, h.offset, List.length_append, Nat.add_sub_cancel_left]
  obtain ⟨gap, hgap, hsaved⟩ := h.saveState
  obtain ⟨gap', hgap', hlength⟩ := writes_addLength hsaved hn (by omega)
  rw [List.nil_append] at hlength
  obtain ⟨free', hfree', hw'⟩ := h.restoreState rfl (by omega) hlength
  rw [List.append_assoc] at hw'
  refine ⟨_, free', ?_, by omega, hw'⟩
  unfold finishContainer
  rw [hprocessed]
  simp only [hlength.failed, Bool.false_eq_true, if_false]

end Writing

mutual

/-- **A tree is written in the distinguished encoding.** -/
theorem writes_addTree {w : ByteOutputStreamWriter} {before text free after : List UInt8} (t : Tree)
    (hvalid : t.Valid) (h : Writes w before text free after) (hroom : t.encode.length ≤ free.length) :
    ∃ w' free', addTree w t = some w' ∧ t.encode.length + free'.length = free.length ∧
      Writes w' before (text ++ t.encode) free' after := by
  cases t with
  | leaf value =>
      obtain ⟨free', hfree', hw'⟩ := writes_addLeaf h hvalid.2 hroom
      exact ⟨_, free', by rw [addTree], hfree', hw'⟩
  | container kind children =>
      obtain ⟨hchildren, hsize⟩ := hvalid
      have hencode : (Tree.container kind children).encode
          = kind.tag :: (derLength children.encode.length ++ children.encode) := rfl
      rw [hencode, List.length_cons, List.length_append] at hroom ⊢
      obtain ⟨free₁, hfree₁, hw₁⟩ := h.insert_of_le [kind.tag] (by rw [List.length_singleton]; omega)
      rw [List.length_singleton] at hfree₁
      obtain ⟨w₂, free₂, hput₂, hfree₂, hw₂⟩ := writes_addTrees children hchildren hw₁ (by omega)
      obtain ⟨w₃, free₃, hput₃, hfree₃, hw₃⟩ := writes_finishContainer hw₂ hsize (by omega)
      rw [List.append_assoc, List.singleton_append] at hw₃
      refine ⟨w₃, free₃, ?_, by omega, hw₃⟩
      rw [addTree, show (w.insert [kind.tag]).constructSaveMarker = (text ++ [kind.tag]).length from hw₁.offset]
      simp only [hput₂, Option.bind_eq_bind, Option.bind_some, hput₃]

theorem writes_addTrees {w : ByteOutputStreamWriter} {before text free after : List UInt8} (ts : Trees)
    (hvalid : ts.Valid) (h : Writes w before text free after) (hroom : ts.encode.length ≤ free.length) :
    ∃ w' free', addTrees w ts = some w' ∧ ts.encode.length + free'.length = free.length ∧
      Writes w' before (text ++ ts.encode) free' after := by
  cases ts with
  | last tree =>
      obtain ⟨w', free', hput, hfree', hw'⟩ := writes_addTree tree hvalid h hroom
      exact ⟨w', free', by rw [addTrees, hput], hfree', hw'⟩
  | cons tree rest =>
      have hencode : (Trees.cons tree rest).encode = tree.encode ++ rest.encode := rfl
      rw [hencode, List.length_append] at hroom ⊢
      obtain ⟨w₁, free₁, hput₁, hfree₁, hw₁⟩ := writes_addTree tree hvalid.1 h (by omega)
      obtain ⟨w₂, free₂, hput₂, hfree₂, hw₂⟩ := writes_addTrees rest hvalid.2 hw₁ (by omega)
      rw [List.append_assoc] at hw₂
      refine ⟨w₂, free₂, ?_, by omega, hw₂⟩
      rw [addTrees, hput₁]
      exact hput₂

end

/-! ## Reading -/

theorem Leaf.tag_primitive (leaf : Leaf) : leaf.tag &&& Tag.constructed.value = 0 := by
  cases leaf with
  | objectId _ => exact (by decide : (0x06 : UInt8) &&& 0x20 = 0)
  | bitString _ => exact (by decide : (0x03 : UInt8) &&& 0x20 = 0)
  | printableString _ => exact (by decide : (0x13 : UInt8) &&& 0x20 = 0)
  | _ => exact (by decide : (0x02 : UInt8) &&& 0x20 = 0)

theorem Container.tag_constructed (kind : Container) : kind.tag &&& Tag.constructed.value ≠ 0 := by
  cases kind with
  | contextSpecific context =>
      rcases context with ⟨bits⟩
      revert bits
      decide
  | _ => decide

theorem Tree.Valid.length_le (h : t.Valid) : t.contents.length ≤ 65535 := by
  cases t with
  | leaf value => exact h.2
  | container kind children => exact h.2

theorem Trees.encode_ne (ts : Trees) : ts.encode ≠ [] := by
  cases ts <;> simp [Trees.encode]

theorem Tree.Valid.contents_ne (h : t.Valid) : t.contents ≠ [] := by
  cases t with
  | leaf value => exact h.1
  | container kind children => exact children.encode_ne

/-- A tree as an element of a sequence. -/
def Tree.element (t : Tree) (h : t.Valid) : Element :=
  ⟨t.tag, shortestForm t.contents.length, t.contents, fits_shortestForm h.length_le⟩

theorem Tree.encode_element (h : t.Valid) : (t.element h).encode = t.encode := by
  rw [Element.encode, Element.header, Tree.encode, derLength_eq h.length_le]
  rfl

def Trees.elements : (ts : Trees) → ts.Valid → List Element
  | .last tree, h => [tree.element h]
  | .cons tree rest, h => tree.element h.1 :: rest.elements h.2

theorem Trees.elements_encode : (ts : Trees) → (h : ts.Valid) → (ts.elements h).flatMap Element.encode = ts.encode
  | .last tree, h => by
      rw [Trees.elements, List.flatMap_singleton]
      exact Tree.encode_element (t := tree) h
  | .cons tree rest, h => by
      rw [Trees.elements, List.flatMap_cons, Tree.encode_element, Trees.elements_encode rest h.2]
      rfl

theorem Trees.elements_contents : (ts : Trees) → (h : ts.Valid) → ∀ x ∈ ts.elements h, x.contents ≠ []
  | .last tree, h => by
      intro x hx
      rw [Trees.elements, List.mem_singleton] at hx
      rw [hx]
      exact Tree.Valid.contents_ne h
  | .cons tree rest, h => by
      intro x hx
      rcases List.mem_cons.mp hx with rfl | hx
      · exact Tree.Valid.contents_ne h.1
      · exact Trees.elements_contents rest h.2 x hx

theorem Trees.exists_elements (ts : Trees) (h : ts.Valid) : ∃ x elements, ts.elements h = x :: elements := by
  cases ts with
  | last tree => exact ⟨_, _, rfl⟩
  | cons tree rest => exact ⟨_, _, rfl⟩

section Reading

variable {memory : Memory} {atEnd : Asn1SequenceIterator → Bool}

theorem holds_of_bytesFrom {address : Nat} {bytes : List UInt8}
    (h : ByteRange.bytesFrom memory address n = some bytes) : bytes.length = n ∧ Holds memory address bytes := by
  induction n generalizing bytes with
  | zero =>
      cases h
      exact ⟨rfl, trivial⟩
  | succ n ih =>
      obtain ⟨first, hfirst, h⟩ := Option.bind_eq_some_iff.mp h
      obtain ⟨byte, hbyte, h⟩ := Option.bind_eq_some_iff.mp h
      cases h
      obtain ⟨hlength, hholds⟩ := ih hfirst
      refine ⟨by rw [List.length_append, List.length_singleton, hlength], holds_append.mpr ⟨hholds, ?_, trivial⟩⟩
      rwa [hlength]

/-- Bytes that could be read are in memory, and the range is that of them. -/
theorem holds_of_bytes {range : ByteRange} {bytes : List UInt8} (h : range.bytes memory = some bytes)
    (hne : bytes ≠ []) :
    ∃ address, range = ⟨some address, some (address + bytes.length)⟩ ∧ Holds memory address bytes := by
  obtain ⟨first, last⟩ := range
  obtain ⟨address, rfl, hbytes⟩ := Option.bind_eq_some_iff.mp h
  obtain ⟨hlength, hholds⟩ := holds_of_bytesFrom hbytes
  have hpos := List.length_pos_iff.mpr hne
  refine ⟨address, ?_, hholds⟩
  rw [hlength] at hpos ⊢
  cases last with
  | none => simp [ByteRange.size] at hpos
  | some last =>
      simp only [ByteRange.size, Option.getD_some] at hpos ⊢
      congr
      omega

theorem valuesUntil_mono {it : Asn1SequenceIterator} {steps : Nat} {values : List Asn1Value}
    (h : valuesUntil atEnd memory steps it = some values) {more : Nat} (hmore : steps ≤ more) :
    valuesUntil atEnd memory more it = some values := by
  induction steps generalizing it values more with
  | zero => cases h
  | succ steps ih =>
      obtain ⟨more, rfl⟩ : ∃ k, more = k + 1 := ⟨more - 1, by omega⟩
      rw [valuesUntil] at h ⊢
      split at h
      case isTrue hend => rwa [if_pos hend]
      case isFalse hend =>
        rw [if_neg hend]
        obtain ⟨next, hnext, h⟩ := Option.bind_eq_some_iff.mp h
        obtain ⟨rest, hrest, h⟩ := Option.bind_eq_some_iff.mp h
        simp only [hnext, ih hrest (show steps ≤ more by omega), Option.bind_eq_bind, Option.bind_some]
        exact h

/-- All values of a range are read, when those that an iteration visits are. -/
theorem readRange_eq (ts : Trees) (h : ts.Valid) {address : Nat} (hholds : Holds memory address ts.encode)
    (hvalues : ∀ values, List.Forall₂ (Shows memory) values (ts.elements h) →
      ∃ n, ∀ m, n ≤ m → values.mapM (readValue (fun it => it.range.empty) memory m) = some ts.nodes) :
    ∃ n, ∀ m, n ≤ m → readRange (fun it => it.range.empty) memory
      ⟨some address, some (address + ts.encode.length)⟩ m = some ts.nodes := by
  obtain ⟨x, elements, helements⟩ := ts.exists_elements h
  have hencode := ts.elements_encode h
  have hcontents := ts.elements_contents h
  rw [helements, List.flatMap_cons] at hencode
  rw [helements] at hcontents hvalues
  rw [← hencode] at hholds ⊢
  obtain ⟨values, hvisit, hshows⟩ := valuesUntil_empty hholds hcontents
  obtain ⟨n, hread⟩ := hvalues values hshows
  refine ⟨max n (elements.length + 2), ?_⟩
  intro m hm
  rw [readRange, sequenceBegin, create_eq hholds]
  simp only [Option.bind_eq_bind, Option.bind_some, valuesUntil_mono hvisit (show elements.length + 2 ≤ m by omega)]
  exact hread m (by omega)

theorem readValue_container {value : Asn1Value} (htag : value.tag &&& Tag.constructed.value ≠ 0) (steps : Nat) :
    readValue atEnd memory (steps + 1) value
      = (readRange atEnd memory value.range steps).map (Node.container value.tag) := by
  rw [readValue, if_neg htag, readRange]
  cases sequenceBegin memory value.range with
  | none => rfl
  | some it =>
      simp only [Option.bind_eq_bind, Option.bind_some]
      cases valuesUntil atEnd memory steps it with
      | none => rfl
      | some values =>
          simp only [Option.bind_some]
          cases values.mapM (readValue atEnd memory steps) <;> rfl

end Reading

mutual

/-- **A tree is read** from a value with its tag and its contents. -/
theorem readValue_eq (t : Tree) (h : t.Valid) {value : Asn1Value}
    (hvalue : Shows memory value (t.element h)) :
    ∃ n, ∀ m, n ≤ m → readValue (fun it => it.range.empty) memory m value = some t.node := by
  obtain ⟨htag, hbytes⟩ := hvalue
  cases t with
  | leaf leaf =>
      refine ⟨1, ?_⟩
      intro m hm
      obtain ⟨m, rfl⟩ : ∃ k, m = k + 1 := ⟨m - 1, by omega⟩
      have htag' : value.tag = leaf.tag := htag
      rw [readValue, htag', if_pos leaf.tag_primitive, hbytes]
      rfl
  | container kind children =>
      obtain ⟨address, hrange, hholds⟩ := holds_of_bytes hbytes children.encode_ne
      obtain ⟨n, hread⟩ := readRange_eq children h.1 hholds fun values hvalues => mapM_readValue_eq children h.1 hvalues
      refine ⟨n + 1, ?_⟩
      intro m hm
      obtain ⟨m, rfl⟩ : ∃ k, m = k + 1 := ⟨m - 1, by omega⟩
      have htag' : value.tag = kind.tag := htag
      rw [readValue_container (by rw [htag']; exact kind.tag_constructed), hrange, htag']
      rw [show (Tree.element (.container kind children) h).contents = children.encode from rfl, hread m (by omega)]
      rfl

theorem mapM_readValue_eq (ts : Trees) (h : ts.Valid) {values : List Asn1Value}
    (hvalues : List.Forall₂ (Shows memory) values (ts.elements h)) :
    ∃ n, ∀ m, n ≤ m → values.mapM (readValue (fun it => it.range.empty) memory m) = some ts.nodes := by
  cases ts with
  | last tree =>
      cases hvalues with
      | cons hvalue hrest =>
          cases hrest
          obtain ⟨n, hread⟩ := readValue_eq tree h hvalue
          refine ⟨n, ?_⟩
          intro m hm
          rw [List.mapM_cons, hread m hm]
          rfl
  | cons tree rest =>
      cases hvalues with
      | cons hvalue hrest =>
          obtain ⟨n₁, hread₁⟩ := readValue_eq tree h.1 hvalue
          obtain ⟨n₂, hread₂⟩ := mapM_readValue_eq rest h.2 hrest
          refine ⟨max n₁ n₂, ?_⟩
          intro m hm
          rw [List.mapM_cons, hread₁ m (by omega), hread₂ m (by omega)]
          rfl

end

/-! ## The round trip -/

theorem readRange_atSequenceEnd {range : ByteRange} (h : range.endElement ≠ none) (steps : Nat) :
    readRange atSequenceEnd memory range steps = none := by
  cases hbegin : sequenceBegin memory range with
  | none => rw [readRange, hbegin]; rfl
  | some it =>
      have hend : it.range.endElement ≠ none := by
        obtain ⟨value, -, rfl⟩ := Option.map_eq_some_iff.mp hbegin
        exact h
      rw [readRange, hbegin]
      simp only [Option.bind_eq_bind, Option.bind_some, valuesUntil_atSequenceEnd hend]
      rfl

theorem holds_memoryOf (bytes : List UInt8) : Holds (memoryOf bytes) 0 bytes := by
  have hholds : ∀ rest front, bytes = front ++ rest → Holds (memoryOf bytes) front.length rest := by
    intro rest
    induction rest with
    | nil => exact fun _ _ => trivial
    | cons byte rest ih =>
        intro front hbytes
        refine ⟨by simp [memoryOf, hbytes], ?_⟩
        have hrest := ih (front ++ [byte]) (by simp [hbytes])
        rwa [List.length_append, List.length_singleton] at hrest
  exact hholds bytes [] rfl

theorem not_roundTrips (t : Tree) : ¬ RoundTrips atSequenceEnd t := by
  intro h
  obtain ⟨w, -, -, -, hread⟩ := h t.encode le_rfl
  obtain ⟨steps, hsteps⟩ := hread (memoryOf w.processed) 0 (holds_memoryOf w.processed)
  rw [readRange_atSequenceEnd (by simp)] at hsteps
  cases hsteps

/-- **A tree is written in the distinguished encoding**, and the increments of the iterators lead through all of
it, but an iteration from the begin to the end of each sequence never reads it. -/
theorem asn1Formatter_round_trip (t : Tree) (hvalid : t.Valid) :
    RoundTrips (fun it => it.range.empty) t ∧ ¬ RoundTrips atSequenceEnd t := by
  refine ⟨?_, not_roundTrips t⟩
  intro storage hroom
  obtain ⟨w, free, hadd, -, hw⟩ := writes_addTree t hvalid (Writes.ofMemory storage) hroom
  have hprocessed : w.processed = t.encode := hw.processed
  refine ⟨w, hadd, hw.failed, hprocessed, ?_⟩
  rw [hprocessed]
  intro memory address hholds
  obtain ⟨n, hread⟩ := readRange_eq (.last t) hvalid hholds fun values hvalues =>
    mapM_readValue_eq (.last t) hvalid hvalues
  exact ⟨n, hread n le_rfl⟩

/-- A sequence of an integer of three bytes, and a set with a string. -/
def sampleTree : Tree :=
  .container .sequence (.cons (.leaf (.bigNumber [0x01, 0x02, 0x80, 0x00]))
    (.last (.container .set (.last (.leaf (.printableString [0x41]))))))

theorem asn1Formatter_round_trip_sample :
    RoundTrips (fun it => it.range.empty) sampleTree ∧ ¬ RoundTrips atSequenceEnd sampleTree := by
  apply asn1Formatter_round_trip
  exact ⟨⟨⟨by decide, by decide⟩, ⟨by decide, by decide⟩, by decide⟩, by decide⟩

/-- A sequence of one integer. -/
theorem asn1Formatter_no_round_trip_integer :
    (addTree (ByteOutputStreamWriter.ofMemory [0, 0, 0, 0, 0])
      (.container .sequence (.last (.leaf (.serial [0xab]))))).map (·.memory) = some [0x30, 0x03, 0x02, 0x01, 0xab] ∧
    (Tree.container .sequence (.last (.leaf (.serial [0xab])))).Valid ∧
    ¬ RoundTrips atSequenceEnd (.container .sequence (.last (.leaf (.serial [0xab])))) := by
  refine ⟨by decide, ?_, not_roundTrips _⟩
  exact ⟨⟨by decide, by decide⟩, by decide⟩

end EmbeddedInfra.Asn1
