import EmbeddedInfra.Lib.CallTrees
import EmbeddedInfra.Infra.Util.TokenizerRuns

set_option autoImplicit false

/-! # Names in DNS replies

A name in a datagram consists of labels, each one behind its size, and ends with a zero byte or with a pointer to
a name that stands earlier in the datagram. `DnsResolver::ReplyParser` compares such names with its hostname and
with each other, and copies them. A datagram may come from anyone, so that pointers may lead anywhere: the loops
of the source are calls, which need not return.
-/

namespace EmbeddedInfra.DnsReplies

open CallTrees

/-! ## Reading -/

/-- The bytes of a datagram. `uninitialised` are the characters that are compared without having been read, in
their order. -/
structure Datagram where
  data : List UInt8
  uninitialised : Nat → UInt8

/-- The position of the reader, whether its stream has failed, and how many characters have been compared without
having been read. -/
structure Stream where
  position : Nat
  failed : Bool
  unread : Nat
  deriving DecidableEq, Repr

namespace Stream

variable (d : Datagram)

/-- A byte is read; at the end of the datagram the variable keeps its value. -/
def readByte (s : Stream) (value : UInt8) : UInt8 × Stream :=
  match d.data[s.position]? with
  | some byte => (byte, { s with position := s.position + 1 })
  | none => (value, { s with failed := true })

/-- A character is read into a variable that is not initialised. -/
def readChar (s : Stream) : UInt8 × Stream :=
  match d.data[s.position]? with
  | some c => (c, { s with position := s.position + 1 })
  | none => (d.uninitialised s.unread, { s with failed := true, unread := s.unread + 1 })

/-- The bytes that are there are read, into a range of zeros. -/
def readBytes (s : Stream) (size : Nat) : List UInt8 × Stream :=
  let data := (d.data.drop s.position).take size
  (data ++ List.replicate (size - data.length) 0,
    { s with position := s.position + data.length, failed := s.failed || data.length < size })

def consume (s : Stream) (amount : Nat) : Stream :=
  let available := d.data.length - s.position
  { s with position := s.position + min amount available, failed := s.failed || available < amount }

def rewind (s : Stream) (position : Nat) : Stream := { s with position := position }

end Stream

/-- The size of a label, or the first byte of a pointer. -/
def isPointer (size : UInt8) : Bool := size &&& 0xc0 == 0xc0

/-- The offset of a pointer with these two bytes. -/
def pointerOffset (size offsetLow : UInt8) : Nat := offsetLow.toNat + (size &&& 0x3f).toNat * 256

/-! ## The parts of a hostname -/

/-- `HostnamePartsString`, which is at a token of a string, and `HostnamePartsStream`, which has read a label of a
name in the datagram and goes on behind it. -/
inductive HostnameParts
  | string (hostname : BoundedString) (currentToken : Nat)
  | stream (streamPosition : Nat) (label : BoundedString)
  deriving DecidableEq, Repr

namespace HostnameParts

def current : HostnameParts → BoundedString
  | .string hostname currentToken => Tokenizer.Positions.token (char '.') hostname currentToken
  | .stream _ label => label

def empty : HostnameParts → Bool
  | .string hostname currentToken => currentToken = Tokenizer.Positions.size (char '.') hostname
  | .stream _ label => label.isEmpty

/-- The greatest size of a label. -/
def labelSize : Nat := 63

end HostnameParts

/-- `hostname.max_size()` -/
def hostnameSize : Nat := 253

/-- The loops: the one of `HostnamePartsStream::ReadNext`, behind the byte that it has read; the one of
`ReadAndMatchHostnameWithoutReference`, which `ReadAndMatchReferenceHostname` enters again; and the one of
`ReadCName`, which `ReadCNameReference` enters again. -/
inductive Loop
  | readNext (size : UInt8) (s : Stream)
  | matchHostname (size : UInt8) (result : Bool) (parts : HostnameParts) (s : Stream)
  | readCName (resourceSize : Nat) (partSize : UInt8) (hostname : BoundedString) (s : Stream)

@[reducible] def LoopResult : Loop → Type
  | .readNext .. => UInt8 × Stream
  | .matchHostname .. => Bool × HostnameParts × Stream
  | .readCName .. => BoundedString × Stream

/-- What the parser does. -/
abbrev Parser := Program Loop LoopResult

/-- The loop of `ReadNext`, with the size that it ends with. -/
def readNextLoop (size : UInt8) (s : Stream) : Parser (UInt8 × Stream) := ask (Loop.readNext size s)

/-- The loop with the result so far, which is entered with `true`. -/
def readAndMatchHostnameWithoutReference (size : UInt8) (result : Bool) (parts : HostnameParts) (s : Stream) :
    Parser (Bool × HostnameParts × Stream) := ask (Loop.matchHostname size result parts s)

/-- The loop with the size of the part that is being copied, which is entered with zero. -/
def readCName (resourceSize : Nat) (partSize : UInt8) (hostname : BoundedString) (s : Stream) :
    Parser (BoundedString × Stream) := ask (Loop.readCName resourceSize partSize hostname s)

variable (d : Datagram)

/-- `HostnamePartsStream::ReadNext`. Its stream is its own, and it rewinds the reader. -/
def readNext (streamPosition : Nat) : Parser HostnameParts :=
  if streamPosition = d.data.length then pure (.stream streamPosition [])
  else do
    let (size, s) := Stream.readByte d { position := streamPosition, failed := false, unread := 0 } 0
    let (size, s) ← readNextLoop size s
    if size.toNat ≤ HostnameParts.labelSize then
      let (label, s) := s.readBytes d size.toNat
      pure (.stream s.position label)
    else pure (.stream s.position [])

def HostnameParts.consumeCurrent : HostnameParts → Parser HostnameParts
  | .string hostname currentToken => pure (.string hostname (currentToken + 1))
  | .stream streamPosition _ => readNext d streamPosition

/-! ## Comparing -/

def tolower (c : UInt8) : UInt8 := if char 'A' ≤ c ∧ c ≤ char 'Z' then c + 32 else c

/-- The loop of `ReadAndMatchHostnamePart`, with what is left of the current part, and the number of characters
that are left to be read. -/
def matchCharacters : BoundedString → Nat → Stream → Bool × Stream
  | _, 0, s => (true, s)
  | [], left + 1, s => (false, s.consume d (left + 1))
  | expected :: current, left + 1, s =>
      let (c, s) := s.readChar d
      if tolower expected ≠ tolower c then (false, s.consume d left) else matchCharacters current left s

def readAndMatchHostnamePart (size : UInt8) (parts : HostnameParts) (s : Stream) : Bool × Stream :=
  if parts.empty || parts.current.length < size.toNat then (false, s.consume d size.toNat)
  else matchCharacters d parts.current size.toNat s

/-- `ReadAndMatchReferenceHostname`, behind the first byte of the pointer. What it leads to begins with the size of
a label. -/
def readAndMatchReferenceHostname (size : UInt8) (parts : HostnameParts) (s : Stream) :
    Parser (Bool × HostnameParts × Stream) :=
  let (offsetLow, s) := s.readByte d 0
  let offset := pointerOffset size offsetLow
  let currentPosition := s.position
  if currentPosition ≤ offset then pure (false, parts, s)
  else do
    let (size, s) := (s.rewind offset).readByte d 0
    let (result, parts, s) ← readAndMatchHostnameWithoutReference size true parts s
    pure (result, parts, s.rewind currentPosition)

def readAndMatchHostnameParts (parts : HostnameParts) (s : Stream) : Parser (Bool × HostnameParts × Stream) :=
  let (size, s) := s.readByte d 0
  if isPointer size then readAndMatchReferenceHostname d size parts s
  else readAndMatchHostnameWithoutReference size true parts s

def readAndMatchHostname (hostname : BoundedString) (s : Stream) : Parser (Bool × Stream) := do
  let (result, _, s) ← readAndMatchHostnameParts d (.string hostname 0) s
  pure (result, s)

/-! ## Copying -/

/-- `hostname.push_back`, which asserts that the hostname is not full. -/
def pushBack (hostname : BoundedString) (c : UInt8) : Parser BoundedString :=
  if hostname.length = hostnameSize then .undefined else pure (hostname ++ [c])

/-- `hostname.pop_back`, which asserts that the hostname is not empty. -/
def popBack (hostname : BoundedString) : Parser BoundedString :=
  if hostname.length = 0 then .undefined else pure hostname.dropLast

/-- `ReadCName(static_cast<uint16_t>(currentPosition) - offset)` for what a pointer leads to. -/
def readCNameReference (size : UInt8) (hostname : BoundedString) (s : Stream) : Parser (BoundedString × Stream) :=
  let (offsetLow, s) := s.readByte d 0
  let offset := pointerOffset size offsetLow
  let currentPosition := s.position
  if currentPosition > offset then do
    let resourceSize := (currentPosition % 2 ^ 16 + 2 ^ 16 - offset) % 2 ^ 16
    let (hostname, s) ← readCName resourceSize 0 hostname (s.rewind offset)
    pure (hostname, s.rewind currentPosition)
  else pure (hostname, s)

/-! ## The turns of the loops -/

def turn : (loop : Loop) → Parser (LoopResult loop)
  | .readNext size s =>
      if isPointer size then
        let (offsetLow, s) := s.readByte d 0
        let offset := pointerOffset size offsetLow
        if s.position ≤ offset then pure (0, s)
        else
          let (size, s) := (s.rewind offset).readByte d 0
          readNextLoop size s
      else pure (size, s)
  | .matchHostname size result parts s =>
      if size = 0 then
        let s := s.consume d 0
        pure (result && parts.empty && !s.failed, parts, s)
      else do
        let (matches', s) := readAndMatchHostnamePart d size parts s
        let result := result && matches'
        let parts ← if result then parts.consumeCurrent d else pure parts
        let (size, s) := s.readByte d 0
        if isPointer size then do
          let (matches', parts, s) ← readAndMatchReferenceHostname d size parts s
          pure (matches' && result, parts, s)
        else readAndMatchHostnameWithoutReference size result parts s
  | .readCName resourceSize partSize hostname s =>
      if resourceSize = 0 ∨ hostname.length = hostnameSize then pure (hostname, s)
      else if partSize = 0 then
        let (partSize, s) := s.readByte d 0
        if partSize = 0 then do
          let s := s.consume d (resourceSize - 1)
          let hostname ← if hostname ≠ [] then popBack hostname else pure hostname
          pure (hostname, s)
        else if isPointer partSize then readCNameReference d partSize hostname s
        else readCName (resourceSize - 1) partSize hostname s
      else do
        let (c, s) := s.readByte d (char ' ')
        let hostname ← pushBack hostname c
        let partSize := partSize - 1
        let hostname ← if partSize = 0 then pushBack hostname (char '.') else pure hostname
        readCName (resourceSize - 1) partSize hostname s

end EmbeddedInfra.DnsReplies
