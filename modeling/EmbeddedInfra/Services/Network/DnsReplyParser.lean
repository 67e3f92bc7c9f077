import EmbeddedInfra.Services.Network.DnsNameEnds
import EmbeddedInfra.Services.Network.DnsQuery

set_option autoImplicit false

/-! # DNS replies

`DnsResolver::DataReceived`, with its `ReplyParser`, up to what the resolver goes on with.
-/

namespace EmbeddedInfra.DnsReplies

open CallTrees Relation

/-! ## Records -/

/-- The values of `BigEndian<uint16_t>` in the bytes. -/
def bigEndianFields : List UInt8 → List UInt16
  | high :: low :: bytes => (high.toUInt16 <<< 8 ||| low.toUInt16) :: bigEndianFields bytes
  | _ => []

structure QueryHeader where
  id : UInt16
  flags : UInt16
  questionsCount : UInt16
  answersCount : UInt16
  nameServersCount : UInt16
  additionalRecordsCount : UInt16

def flagsResponse : UInt16 := 0x8000

def flagsErrorMask : UInt16 := 0x000f

structure QuestionFooter where
  type : UInt16
  class_ : UInt16

structure ResourceInner where
  type : UInt16
  class_ : UInt16
  resourceDataLength : UInt16

def typeNameServer : UInt16 := 2

def typeCName : UInt16 := 5

namespace ResourceInner

def isCName (resource : ResourceInner) : Bool := resource.class_ = classIn ∧ resource.type = typeCName

def isIPv4Answer (resource : ResourceInner) : Bool :=
  resource.class_ = classIn ∧ resource.type = typeA ∧ resource.resourceDataLength = 4

def isNameServer (resource : ResourceInner) : Bool := resource.class_ = classIn ∧ resource.type = typeNameServer

end ResourceInner

/-- The bytes of an `IPv4Address`, and the words of an `IPv6Address`. -/
inductive IPAddress
  | ipv4 (address : List UInt8)
  | ipv6 (address : List UInt16)
  deriving DecidableEq

inductive Answer
  | answer (address : IPAddress)
  | cName
  | noAnswer

/-- The largest number of recursive servers: `maxAttempts`. -/
def maxAttempts : Nat := 3

/-- What the resolver goes on with. -/
inductive Received
  | nothing
  | resolveNextAttempt
  | nameLookupSuccess (address : IPAddress)
  | resolveRecursion (recursiveDnsServers : List IPAddress)

/-! ## The parser -/

structure ReplyParser where
  stream : Stream
  hostname : BoundedString
  recurse : Bool
  header : QueryHeader
  footer : QuestionFooter
  hostnameMatches : Bool

variable (d : Datagram)

def readHeader (s : Stream) : QueryHeader × Stream :=
  let (bytes, s) := s.readBytes d 12
  let field (i : Nat) := (bigEndianFields bytes)[i]?.getD 0
  ({ id := field 0
     flags := field 1
     questionsCount := field 2
     answersCount := field 3
     nameServersCount := field 4
     additionalRecordsCount := field 5 }, s)

def readFooter (s : Stream) : QuestionFooter × Stream :=
  let (bytes, s) := s.readBytes d 4
  let field (i : Nat) := (bigEndianFields bytes)[i]?.getD 0
  ({ type := field 0, class_ := field 1 }, s)

/-- The third and the fourth field are the time to live. -/
def readResourceInner (s : Stream) : ResourceInner × Stream :=
  let (bytes, s) := s.readBytes d 10
  let field (i : Nat) := (bigEndianFields bytes)[i]?.getD 0
  ({ type := field 0, class_ := field 1, resourceDataLength := field 4 }, s)

/-- An address, if the stream has not failed. -/
def readIPv4Address (s : Stream) : Option IPAddress × Stream :=
  let (address, s) := s.readBytes d 4
  (if s.failed then none else some (.ipv4 address), s)

/-- The constructor. -/
def replyParser (hostname : BoundedString) : Parser ReplyParser := do
  let (header, s) := readHeader d { position := 0, failed := false, unread := 0 }
  let (hostnameMatches, s) ← readAndMatchHostname d hostname s
  let (footer, s) := readFooter d s
  pure
    { stream := s
      hostname := hostname
      recurse := false
      header := header
      footer := footer
      hostnameMatches := hostnameMatches }

namespace ReplyParser

/-- Only replies of the DNS server that the query has been sent to are accepted. -/
def answerIsForCurrentQuery (p : ReplyParser) (source currentDnsServer : IPAddress) (queryId : UInt16) : Bool :=
  source = currentDnsServer ∧ p.header.flags &&& flagsResponse ≠ 0 ∧ p.header.questionsCount = 1 ∧
    p.header.id = queryId ∧ p.hostnameMatches ∧ p.footer.type = typeA ∧ p.footer.class_ = classIn

def error (p : ReplyParser) : Bool := p.header.flags &&& flagsErrorMask ≠ 0

def readAnswer (p : ReplyParser) : Parser (Answer × ReplyParser) := do
  let (hostnameMatches, s) ← readAndMatchHostname d p.hostname p.stream
  let (resourceInner, s) := readResourceInner d s
  if hostnameMatches && resourceInner.isCName then do
    let (hostname, s) ← readCName resourceInner.resourceDataLength.toNat 0 [] s
    let p := { p with hostname := hostname, stream := s }
    pure (if s.failed then .noAnswer else .cName, p)
  else if hostnameMatches && resourceInner.isIPv4Answer then
    let (address, s) := readIPv4Address d s
    pure ((address.map Answer.answer).getD .noAnswer, { p with stream := s })
  else pure (.noAnswer, { p with stream := s.consume d resourceInner.resourceDataLength.toNat })

/-- The loop of `ReadAnswerRecords`, with the number of answers that are left. -/
def readAnswerRecords : Nat → ReplyParser → Parser (Option IPAddress × ReplyParser)
  | 0, p => pure (none, p)
  | left + 1, p => do
      let (answer, p) ← p.readAnswer d
      match answer with
      | .answer address => pure (some address, p)
      | .cName => readAnswerRecords left { p with recurse := true }
      | .noAnswer => readAnswerRecords left p

def discardAnswer (p : ReplyParser) : Parser ReplyParser := do
  let (_, s) ← readAndMatchHostname d p.hostname p.stream
  let (resourceInner, s) := readResourceInner d s
  pure { p with stream := s.consume d resourceInner.resourceDataLength.toNat }

def discardNameServerRecords : Nat → ReplyParser → Parser ReplyParser
  | 0, p => pure p
  | left + 1, p => do
      let p ← p.discardAnswer d
      discardNameServerRecords left p

/-- The loop of `ReadAndMatchNameServer`, over the name servers that are left, and whether one of them matches. -/
def matchNameServers (nameStart : Nat) : Nat → ReplyParser → Parser (Bool × ReplyParser)
  | 0, p => pure (false, p)
  | left + 1, p => do
      let (_, s) ← readAndMatchHostname d p.hostname p.stream
      let (resourceInner, s) := readResourceInner d s
      if resourceInner.isNameServer then do
        let hostnameParts ← readNext d nameStart
        let (matches', _, s) ← readAndMatchHostnameParts d hostnameParts s
        if matches' then pure (true, { p with stream := s })
        else matchNameServers nameStart left { p with stream := s }
      else
        matchNameServers nameStart left { p with stream := s.consume d resourceInner.resourceDataLength.toNat }

/-- Either way the reader goes behind the name that it began with. -/
def readAndMatchNameServer (p : ReplyParser) (nameServerPosition numNameServers : Nat) :
    Parser (Bool × ReplyParser) := do
  let nameStart := p.stream.position
  let (matches', p) ← matchNameServers d nameStart numNameServers
    { p with stream := p.stream.rewind nameServerPosition }
  let (_, s) ← readAndMatchHostname d p.hostname (p.stream.rewind nameStart)
  pure (matches', { p with stream := s })

def readNameServer (p : ReplyParser) (nameServerPosition numNameServers : Nat) :
    Parser (Option IPAddress × ReplyParser) := do
  let (nameServerMatches, p) ← p.readAndMatchNameServer d nameServerPosition numNameServers
  let (resourceInner, s) := readResourceInner d p.stream
  if nameServerMatches && resourceInner.isIPv4Answer then
    let (address, s) := readIPv4Address d s
    pure (address, { p with stream := s })
  else pure (none, { p with stream := s.consume d resourceInner.resourceDataLength.toNat })

def readAdditionalRecords (nameServerPosition : Nat) :
    Nat → List IPAddress → ReplyParser → Parser (List IPAddress × ReplyParser)
  | 0, recursiveDnsServers, p => pure (recursiveDnsServers, p)
  | left + 1, recursiveDnsServers, p => do
      let (answer, p) ← p.readNameServer d nameServerPosition p.header.nameServersCount.toNat
      match answer with
      | some address =>
          if recursiveDnsServers.length ≠ maxAttempts then
            readAdditionalRecords nameServerPosition left (recursiveDnsServers ++ [address]) { p with recurse := true }
          else readAdditionalRecords nameServerPosition left recursiveDnsServers p
      | none => readAdditionalRecords nameServerPosition left recursiveDnsServers p

def readNameServers (p : ReplyParser) : Parser (List IPAddress × ReplyParser) := do
  let nameServerPosition := p.stream.position
  let p ← p.discardNameServerRecords d p.header.nameServersCount.toNat
  readAdditionalRecords d nameServerPosition p.header.additionalRecordsCount.toNat [] p

end ReplyParser

def tryFindRecursiveNameServer (p : ReplyParser) : Parser (Received × BoundedString) := do
  let (newRecursiveDnsServers, p) ← p.readNameServers d
  pure (if p.recurse then .resolveRecursion newRecursiveDnsServers else .resolveNextAttempt, p.hostname)

def tryFindAnswer (p : ReplyParser) : Parser (Received × BoundedString) := do
  let (answer, p) ← p.readAnswerRecords d p.header.answersCount.toNat
  match answer with
  | some address => pure (.nameLookupSuccess address, p.hostname)
  | none => tryFindRecursiveNameServer d p

/-- What is gone on with, and the hostname, which a canonical name replaces. -/
def dataReceived (hostname : BoundedString) (source currentDnsServer : IPAddress) (queryId : UInt16) :
    Parser (Received × BoundedString) := do
  let p ← replyParser d hostname
  if p.answerIsForCurrentQuery source currentDnsServer queryId then
    if p.error then pure (.resolveNextAttempt, p.hostname) else tryFindAnswer d p
  else pure (.nothing, p.hostname)

/-- **What is promised of `DataReceived`**: it returns, and asserts nothing that does not hold. -/
def HandlesSafely (hostname : BoundedString) (source currentDnsServer : IPAddress) (queryId : UInt16) : Prop :=
  ∃ received, Yields (turn d) (dataReceived d hostname source currentDnsServer queryId) received

/-! ## What the parser calls -/

variable {d} {hostname : BoundedString} {s : Stream} {parts : HostnameParts} {p : ReplyParser}

theorem meets_readAndMatchHostnameParts : Meets (turn d) Fits (readAndMatchHostnameParts d parts s) := by
  rw [readAndMatchHostnameParts]
  dsimp only
  split_ifs
  · exact meets_readAndMatchReferenceHostname.mpr fun _ _ => trivial
  · exact meets_ask.mpr trivial

theorem meets_readAndMatchHostname : Meets (turn d) Fits (readAndMatchHostname d hostname s) := by
  rw [readAndMatchHostname, meets_bind]
  exact ⟨meets_readAndMatchHostnameParts, fun _ _ => meets_pure⟩

namespace ReplyParser

/-- Only here a name is copied. -/
theorem meets_readAnswer : Meets (turn d) Fits (p.readAnswer d) := by
  rw [readAnswer, meets_bind]
  refine ⟨meets_readAndMatchHostname, ?_⟩
  rintro ⟨hostnameMatches, s⟩ -
  dsimp only
  split_ifs
  · rw [meets_bind]
    exact ⟨meets_ask.mpr (Nat.zero_le _), fun _ _ => meets_pure⟩
  · exact meets_pure
  · exact meets_pure

theorem meets_readAnswerRecords (left : Nat) : Meets (turn d) Fits (p.readAnswerRecords d left) := by
  induction left generalizing p with
  | zero => exact meets_pure
  | succ left ih =>
      rw [readAnswerRecords, meets_bind]
      refine ⟨meets_readAnswer, ?_⟩
      rintro ⟨answer, p⟩ -
      cases answer with
      | answer address => exact meets_pure
      | cName => exact ih
      | noAnswer => exact ih

theorem meets_discardNameServerRecords (left : Nat) : Meets (turn d) Fits (p.discardNameServerRecords d left) := by
  induction left generalizing p with
  | zero => exact meets_pure
  | succ left ih =>
      rw [discardNameServerRecords, meets_bind, discardAnswer, meets_bind]
      exact ⟨⟨meets_readAndMatchHostname, fun _ _ => meets_pure⟩, fun _ _ => ih⟩

theorem meets_matchNameServers (nameStart left : Nat) : Meets (turn d) Fits (p.matchNameServers d nameStart left) := by
  induction left generalizing p with
  | zero => exact meets_pure
  | succ left ih =>
      rw [matchNameServers, meets_bind]
      refine ⟨meets_readAndMatchHostname, ?_⟩
      rintro ⟨_, s⟩ -
      dsimp only
      split_ifs
      · rw [meets_bind]
        refine ⟨meets_readNextPart nameStart fun _ _ => trivial, ?_⟩
        intro hostnameParts _
        rw [meets_bind]
        refine ⟨meets_readAndMatchHostnameParts, ?_⟩
        rintro ⟨matches', _, s⟩ -
        dsimp only
        split_ifs
        · exact meets_pure
        · exact ih
      · exact ih

theorem meets_readNameServer (nameServerPosition numNameServers : Nat) :
    Meets (turn d) Fits (p.readNameServer d nameServerPosition numNameServers) := by
  rw [readNameServer, meets_bind, readAndMatchNameServer, meets_bind]
  refine ⟨⟨meets_matchNameServers _ _, ?_⟩, ?_⟩
  · rintro ⟨matches', p⟩ -
    rw [meets_bind]
    exact ⟨meets_readAndMatchHostname, fun _ _ => meets_pure⟩
  · rintro ⟨nameServerMatches, p⟩ -
    dsimp only
    split_ifs <;> exact meets_pure

theorem meets_readAdditionalRecords (nameServerPosition left : Nat) (recursiveDnsServers : List IPAddress) :
    Meets (turn d) Fits (p.readAdditionalRecords d nameServerPosition left recursiveDnsServers) := by
  induction left generalizing p recursiveDnsServers with
  | zero => exact meets_pure
  | succ left ih =>
      rw [readAdditionalRecords, meets_bind]
      refine ⟨meets_readNameServer _ _, ?_⟩
      rintro ⟨answer, p⟩ -
      cases answer with
      | some address =>
          dsimp only
          split_ifs <;> exact ih _
      | none => exact ih _

end ReplyParser

theorem meets_tryFindAnswer : Meets (turn d) Fits (tryFindAnswer d p) := by
  rw [tryFindAnswer, meets_bind]
  refine ⟨ReplyParser.meets_readAnswerRecords _, ?_⟩
  rintro ⟨answer, p⟩ -
  cases answer with
  | some address => exact meets_pure
  | none =>
      dsimp only
      rw [tryFindRecursiveNameServer, meets_bind, ReplyParser.readNameServers, meets_bind]
      exact ⟨⟨ReplyParser.meets_discardNameServerRecords _,
        fun _ _ => ReplyParser.meets_readAdditionalRecords _ _ _⟩, fun _ _ => meets_pure⟩

theorem meets_dataReceived (source currentDnsServer : IPAddress) (queryId : UInt16) :
    Meets (turn d) Fits (dataReceived d hostname source currentDnsServer queryId) := by
  rw [dataReceived, meets_bind]
  constructor
  · rw [replyParser, meets_bind]
    exact ⟨meets_readAndMatchHostname, fun _ _ => meets_pure⟩
  · intro p _
    split_ifs
    · exact meets_pure
    · exact meets_tryFindAnswer
    · exact meets_pure

/-! ## Replies that are handled -/

/-- **A reply is handled safely** if and only if the labels and pointers of the datagram lead from no loop that is
entered back to it, and no label that is copied fills the hostname. -/
theorem handlesSafely_iff (hostname : BoundedString) (source currentDnsServer : IPAddress) (queryId : UInt16) :
    HandlesSafely d hostname source currentDnsServer queryId ↔
      ∀ c, Enters (turn d) (dataReceived d hostname source currentDnsServer queryId) c →
        ¬ ComesBack d c ∧ ¬ FillsHostname c :=
  exists_yields_iff_not_comesBack (meets_dataReceived source currentDnsServer queryId)

/-- A header, and the label `a` in front of a pointer to it. -/
def pointerToOwnLabel : Datagram :=
  { data := List.replicate 12 0 ++ [1, char 'a', 0xc0, 12], uninitialised := fun _ => 0 }

theorem labelNext_own_label :
    labelNext pointerToOwnLabel { size := 1, position := 13 } { size := 1, position := 13 } :=
  ⟨by decide, rfl⟩

/-- From the label the reader comes to the pointer, and from the pointer to the label. -/
theorem not_handlesSafely_own_label :
    ¬ ∀ d hostname source currentDnsServer queryId, HandlesSafely d hostname source currentDnsServer queryId := by
  intro hall
  obtain ⟨received, hreceived⟩ := hall pointerToOwnLabel [char 'a'] (.ipv4 [8, 8, 8, 8]) (.ipv4 [8, 8, 8, 8]) 0
  rw [dataReceived, yields_bind] at hreceived
  obtain ⟨p, hparser, -⟩ := hreceived
  rw [replyParser] at hparser
  dsimp only at hparser
  rw [yields_bind] at hparser
  obtain ⟨matched, hmatched, -⟩ := hparser
  rw [readAndMatchHostname, yields_bind] at hmatched
  obtain ⟨value, hvalue, -⟩ := hmatched
  change Yields _ (readAndMatchHostnameWithoutReference 1 true (.string [char 'a'] 0)
    { position := 13, failed := false, unread := 0 }) value at hvalue
  rw [readAndMatchHostnameWithoutReference, yields_ask] at hvalue
  have hback : ComesBack pointerToOwnLabel (.matchHostname 1 true (.string [char 'a'] 0)
    { position := 13, failed := false, unread := 0 }) := TransGen.single labelNext_own_label
  exact (not_comesBack_of_returns ⟨value, hvalue⟩).1 hback

end EmbeddedInfra.DnsReplies
