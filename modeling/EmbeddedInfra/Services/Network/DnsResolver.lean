import EmbeddedInfra.Lib.EventSystem
import EmbeddedInfra.Infra.Util.Tokenizer

set_option autoImplicit false

/-! # The DNS resolver

`services::DnsResolver` resolves one name at a time. For each lookup it opens a datagram exchange, asks
for a send stream for each query, and gives up after a number of attempts. A reply is what the parser
reads from a datagram: the names in it are given by the hostnames with which they agree. A callback of the
resolver may call the resolver.
-/

namespace EmbeddedInfra.DnsResolver

open scoped List

def maxAttempts : Nat := 3

def maxRecursions : Nat := 5

/-- A lookup, with the number of the call of `Lookup`. `queryId` is the random number that is drawn when
the lookup is started. -/
structure Lookup where
  ticket : Nat
  hostname : BoundedString
  queryId : UInt16
  deriving DecidableEq, Repr

inductive Result (α : Type)
  | done (address : α)
  | failed
  deriving DecidableEq, Repr

/-- A query that has been written. -/
structure Query (α : Type) where
  server : Option α
  id : UInt16
  hostname : BoundedString
  deriving DecidableEq, Repr

/-- The receivers of the send streams that have been requested and not been granted, and the queries that
have been written, the last one first. -/
structure DatagramExchange (α : Type) where
  pending : List (Option α)
  sent : List (Query α)

/-! ## Replies -/

/-- The data of a resource record. A name or an address that is cut off by the end of the datagram has
failed. -/
inductive Resource (α : Type)
  | cname (hostname : BoundedString) (failed : Bool)
  | address (address : α) (failed : Bool)
  | other

structure Record (α : Type) where
  hostnameMatches : BoundedString → Bool
  resource : Resource α

structure Reply (α : Type) where
  id : UInt16
  flags : UInt16
  questionsCount : UInt16
  hostnameMatches : BoundedString → Bool
  type : UInt16
  class_ : UInt16
  answers : List (Record α)
  /-- The addresses of the name servers among the additional records. -/
  nameServers : List α

namespace Reply

variable {α : Type}

def flagsResponse : UInt16 := 0x8000

def flagsErrorMask : UInt16 := 0x000f

def typeA : UInt16 := 1

def classIn : UInt16 := 1

def error (reply : Reply α) : Bool := reply.flags &&& flagsErrorMask != 0

/-- What is found in the answer records, with the name that is asked for from now on. -/
structure Answers (α : Type) where
  address : Option α
  hostname : BoundedString
  recurse : Bool

def readAnswerRecords : List (Record α) → BoundedString → Bool → Answers α
  | [], hostname, recurse => { address := none, hostname := hostname, recurse := recurse }
  | record :: records, hostname, recurse =>
      if record.hostnameMatches hostname then
        match record.resource with
        | .cname hostname failed => readAnswerRecords records hostname (recurse || !failed)
        | .address address false => { address := some address, hostname := hostname, recurse := recurse }
        | _ => readAnswerRecords records hostname recurse
      else readAnswerRecords records hostname recurse

/-- `ReadNameServers`: there is room for as many servers as there are attempts. -/
def readNameServers (reply : Reply α) : List α := reply.nameServers.take maxAttempts

end Reply

/-! ## The resolver -/

/-- The last members record what has happened: the number of lookups that have been requested, those that
have been started, the results that have been given, the lookups that have been cancelled, whether a send
stream has been requested while another one was pending, and whether a reply has been accepted that
is not the answer to the last query. -/
structure Resolver (α : Type) where
  dnsServers : List α
  currentDnsServer : Nat
  recursiveDnsServers : List α
  currentRecursiveDnsServer : Nat
  waiting : List Lookup
  datagramExchange : Option (DatagramExchange α)
  resolving : Option Lookup
  timeoutTimer : Bool
  resolveAttempts : Nat
  recursions : Nat
  queryId : UInt16
  hostname : BoundedString
  lookups : Nat
  started : List Nat
  results : List (Nat × Result α)
  cancelled : List Nat
  overlapped : Bool
  stray : Bool

/-- A call of the resolver. -/
inductive Call
  | lookup (hostname : BoundedString) (queryId : UInt16)
  | cancelLookup (ticket : Nat)

variable {α : Type}

namespace Resolver

def create (dnsServers : List α) : Resolver α where
  dnsServers := dnsServers
  currentDnsServer := 0
  recursiveDnsServers := []
  currentRecursiveDnsServer := 0
  waiting := []
  datagramExchange := none
  resolving := none
  timeoutTimer := false
  resolveAttempts := 0
  recursions := 0
  queryId := 0
  hostname := []
  lookups := 0
  started := []
  results := []
  cancelled := []
  overlapped := false
  stray := false

/-- `DnsUpdSocket` -/
def dnsUdpSocket (r : Resolver α) : Option α :=
  if r.recursiveDnsServers ≠ [] then r.recursiveDnsServers[r.currentRecursiveDnsServer]?
  else r.dnsServers[r.currentDnsServer]?

/-- A send stream has been requested and not been granted. -/
def pending (r : Resolver α) : Bool := r.datagramExchange.any fun exchange => !exchange.pending.isEmpty

def resolveAttempt (r : Resolver α) : Resolver α :=
  { r with
    datagramExchange := r.datagramExchange.map fun exchange =>
      { exchange with pending := exchange.pending ++ [r.dnsUdpSocket] }
    overlapped := r.overlapped || r.pending }

/-- The next of a number of servers, the first one after the last. -/
def nextServer (servers : List α) (current : Nat) : Nat :=
  if current + 1 = servers.length then 0 else current + 1

def selectNextDnsServer (r : Resolver α) : Resolver α :=
  if r.recursiveDnsServers ≠ [] then
    { r with currentRecursiveDnsServer := nextServer r.recursiveDnsServers r.currentRecursiveDnsServer }
  else
    { r with currentDnsServer := nextServer r.dnsServers r.currentDnsServer }

/-- `ResolveNextAttempt`, when there is an attempt left. -/
def nextAttempt (r : Resolver α) : Resolver α :=
  let r := { r with resolveAttempts := r.resolveAttempts + 1, recursions := 0 }
  let r := r.selectNextDnsServer
  let r := { r with hostname := (r.resolving.map Lookup.hostname).getD r.hostname }
  r.resolveAttempt

/-- `Resolve`. There is an attempt left, as none has been made. -/
def resolve (r : Resolver α) (nameLookup : Lookup) : Resolver α :=
  let r := { r with
    datagramExchange := some { pending := [], sent := [] }
    queryId := nameLookup.queryId
    resolving := some nameLookup
    resolveAttempts := 0
    recursions := 0
    started := nameLookup.ticket :: r.started }
  r.nextAttempt

def tryResolveNext (r : Resolver α) : Resolver α :=
  match r.resolving, r.waiting with
  | none, nameLookup :: rest => { r with waiting := rest }.resolve nameLookup
  | _, _ => r

def lookup (r : Resolver α) (hostname : BoundedString) (queryId : UInt16) : Resolver α :=
  let result : Lookup := { ticket := r.lookups, hostname := hostname, queryId := queryId }
  { r with waiting := r.waiting ++ [result], lookups := r.lookups + 1 }.tryResolveNext

/-- What `NameLookupDone` does before it calls back. -/
def release (r : Resolver α) : Resolver α :=
  { r with resolving := none, datagramExchange := none, timeoutTimer := false, recursiveDnsServers := [] }

/-- `CancelLookup`. The lookup is being resolved or waits, as is asserted. -/
def cancelLookup (r : Resolver α) (ticket : Nat) : Option (Resolver α) :=
  if r.resolving.map (·.ticket) = some ticket then
    some { r.release with cancelled := ticket :: r.cancelled }.tryResolveNext
  else if ticket ∈ r.waiting.map (·.ticket) then
    some { r with waiting := r.waiting.filter (·.ticket != ticket), cancelled := ticket :: r.cancelled }
  else none

def call (r : Resolver α) : Call → Option (Resolver α)
  | .lookup hostname queryId => some (r.lookup hostname queryId)
  | .cancelLookup ticket => r.cancelLookup ticket

/-- `NameLookupDone`, with the calls that are made in the callback. -/
def nameLookupDone (r : Resolver α) (result : Result α) (reactions : List Call) : Option (Resolver α) :=
  r.resolving.bind fun resolving =>
    let r := { r.release with results := (resolving.ticket, result) :: r.results }
    (reactions.foldlM call r).map tryResolveNext

def resolveNextAttempt (r : Resolver α) (reactions : List Call) : Option (Resolver α) :=
  if r.resolveAttempts = maxAttempts then r.nameLookupDone .failed reactions else some r.nextAttempt

def resolveRecursion (r : Resolver α) (reactions : List Call) : Option (Resolver α) :=
  let r := { r with recursions := r.recursions + 1 }
  if r.recursions = maxRecursions then r.nameLookupDone .failed reactions else some r.resolveAttempt

def tryFindRecursiveNameServer (r : Resolver α) (reply : Reply α) (recurse : Bool) (reactions : List Call) :
    Option (Resolver α) :=
  let newRecursiveDnsServers := reply.readNameServers
  if recurse || !newRecursiveDnsServers.isEmpty then
    { r with recursiveDnsServers := newRecursiveDnsServers, currentRecursiveDnsServer := 0 }.resolveRecursion
      reactions
  else r.resolveNextAttempt reactions

def tryFindAnswer (r : Resolver α) (reply : Reply α) (reactions : List Call) : Option (Resolver α) :=
  let answers := Reply.readAnswerRecords reply.answers r.hostname false
  let r := { r with hostname := answers.hostname }
  match answers.address with
  | some address => r.nameLookupDone (.done address) reactions
  | none => r.tryFindRecursiveNameServer reply answers.recurse reactions

variable [DecidableEq α]

def answerIsForCurrentQuery (r : Resolver α) (source : α) (reply : Reply α) : Bool :=
  r.dnsUdpSocket = some source && reply.flags &&& Reply.flagsResponse != 0 && reply.questionsCount = 1 &&
    reply.id = r.queryId && reply.hostnameMatches r.hostname && reply.type = Reply.typeA &&
    reply.class_ = Reply.classIn

/-- The reply comes from the server that has been queried last, with the identification and the question
of that query. -/
def answersLastQuery (r : Resolver α) (source : α) (reply : Reply α) : Bool :=
  (r.datagramExchange.bind (·.sent.head?)).any fun query =>
    query.server = some source && reply.id = query.id && reply.hostnameMatches query.hostname

/-- `DataReceived`, while there is an exchange. -/
def dataReceived (r : Resolver α) (source : α) (reply : Reply α) (reactions : List Call) :
    Option (Resolver α) :=
  if r.datagramExchange.isNone then none
  else if r.answerIsForCurrentQuery source reply then
    let r := { r with stray := r.stray || !r.answersLastQuery source reply }
    if reply.error then r.resolveNextAttempt reactions else r.tryFindAnswer reply reactions
  else some r

/-- `SendStreamAvailable`, for the send stream that has been requested first. -/
def sendStreamAvailable (r : Resolver α) : Option (Resolver α) :=
  match r.datagramExchange with
  | some { pending := server :: pending, sent := sent } =>
      let query : Query α := { server := server, id := r.queryId, hostname := r.hostname }
      some { r with
        datagramExchange := some { pending := pending, sent := query :: sent }
        timeoutTimer := true }
  | _ => none

end Resolver

/-! ## Runs -/

inductive Event (α : Type)
  | call (call : Call)
  | dataReceived (source : α) (reply : Reply α) (reactions : List Call)
  | sendStreamAvailable
  | timeout (reactions : List Call)

namespace Resolver

def step [DecidableEq α] (r : Resolver α) : Event α → Option (Resolver α)
  | .call call => r.call call
  | .dataReceived source reply reactions => r.dataReceived source reply reactions
  | .sendStreamAvailable => r.sendStreamAvailable
  | .timeout reactions =>
      if r.timeoutTimer then { r with timeoutTimer := false }.resolveNextAttempt reactions else none

/-! ## What is promised -/

/-- The lookups that have been answered. -/
def answered (r : Resolver α) : List Nat := r.results.map (·.1)

/-- The lookup waits, or is being resolved. -/
def IsOpen (r : Resolver α) (ticket : Nat) : Prop :=
  ticket ∈ r.waiting.map (·.ticket) ∨ r.resolving.map (·.ticket) = some ticket

/-- The promises of the resolver. A lookup is started when the ones that were started before have ended,
in the order in which they were requested. One that has ended was cancelled and has no result, or
has one result; one that has not ended has none. -/
structure Good (r : Resolver α) : Prop where
  oneAtATime : ∀ ticket ∈ r.started, r.IsOpen ticket → r.resolving.map (·.ticket) = some ticket
  inOrder : r.started.Pairwise (· > ·)
  oneResult : ∀ ticket < r.lookups, ¬ r.IsOpen ticket → ticket ∉ r.cancelled → r.answered.count ticket = 1
  noResult_of_open : ∀ ticket, r.IsOpen ticket → ticket ∉ r.answered
  noResult_of_cancelled : ∀ ticket ∈ r.cancelled, ticket ∉ r.answered
  queries : ∀ exchange ∈ r.datagramExchange, exchange.sent.length ≤ maxAttempts * maxRecursions
  notOverlapped : r.overlapped = false
  notStray : r.stray = false

/-- The reply makes the resolver end the lookup. -/
def endsLookup (r : Resolver α) (reply : Reply α) : Bool :=
  let answers := Reply.readAnswerRecords reply.answers r.hostname false
  if reply.error then r.resolveAttempts = maxAttempts
  else if answers.address.isSome then true
  else if answers.recurse || !reply.readNameServers.isEmpty then r.recursions + 1 = maxRecursions
  else r.resolveAttempts = maxAttempts

/-- The event does not come in between the request for a send stream and the moment at which it is
granted. Then a timeout may only end the last attempt, and a reply is only accepted when it answers
the query before and ends the lookup. -/
def Timely [DecidableEq α] (r : Resolver α) : Event α → Prop
  | .timeout _ => r.pending = true → r.resolveAttempts = maxAttempts
  | .dataReceived source reply _ => r.pending = true → r.answerIsForCurrentQuery source reply = true →
      r.answersLastQuery source reply = true ∧ r.endsLookup reply = true
  | _ => True

/-! ## The lookups -/

/-- Every lookup is at one place: it waits, it is being resolved, it has its result, or it has been
cancelled. -/
structure Served (r : Resolver α) : Prop where
  places : r.waiting.map (·.ticket) ++ (r.resolving.toList.map (·.ticket) ++ (r.answered ++ r.cancelled)) ~
    List.range r.lookups
  waiting : (r.waiting.map (·.ticket)).Pairwise (· < ·)
  started : r.started.Pairwise (· > ·)
  started_lt : ∀ ticket ∈ r.started, ∀ later ∈ r.waiting.map (·.ticket), ticket < later
  started_lt_lookups : ∀ ticket ∈ r.started, ticket < r.lookups

variable {r r' : Resolver α} {exchange : DatagramExchange α} {reactions : List Call}
  {m : Resolver α}

/-- What `Served` is about. -/
def book (r : Resolver α) : Nat × List Lookup × Option Lookup × List Nat × List (Nat × Result α) × List Nat :=
  (r.lookups, r.waiting, r.resolving, r.started, r.results, r.cancelled)

theorem Served.of_book (h : r.Served) (hbook : r'.book = r.book) : r'.Served := by
  simp only [book, Prod.mk.injEq] at hbook
  obtain ⟨hlookups, hwaiting, hresolving, hstarted, hresults, hcancelled⟩ := hbook
  refine ⟨?_, ?_, ?_, ?_, ?_⟩
  · simpa only [answered, hlookups, hwaiting, hresolving, hresults, hcancelled] using h.places
  · simpa only [hwaiting] using h.waiting
  · simpa only [hstarted] using h.started
  · simpa only [hstarted, hwaiting] using h.started_lt
  · simpa only [hstarted, hlookups] using h.started_lt_lookups

theorem book_nextAttempt (r : Resolver α) : r.nextAttempt.book = r.book := by
  simp only [nextAttempt, selectNextDnsServer]
  split <;> rfl

namespace Served

theorem lt_lookups (h : r.Served) {ticket : Nat} (hmem : ticket ∈ r.waiting.map (·.ticket)) : ticket < r.lookups :=
  List.mem_range.mp (h.places.subset (List.mem_append_left _ hmem))

theorem tryResolveNext (h : r.Served) : r.tryResolveNext.Served := by
  unfold Resolver.tryResolveNext
  split
  · rename_i nameLookup rest hresolving hwaiting
    apply Served.of_book _ (book_nextAttempt _)
    have hplaces := h.places
    have hsorted := h.waiting
    have hlt := h.started_lt
    have hlookups : nameLookup.ticket < r.lookups := h.lt_lookups (by simp [hwaiting])
    simp only [hwaiting, hresolving, List.map_cons, Option.toList_none, List.map_nil, List.nil_append,
      List.pairwise_cons, List.cons_append] at hplaces hsorted hlt
    refine ⟨?_, hsorted.2, ?_, ?_, ?_⟩
    · exact List.perm_middle.trans hplaces
    · exact List.pairwise_cons.mpr ⟨fun ticket hmem => hlt ticket hmem _ List.mem_cons_self, h.started⟩
    · intro ticket hmem later hlater
      rcases List.mem_cons.mp hmem with rfl | hmem
      · exact hsorted.1 later hlater
      · exact hlt ticket hmem later (List.mem_cons_of_mem _ hlater)
    · intro ticket hmem
      rcases List.mem_cons.mp hmem with rfl | hmem
      · exact hlookups
      · exact h.started_lt_lookups ticket hmem
  · exact h

variable {nameLookup : Lookup}

/-- The lookup waits behind the others. -/
theorem enqueue (h : r.Served) (hticket : nameLookup.ticket = r.lookups) :
    { r with waiting := r.waiting ++ [nameLookup], lookups := r.lookups + 1 }.Served := by
  refine ⟨?_, ?_, h.started, ?_, ?_⟩
  · simp only [List.map_append, List.map_cons, List.map_nil, List.append_assoc, List.range_succ, hticket]
    exact (List.perm_middle.trans (h.places.cons _)).trans (List.perm_append_singleton _ _).symm
  · simp only [List.map_append, List.map_cons, List.map_nil, List.pairwise_append]
    refine ⟨h.waiting, List.pairwise_singleton _ _, ?_⟩
    intro ticket hmem later hlater
    rw [List.mem_singleton.mp hlater, hticket]
    exact h.lt_lookups hmem
  · intro ticket hmem later hlater
    simp only [List.map_append, List.map_cons, List.map_nil, List.mem_append, List.mem_singleton] at hlater
    rcases hlater with hlater | rfl
    · exact h.started_lt ticket hmem later hlater
    · rw [hticket]
      exact h.started_lt_lookups ticket hmem
  · exact fun ticket hmem => Nat.lt_succ_of_lt (h.started_lt_lookups ticket hmem)

/-- The lookup that is being resolved ends with a result or without one. -/
theorem places_release (h : r.Served) (hresolving : r.resolving = some nameLookup) :
    r.waiting.map (·.ticket) ++ nameLookup.ticket :: (r.answered ++ r.cancelled) ~ List.range r.lookups := by
  have hplaces := h.places
  rw [hresolving] at hplaces
  exact hplaces

theorem report (h : r.Served) (hresolving : r.resolving = some nameLookup)
    (result : Result α) : { r.release with results := (nameLookup.ticket, result) :: r.results }.Served :=
  { h with places := h.places_release hresolving }

theorem cancelResolving (h : r.Served) (hresolving : r.resolving = some nameLookup) :
    { r.release with cancelled := nameLookup.ticket :: r.cancelled }.Served := by
  refine { h with places := ?_ }
  exact (List.Perm.append_left _ List.perm_middle).trans (h.places_release hresolving)

theorem cancelWaiting (h : r.Served) {ticket : Nat} (hmem : ticket ∈ r.waiting.map (·.ticket)) :
    { r with waiting := r.waiting.filter (·.ticket != ticket), cancelled := ticket :: r.cancelled }.Served := by
  have hplaces := h.places
  have hfilter : (r.waiting.filter (·.ticket != ticket)).map (·.ticket) =
      (r.waiting.map (·.ticket)).erase ticket := by
    have hnodup : (r.waiting.map (·.ticket)).Nodup := h.waiting.imp Nat.ne_of_lt
    rw [hnodup.erase_eq_filter, List.filter_map]
    rfl
  refine ⟨?_, ?_, h.started, ?_, h.started_lt_lookups⟩
  · rw [hfilter]
    generalize r.resolving.toList.map (·.ticket) = resolving at *
    calc (r.waiting.map (·.ticket)).erase ticket ++ (resolving ++ (r.answered ++ ticket :: r.cancelled))
        = (r.waiting.map (·.ticket)).erase ticket ++ (resolving ++ r.answered) ++ ticket :: r.cancelled := by simp
      _ ~ ticket :: ((r.waiting.map (·.ticket)).erase ticket ++ (resolving ++ r.answered) ++ r.cancelled) :=
          List.perm_middle
      _ = ticket :: (r.waiting.map (·.ticket)).erase ticket ++ (resolving ++ (r.answered ++ r.cancelled)) := by
          simp
      _ ~ r.waiting.map (·.ticket) ++ (resolving ++ (r.answered ++ r.cancelled)) :=
          List.Perm.append_right _ (List.perm_cons_erase hmem).symm
      _ ~ List.range r.lookups := hplaces
  · rw [hfilter]
    exact h.waiting.sublist List.erase_sublist
  · rw [hfilter]
    exact fun earlier hearlier later hlater => h.started_lt earlier hearlier later (List.mem_of_mem_erase hlater)

end Served

/-! ## The queries of a lookup -/

/-- What holds of the exchange of a lookup. Each attempt is good for `maxRecursions` queries. When no send
stream is pending the last query has gone to the current server. -/
structure Asked (r : Resolver α) (exchange : DatagramExchange α) : Prop where
  attempts : r.resolveAttempts ≤ maxAttempts
  recursions : r.recursions < maxRecursions
  count : exchange.pending.length + exchange.sent.length + maxRecursions ≤
    maxRecursions * r.resolveAttempts + r.recursions + 1
  last : exchange.pending = [] →
    exchange.sent.head? = some { server := r.dnsUdpSocket, id := r.queryId, hostname := r.hostname }
  single : exchange.pending ≠ [] → exchange.pending = [r.dnsUdpSocket]

/-- What holds between two events, as long as all has gone well. -/
structure Inv (r : Resolver α) : Prop where
  served : r.Served
  exchange : r.datagramExchange.isSome = r.resolving.isSome
  timer : r.timeoutTimer = true → r.datagramExchange.isSome = true
  asked : ∀ exchange ∈ r.datagramExchange, r.Asked exchange
  notOverlapped : r.overlapped = false
  notStray : r.stray = false

theorem inv_create (dnsServers : List α) : (create dnsServers).Inv where
  served := ⟨by simp [create, answered], by simp [create], by simp [create], by simp [create], by simp [create]⟩
  exchange := rfl
  timer := by simp [create]
  asked := by simp [create]
  notOverlapped := rfl
  notStray := rfl

theorem pending_eq_false (hexchange : r.datagramExchange = some exchange) :
    r.pending = false ↔ exchange.pending = [] := by
  simp [pending, hexchange]

/-- One more send stream is requested, when none is pending. -/
theorem asked_resolveAttempt (hexchange : r.datagramExchange = some exchange)
    (hpending : exchange.pending = []) (hattempts : r.resolveAttempts ≤ maxAttempts)
    (hrecursions : r.recursions < maxRecursions)
    (hcount : exchange.sent.length + maxRecursions ≤ maxRecursions * r.resolveAttempts + r.recursions) :
    ∀ exchange ∈ r.resolveAttempt.datagramExchange, r.resolveAttempt.Asked exchange := by
  intro exchange' hmem
  simp only [resolveAttempt, hexchange, Option.map_some, Option.mem_some_iff] at hmem
  subst hmem
  refine ⟨hattempts, hrecursions, ?_, ?_, ?_⟩
  · simp only [hpending, List.nil_append, List.length_singleton, resolveAttempt]
    omega
  · simp
  · intro _
    rw [hpending]
    rfl

theorem overlapped_resolveAttempt (hpending : r.pending = false) : r.resolveAttempt.overlapped = r.overlapped := by
  simp [resolveAttempt, hpending]

/-- The next attempt is prepared, and the send stream is requested. -/
def prepareAttempt (r : Resolver α) : Resolver α :=
  let r := { r with resolveAttempts := r.resolveAttempts + 1, recursions := 0 }
  let r := r.selectNextDnsServer
  { r with hostname := (r.resolving.map Lookup.hostname).getD r.hostname }

theorem nextAttempt_eq (r : Resolver α) : r.nextAttempt = r.prepareAttempt.resolveAttempt := rfl

theorem prepareAttempt_spec (r : Resolver α) :
    r.prepareAttempt.datagramExchange = r.datagramExchange ∧ r.prepareAttempt.resolving = r.resolving ∧
    r.prepareAttempt.resolveAttempts = r.resolveAttempts + 1 ∧ r.prepareAttempt.recursions = 0 ∧
    r.prepareAttempt.overlapped = r.overlapped ∧ r.prepareAttempt.stray = r.stray := by
  simp only [prepareAttempt, selectNextDnsServer]
  split <;> exact ⟨rfl, rfl, rfl, rfl, rfl, rfl⟩

/-- A state in which the next query may be asked for. -/
theorem inv_nextAttempt (hserved : r.Served)
    (hexchange : r.datagramExchange = some exchange) (hresolving : r.resolving.isSome = true)
    (hpending : exchange.pending = []) (hattempts : r.resolveAttempts < maxAttempts)
    (hcount : exchange.sent.length ≤ maxRecursions * r.resolveAttempts)
    (hoverlapped : r.overlapped = false) (hstray : r.stray = false) : r.nextAttempt.Inv := by
  obtain ⟨hx, hr, ha, hrec, ho, hs⟩ := r.prepareAttempt_spec
  have hnone : r.prepareAttempt.pending = false := by
    rw [pending_eq_false (hx.trans hexchange)]
    exact hpending
  refine ⟨hserved.of_book (book_nextAttempt r), ?_, fun _ => ?_, ?_, ?_, ?_⟩
  · rw [nextAttempt_eq]
    simp [resolveAttempt, hx, hexchange, hr, hresolving]
  · rw [nextAttempt_eq]
    simp [resolveAttempt, hx, hexchange]
  · rw [nextAttempt_eq]
    apply asked_resolveAttempt (hx.trans hexchange) hpending
    · rw [ha]
      exact hattempts
    · rw [hrec]
      decide
    · rw [ha, hrec, Nat.mul_succ]
      omega
  · rw [nextAttempt_eq, overlapped_resolveAttempt hnone, ho, hoverlapped]
  · rw [nextAttempt_eq]
    exact hs.trans hstray

namespace Inv

theorem tryResolveNext (h : r.Inv) : r.tryResolveNext.Inv := by
  have hserved := h.served.tryResolveNext
  unfold Resolver.tryResolveNext at hserved ⊢
  split
  · rename_i nameLookup rest hresolving hwaiting
    simp only [hresolving, hwaiting] at hserved
    exact inv_nextAttempt (hserved.of_book (book_nextAttempt _).symm) rfl rfl rfl
      (show 0 < maxAttempts by decide) (Nat.zero_le _) h.notOverlapped h.notStray
  · exact h

/-- A state with no lookup that is being resolved. -/
theorem of_released (h : r.Inv) (hserved : r'.Served) (hresolving : r'.resolving = none)
    (hexchange : r'.datagramExchange = none) (htimer : r'.timeoutTimer = false)
    (hoverlapped : r'.overlapped = r.overlapped) (hstray : r'.stray = r.stray) : r'.Inv where
  served := hserved
  exchange := by rw [hresolving, hexchange]; rfl
  timer := by simp [htimer]
  asked := by simp [hexchange]
  notOverlapped := hoverlapped.trans h.notOverlapped
  notStray := hstray.trans h.notStray

/-- A state in which only the book has changed. -/
theorem of_asked (h : r.Inv) (hserved : r'.Served) (hresolving : r'.resolving = r.resolving)
    (hexchange : r'.datagramExchange = r.datagramExchange) (htimer : r'.timeoutTimer = r.timeoutTimer)
    (hasked : ∀ exchange, r.Asked exchange → r'.Asked exchange) (hoverlapped : r'.overlapped = r.overlapped)
    (hstray : r'.stray = r.stray) : r'.Inv where
  served := hserved
  exchange := by rw [hresolving, hexchange, h.exchange]
  timer := by rw [htimer, hexchange]; exact h.timer
  asked := by
    rw [hexchange]
    exact fun exchange hmem => hasked exchange (h.asked exchange hmem)
  notOverlapped := hoverlapped.trans h.notOverlapped
  notStray := hstray.trans h.notStray

theorem call (h : r.Inv) {call : Call} (hr : r.call call = some r') : r'.Inv := by
  cases call with
  | lookup hostname queryId =>
      cases hr
      apply tryResolveNext
      refine h.of_asked (h.served.enqueue rfl) rfl rfl rfl ?_ rfl rfl
      exact fun exchange hasked => { hasked with }
  | cancelLookup ticket =>
      simp only [Resolver.call, Resolver.cancelLookup] at hr
      split at hr
      · rename_i hresolving
        obtain ⟨nameLookup, hname, rfl⟩ := Option.map_eq_some_iff.mp hresolving
        cases hr
        exact (h.of_released (h.served.cancelResolving hname) rfl rfl rfl rfl rfl).tryResolveNext
      · split at hr
        · rename_i hmem
          cases hr
          refine h.of_asked (h.served.cancelWaiting hmem) rfl rfl rfl ?_ rfl rfl
          exact fun exchange hasked => { hasked with }
        · cases hr

/-- What the callback does with the resolver. -/
theorem react (h : r.Inv) (hr : reactions.foldlM Resolver.call r = some r') : r'.Inv := by
  induction reactions generalizing r with
  | nil =>
      cases hr
      exact h
  | cons reaction reactions ih =>
      obtain ⟨m, hm, hrest⟩ := Option.bind_eq_some_iff.mp hr
      exact ih (h.call hm) hrest

end Inv

/-- The lookup has ended, and the next one is taken. Nothing is asked of the exchange that is given up. -/
theorem inv_nameLookupDone (hserved : r.Served) (hoverlapped : r.overlapped = false) (hstray : r.stray = false)
    {result : Result α} (hr : r.nameLookupDone result reactions = some r') : r'.Inv := by
  obtain ⟨nameLookup, hresolving, hr⟩ := Option.bind_eq_some_iff.mp hr
  obtain ⟨m, hm, rfl⟩ := Option.map_eq_some_iff.mp hr
  refine (Inv.react ?_ hm).tryResolveNext
  exact ⟨hserved.report hresolving result, rfl, by simp [release], by simp [release], hoverlapped, hstray⟩

/-! ## What an event does -/

/-- The state has the lookups, the exchange and the attempts of the other one. -/
structure SameLookup (r : Resolver α) (stray : Bool) (m : Resolver α) : Prop where
  book : m.book = r.book
  exchange : m.datagramExchange = r.datagramExchange
  attempts : m.resolveAttempts = r.resolveAttempts
  overlapped : m.overlapped = r.overlapped
  stray : m.stray = stray

theorem SameLookup.pending {stray : Bool} (h : r.SameLookup stray m) : m.pending = r.pending := by
  simp only [Resolver.pending, h.exchange]

theorem SameLookup.resolving {stray : Bool} (h : r.SameLookup stray m) :
    m.resolving = r.resolving :=
  congrArg (·.2.2.1) h.book

/-- A timeout or a reply ends the lookup, makes the next attempt, or asks another server. -/
inductive Outcome (r : Resolver α) (stray : Bool) (reactions : List Call) : Bool → Resolver α → Prop
  | ends {m r' : Resolver α} (result : Result α) : m.nameLookupDone result reactions = some r' →
      r.SameLookup stray m → Outcome r stray reactions true r'
  | nextAttempt {m : Resolver α} : r.SameLookup stray m → r.resolveAttempts ≠ maxAttempts →
      Outcome r stray reactions false m.nextAttempt
  | recursion {m : Resolver α} : r.SameLookup stray m → m.recursions = r.recursions + 1 →
      r.recursions + 1 ≠ maxRecursions → Outcome r stray reactions false m.resolveAttempt

theorem outcome_resolveNextAttempt {stray : Bool}
    (hr : m.resolveNextAttempt reactions = some r') (hm : r.SameLookup stray m) :
    Outcome r stray reactions (r.resolveAttempts = maxAttempts) r' := by
  unfold resolveNextAttempt at hr
  rw [hm.attempts] at hr
  split at hr
  · rename_i hattempts
    rw [decide_eq_true hattempts]
    exact .ends .failed hr hm
  · rename_i hattempts
    cases hr
    rw [decide_eq_false hattempts]
    exact .nextAttempt hm hattempts

theorem outcome_resolveRecursion {stray : Bool}
    (hr : m.resolveRecursion reactions = some r') (hm : r.SameLookup stray m)
    (hrecursions : m.recursions = r.recursions) :
    Outcome r stray reactions (r.recursions + 1 = maxRecursions) r' := by
  have hm' : r.SameLookup stray { m with recursions := m.recursions + 1 } :=
    { hm with }
  simp only [resolveRecursion, hrecursions] at hr
  rw [hrecursions] at hm'
  split at hr
  · rename_i hlast
    rw [decide_eq_true hlast]
    exact .ends .failed hr hm'
  · rename_i hlast
    cases hr
    rw [decide_eq_false hlast]
    exact .recursion hm' rfl hlast

theorem outcome_timeout
    (hr : { r with timeoutTimer := false }.resolveNextAttempt reactions = some r') :
    Outcome r r.stray reactions (r.resolveAttempts = maxAttempts) r' :=
  outcome_resolveNextAttempt hr ⟨rfl, rfl, rfl, rfl, rfl⟩

/-- What is made of a reply that is accepted. -/
theorem outcome_accepted {stray : Bool} {reply : Reply α}
    (hr : (if reply.error then { r with stray := stray }.resolveNextAttempt reactions
      else { r with stray := stray }.tryFindAnswer reply reactions) = some r') :
    Outcome r stray reactions (r.endsLookup reply) r' := by
  unfold endsLookup
  split at hr
  · rename_i herror
    simp only [herror, if_true]
    exact outcome_resolveNextAttempt hr ⟨rfl, rfl, rfl, rfl, rfl⟩
  · rename_i herror
    simp only [herror, Bool.false_eq_true, if_false]
    simp only [tryFindAnswer] at hr
    split at hr
    · rename_i address haddress
      simp only [haddress, Option.isSome_some, if_true]
      exact .ends _ hr ⟨rfl, rfl, rfl, rfl, rfl⟩
    · rename_i haddress
      simp only [haddress, Option.isSome_none, Bool.false_eq_true, if_false]
      simp only [tryFindRecursiveNameServer] at hr
      split at hr
      · rename_i hrecurse
        simp only [hrecurse, if_true]
        exact outcome_resolveRecursion hr ⟨rfl, rfl, rfl, rfl, rfl⟩ rfl
      · rename_i hrecurse
        simp only [hrecurse, Bool.false_eq_true, if_false]
        exact outcome_resolveNextAttempt hr ⟨rfl, rfl, rfl, rfl, rfl⟩

/-- An outcome keeps the invariant when it ends the lookup or no send stream is pending. -/
theorem Inv.outcome (h : r.Inv) (hsome : r.datagramExchange.isSome = true) {ends : Bool}
    (hr : Outcome r false reactions ends r') (hpending : r.pending = true → ends = true) : r'.Inv := by
  obtain ⟨exchange, hexchange⟩ := Option.isSome_iff_exists.mp hsome
  have hresolving : r.resolving.isSome = true := h.exchange ▸ hsome
  have hasked := h.asked exchange hexchange
  have hcount := hasked.count
  have hrecursions := hasked.recursions
  cases hr with
  | ends result hdone hm =>
      exact inv_nameLookupDone (h.served.of_book hm.book) (hm.overlapped.trans h.notOverlapped) hm.stray hdone
  | nextAttempt hm hattempts =>
      have hnone : exchange.pending = [] := by
        rw [← pending_eq_false hexchange, ← Bool.not_eq_true]
        exact fun hp => Bool.false_ne_true (hpending hp)
      refine inv_nextAttempt (h.served.of_book hm.book) (hm.exchange.trans hexchange)
        (hm.resolving ▸ hresolving) hnone ?_ ?_ (hm.overlapped.trans h.notOverlapped) hm.stray
      · rw [hm.attempts]
        exact lt_of_le_of_ne hasked.attempts hattempts
      · rw [hm.attempts]
        omega
  | @recursion m hm hmrec hlast =>
      have hnone : exchange.pending = [] := by
        rw [← pending_eq_false hexchange, ← Bool.not_eq_true]
        exact fun hp => Bool.false_ne_true (hpending hp)
      have hmpending : m.pending = false := (pending_eq_false (hm.exchange.trans hexchange)).mpr hnone
      refine ⟨(h.served.of_book hm.book).of_book rfl, ?_, fun _ => ?_, ?_, ?_, hm.stray⟩
      · simp only [resolveAttempt, Option.isSome_map, hm.exchange, hsome]
        exact (hm.resolving ▸ hresolving).symm
      · simp only [resolveAttempt, Option.isSome_map, hm.exchange, hsome]
      · apply asked_resolveAttempt (hm.exchange.trans hexchange) hnone
        · exact hm.attempts ▸ hasked.attempts
        · omega
        · rw [hm.attempts, hmrec]
          omega
      · rw [overlapped_resolveAttempt hmpending, hm.overlapped, h.notOverlapped]

/-! ## What is recorded stays recorded -/

theorem stray_nextAttempt (r : Resolver α) : r.nextAttempt.stray = r.stray := r.prepareAttempt_spec.2.2.2.2.2

theorem stray_tryResolveNext (r : Resolver α) : r.tryResolveNext.stray = r.stray := by
  unfold tryResolveNext
  split
  · exact stray_nextAttempt _
  · rfl

theorem stray_call {call : Call} (hr : r.call call = some r') : r'.stray = r.stray := by
  cases call with
  | lookup hostname queryId =>
      cases hr
      exact stray_tryResolveNext _
  | cancelLookup ticket =>
      simp only [Resolver.call, Resolver.cancelLookup] at hr
      split at hr
      · cases hr
        exact stray_tryResolveNext _
      · split at hr
        · cases hr
          rfl
        · cases hr

theorem stray_react (hr : reactions.foldlM call r = some r') : r'.stray = r.stray := by
  induction reactions generalizing r with
  | nil =>
      cases hr
      rfl
  | cons reaction reactions ih =>
      obtain ⟨m, hm, hrest⟩ := Option.bind_eq_some_iff.mp hr
      exact (ih hrest).trans (stray_call hm)

theorem Outcome.stray {stray ends : Bool} (h : Outcome r stray reactions ends r') :
    r'.stray = stray := by
  cases h with
  | ends result hdone hm =>
      obtain ⟨nameLookup, hresolving, hdone⟩ := Option.bind_eq_some_iff.mp hdone
      obtain ⟨m', hm', rfl⟩ := Option.map_eq_some_iff.mp hdone
      rw [stray_tryResolveNext, stray_react hm']
      exact hm.stray
  | nextAttempt hm _ => exact (stray_nextAttempt _).trans hm.stray
  | recursion hm _ _ => exact hm.stray

/-- A lookup that goes on while a send stream is pending requests another one. -/
theorem Outcome.overlapped {stray : Bool} (h : Outcome r stray reactions false r')
    (hpending : r.pending = true) : r'.overlapped = true := by
  have hattempt {m : Resolver α} (hm : m.pending = true) : m.resolveAttempt.overlapped = true := by
    simp [resolveAttempt, hm]
  cases h with
  | @nextAttempt m hm _ =>
      rw [nextAttempt_eq]
      apply hattempt
      rw [Resolver.pending, m.prepareAttempt_spec.1]
      exact hm.pending.trans hpending
  | recursion hm _ _ => exact hattempt (hm.pending.trans hpending)

/-! ## Runs -/

theorem Inv.good (h : r.Inv) : r.Good := by
  have hnodup := h.served.places.nodup_iff.mpr List.nodup_range
  simp only [List.nodup_append, List.mem_append] at hnodup
  have hopen (ticket : Nat) : r.IsOpen ticket ↔
      ticket ∈ r.waiting.map (·.ticket) ∨ ticket ∈ r.resolving.toList.map (·.ticket) := by
    simp [IsOpen]
  refine ⟨?_, h.served.started, ?_, ?_, ?_, ?_, h.notOverlapped, h.notStray⟩
  · rintro ticket hstarted (hwaiting | hresolving)
    · exact absurd (h.served.started_lt ticket hstarted ticket hwaiting) (lt_irrefl ticket)
    · exact hresolving
  · intro ticket hlt hclosed hcancelled
    rw [hopen, not_or] at hclosed
    have hmem := h.served.places.symm.subset (List.mem_range.mpr hlt)
    simp only [List.mem_append] at hmem
    have hanswered : ticket ∈ r.answered := by tauto
    exact List.count_eq_one_of_mem hnodup.2.1.2.1.1 hanswered
  · intro ticket hticket hanswered
    rw [hopen] at hticket
    rcases hticket with hwaiting | hresolving
    · exact hnodup.2.2 ticket hwaiting ticket (.inr (.inl hanswered)) rfl
    · exact hnodup.2.1.2.2 ticket hresolving ticket (.inl hanswered) rfl
  · intro ticket hcancelled hanswered
    exact hnodup.2.1.2.1.2.2 ticket hanswered ticket hcancelled rfl
  · intro exchange hmem
    have hasked := h.asked exchange hmem
    have hcount := hasked.count
    have hattempts := hasked.attempts
    have hrecursions := hasked.recursions
    simp only [maxAttempts, maxRecursions] at *
    omega

variable [DecidableEq α]

/-- Without a pending send stream the current query is the last one. -/
theorem Inv.answersLastQuery (h : r.Inv) (hsome : r.datagramExchange.isSome = true) (hpending : r.pending = false)
    {source : α} {reply : Reply α} (haccepted : r.answerIsForCurrentQuery source reply = true) :
    r.answersLastQuery source reply = true := by
  obtain ⟨exchange, hexchange⟩ := Option.isSome_iff_exists.mp hsome
  have hlast := (h.asked exchange hexchange).last ((pending_eq_false hexchange).mp hpending)
  simp only [answerIsForCurrentQuery, Bool.and_eq_true, decide_eq_true_eq] at haccepted
  simp [Resolver.answersLastQuery, hexchange, hlast, haccepted]

theorem Inv.step (h : r.Inv) {e : Event α} (htimely : r.Timely e) (hr : r.step e = some r') : r'.Inv := by
  cases e with
  | call call => exact h.call hr
  | dataReceived source reply reactions =>
      simp only [Resolver.step, dataReceived] at hr
      split at hr
      · cases hr
      · rename_i hsome
        have hsome : r.datagramExchange.isSome = true := by simpa [Option.isSome_iff_ne_none] using hsome
        split at hr
        · rename_i haccepted
          have hanswers : r.answersLastQuery source reply = true := by
            cases hpending : r.pending with
            | true => exact (htimely hpending haccepted).1
            | false => exact h.answersLastQuery hsome hpending haccepted
          simp only [hanswers, h.notStray, Bool.not_true, Bool.or_false] at hr
          exact h.outcome hsome (outcome_accepted hr) fun hpending => (htimely hpending haccepted).2
        · cases hr
          exact h
  | sendStreamAvailable =>
      simp only [Resolver.step, sendStreamAvailable] at hr
      split at hr
      · rename_i server pending sent hexchange
        cases hr
        have hasked := h.asked _ hexchange
        obtain ⟨rfl, rfl⟩ := List.cons_eq_cons.mp (hasked.single (by simp))
        refine ⟨h.served.of_book rfl, ?_, fun _ => rfl, ?_, h.notOverlapped, h.notStray⟩
        · have hboth := h.exchange
          rw [hexchange] at hboth
          exact hboth
        · intro exchange hmem
          cases hmem
          have hcount := hasked.count
          refine ⟨hasked.attempts, hasked.recursions, ?_, fun _ => rfl, fun hne => absurd rfl hne⟩
          simp only [List.length_cons, List.length_nil] at hcount ⊢
          omega
      · cases hr
  | timeout reactions =>
      simp only [Resolver.step] at hr
      split at hr
      · rename_i htimer
        have hout := h.notStray ▸ outcome_timeout hr
        exact h.outcome (h.timer htimer) hout fun hpending => decide_eq_true (htimely hpending)
      · cases hr

/-- An event that comes in between makes the resolver request a second send stream, or accept a reply to
a query that it has not sent. -/
theorem Inv.not_good (h : r.Inv) {e : Event α} (htimely : ¬ r.Timely e) (hr : r.step e = some r') : ¬ r'.Good := by
  intro hgood
  cases e with
  | call call => exact htimely trivial
  | sendStreamAvailable => exact htimely trivial
  | dataReceived source reply reactions =>
      apply htimely
      intro hpending haccepted
      simp only [Resolver.step, dataReceived, haccepted, if_true] at hr
      split at hr
      · cases hr
      · have hout := outcome_accepted hr
        have hanswers : r.answersLastQuery source reply = true := by
          have := hout.stray.symm.trans hgood.notStray
          simpa [h.notStray] using this
        refine ⟨hanswers, ?_⟩
        cases hends : r.endsLookup reply with
        | true => rfl
        | false =>
            rw [hends] at hout
            exact absurd (hout.overlapped hpending) (by simp [hgood.notOverlapped])
  | timeout reactions =>
      apply htimely
      intro hpending
      simp only [Resolver.step] at hr
      split at hr
      · have hout := outcome_timeout hr
        by_contra hattempts
        rw [decide_eq_false hattempts] at hout
        exact absurd (hout.overlapped hpending) (by simp [hgood.notOverlapped])
      · cases hr

/-- **The resolver keeps its promises in a run if and only if every timeout and every accepted reply comes
when no send stream is pending.** Those that do no harm are left out: a timeout or an answer
to the last query that ends the lookup. -/
theorem good_iff_timely (dnsServers : List α) (events : List (Event α)) (r : Resolver α)
    (h : EventSystem.run step (create dnsServers) events = some r) :
    EventSystem.Always step Good (create dnsServers) events
      ↔ EventSystem.Along step Timely (create dnsServers) events :=
  EventSystem.always_iff_along Inv (fun _ hr => hr.good) (fun _ _ _ hr ht hs => hr.step ht hs)
    (fun _ _ _ hr ht hs => hr.not_good ht hs) (inv_create dnsServers) h

/-- A reply to every question, with an error or with an address. -/
def replyOf (flags : UInt16) (id : UInt16) (answers : List (Record Nat)) : Reply Nat where
  id := id
  flags := flags
  questionsCount := 1
  hostnameMatches := fun _ => true
  type := Reply.typeA
  class_ := Reply.classIn
  answers := answers
  nameServers := []

/-- After an error reply the timer of the query before runs on. It expires while the send stream for the
next attempt is pending. -/
theorem not_good_of_timeout_pending : ¬ ∀ (dnsServers : List Nat) (events : List (Event Nat)) (r : Resolver Nat),
    EventSystem.run step (create dnsServers) events = some r → r.Good := by
  intro hall
  have h := hall [1, 2] [.call (.lookup (literal "a") 7), .sendStreamAvailable,
    .dataReceived 2 (replyOf 0x8001 7 []) [], .timeout []] _ rfl
  exact absurd h.notOverlapped (by decide)

/-- A lookup that gets its answer, after which the next one is taken. -/
theorem good_iff_timely_run : ∃ r : Resolver Nat,
    EventSystem.Always step Good (create [1, 2])
      [.call (.lookup (literal "a") 7), .call (.lookup (literal "b") 8), .sendStreamAvailable,
        .dataReceived 2 (replyOf 0x8000 7 [{ hostnameMatches := fun _ => true, resource := .address 80 false }]) []]
    ∧ EventSystem.run step (create [1, 2])
      [.call (.lookup (literal "a") 7), .call (.lookup (literal "b") 8), .sendStreamAvailable,
        .dataReceived 2 (replyOf 0x8000 7 [{ hostnameMatches := fun _ => true, resource := .address 80 false }]) []]
        = some r
    ∧ r.results = [(0, .done 80)] ∧ r.started = [1, 0] := by
  refine ⟨_, (good_iff_timely [1, 2] _ _ rfl).mpr ?_, rfl, rfl, rfl⟩
  refine EventSystem.along_cons rfl trivial (EventSystem.along_cons rfl trivial ?_)
  refine EventSystem.along_cons rfl trivial (EventSystem.along_cons rfl ?_ trivial)
  intro hpending
  exact absurd hpending (by decide)

end Resolver

end EmbeddedInfra.DnsResolver
