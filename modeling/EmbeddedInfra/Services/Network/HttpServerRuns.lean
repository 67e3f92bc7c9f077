import EmbeddedInfra.Services.Network.HttpRequestHead
import EmbeddedInfra.Services.Network.HttpServer

set_option autoImplicit false

/-! # Runs of the HTTP server

A request is received part by part, handled once, and answered on the stream that has been granted
(`Good`), as long as the client waits for the answer before it sends the next request (`Orderly`). While a
page has a request, more data is only harmless when it fits the buffer behind the request and is complete
with it, for then the connection is closed. `Phase` says which of these the server is doing.
-/

namespace EmbeddedInfra.Http.HttpServerConnectionObserver

open EventSystem HttpRequestParser

/-! ## What has become of the requests -/

section Outcome

variable (s : HttpServerConnectionObserver) (r : BoundedString)

/-- What the server answers itself, without a page. -/
def ownResponse : Option HttpResponse :=
  if s.maxSize < r.length then some HttpResponse.outOfMemory
  else if (parse r).valid = false then some HttpResponse.badRequest
  else if (s.pageForRequest (parse r)).isNone then some HttpResponse.notFound
  else none

/-- The client is told to continue. -/
def continues : Bool :=
  decide (r.length ≤ s.maxSize) && (parse r).valid && expect100 (parse r)

/-- The response is one to the request. -/
def Answers (sent : SentResponse) : Prop :=
  sent.send100Response = s.continues r ∧ ∀ response ∈ s.ownResponse r, sent.response = response

end Outcome

/-- The requests that have come in are the ones that have been answered, in their order, the one that a
page has, and those that wait. Each of them that is for a page has been given to it once, as it is read when it
comes in as one chunk. -/
structure Accounts (s : HttpServerConnectionObserver) (answered waiting : List BoundedString) : Prop where
  arrived : s.arrived = answered ++ (s.inService.toList ++ waiting)
  calls : s.calls =
    (answered.filter (fun r => (s.ownResponse r).isNone) ++ s.inService.toList).map parse
  responses : List.Forall₂ s.Answers answered s.responses

/-- **What the server promises.** `SendResponse` has not been executed without a stream, the request that a
page has is still in the buffer, and of the requests that have come in at most one waits, and none while there is
a stream. -/
structure Good (s : HttpServerConnectionObserver) : Prop where
  halted : s.halted ≠ some .noStream
  buffer : ∀ r ∈ s.inService, r <+: s.buffer
  accounts : ∃ answered waiting, s.Accounts answered waiting ∧
    (s.Live → waiting.length ≤ 1 ∧ (s.streamWriter = true → waiting = []))

/-! ## The condition -/

/-- A part of a well-formed request, that fits the buffer when it is read before the rest. -/
def Continues (s : HttpServerConnectionObserver) (part : Part) : Prop :=
  (part.last = true → ∃ r : RequestText, s.arriving ++ part.bytes = r.text) ∧
  (part.last = false → (∃ r : RequestText, s.arriving ++ part.bytes <+: r.text ∧ s.arriving ++ part.bytes ≠ r.text) ∧
    (s.streamWriter = true → (s.arriving ++ part.bytes).length ≤ s.maxSize))

/-- The request that comes in is the next one after an answer. -/
def InTurn (s : HttpServerConnectionObserver) (parts : List Part) : Prop :=
  s.inService = none ∧ s.arrived.length = s.responses.length ∧ ∃ part, parts = [part] ∧ s.Continues part

/-- What comes in while a page has a request, fits behind it and does not announce more. -/
def Closes (s : HttpServerConnectionObserver) (parts : List Part) : Prop :=
  s.inService.isSome ∧ chunk parts ≠ [] ∧ (s.buffer ++ chunk parts).length ≤ s.maxSize ∧
    (parse (s.buffer ++ chunk parts)).complete = true

/-- The client waits for the answer before it sends the next request, a too long request is there as a whole
when it is read, and a page does not answer after the connection is gone. -/
def Orderly (s : HttpServerConnectionObserver) : Event → Prop
  | .data parts _ => s.InTurn parts ∨ s.Closes parts
  | .sendStreamAvailable _ => s.arriving.length ≤ s.maxSize
  | .respond _ => s.closed = false
  | .initialIdleExpired => True
  | .closeWhenIdle => True
  | .closingConnection => True

/-! ## The invariant -/

/-- No request is being handled. -/
structure Quiet (s : HttpServerConnectionObserver) : Prop where
  inService : s.inService = none
  requestInProgress : s.requestInProgress = false
  send100Response : s.send100Response = false

/-- A page has the request. -/
structure Serving (s : HttpServerConnectionObserver) (r : BoundedString) : Prop where
  streamWriter : s.streamWriter = true
  streamRequested : s.streamRequested = false
  inService : s.inService = some r
  requestInProgress : s.requestInProgress = true
  send100Response : s.send100Response = s.continues r
  own : s.ownResponse r = none
  complete : (parse r).complete = true
  buffer : s.buffer = r
  received : s.received = []
  arriving : s.arriving = []

/-- What the server is doing, and which of the requests wait. -/
inductive Phase (s : HttpServerConnectionObserver) : List BoundedString → Prop
  | awaiting (hstream : s.streamWriter = false) (hquiet : s.Quiet) (hbuffer : s.buffer = [])
      (hreceived : s.received = s.arriving) : Phase s []
  | pending (r : RequestText) (hstream : s.streamWriter = false) (hquiet : s.Quiet) (hbuffer : s.buffer = [])
      (hreceived : s.received = r.text) (harriving : s.arriving = []) : Phase s [r.text]
  | reading (hstream : s.streamWriter = true) (hrequested : s.streamRequested = false) (hquiet : s.Quiet)
      (hbuffer : s.buffer = s.arriving) (hreceived : s.received = []) (hfits : s.arriving.length ≤ s.maxSize) : Phase s []
  | serving (r : BoundedString) (hserving : s.Serving r) : Phase s []

/-- What holds while the program runs and the connection is there. -/
structure Working (s : HttpServerConnectionObserver) : Prop where
  part : (parse s.arriving).complete = false
  phase : ∃ answered waiting, s.Accounts answered waiting ∧ s.Phase waiting

structure Inv (s : HttpServerConnectionObserver) : Prop where
  good : s.Good
  working : s.Live → s.Working

variable {s : HttpServerConnectionObserver} {r : BoundedString} {answered waiting : List BoundedString}
  {response : HttpResponse} {answer : Option HttpResponse}

/-- The phases do what the server promises. -/
theorem Phase.prompt (h : s.Phase waiting) : waiting.length ≤ 1 ∧ (s.streamWriter = true → waiting = []) := by
  cases h with
  | awaiting => simp
  | pending r hstream => simp [hstream]
  | reading => simp
  | serving => simp

theorem Phase.buffer (h : s.Phase waiting) : ∀ r ∈ s.inService, r <+: s.buffer := by
  intro r hr
  cases h with
  | awaiting _ hquiet => simp [hquiet.inService] at hr
  | pending _ _ hquiet => simp [hquiet.inService] at hr
  | reading _ _ hquiet => simp [hquiet.inService] at hr
  | serving r' hserving =>
      rw [hserving.inService, Option.mem_some_iff] at hr
      rw [hserving.buffer, hr]

theorem inv_of_phase (hhalted : s.halted = none) (hpart : (parse s.arriving).complete = false)
    (haccounts : s.Accounts answered waiting) (hphase : s.Phase waiting) : s.Inv where
  good := {
    halted := by simp [hhalted]
    buffer := hphase.buffer
    accounts := ⟨answered, waiting, haccounts, fun _ => hphase.prompt⟩ }
  working := fun _ => ⟨hpart, answered, waiting, haccounts, hphase⟩

/-- After the end of the program or of the connection only the past counts. -/
theorem inv_of_not_live (hlive : ¬ s.Live) (hhalted : s.halted ≠ some .noStream)
    (hbuffer : ∀ r ∈ s.inService, r <+: s.buffer) (haccounts : s.Accounts answered waiting) : s.Inv where
  good := {
    halted := hhalted
    buffer := hbuffer
    accounts := ⟨answered, waiting, haccounts, fun h => absurd h hlive⟩ }
  working := fun h => absurd h hlive

theorem parse_nil_complete : (parse []).complete = false := by
  decide

/-- A request has been answered and the stream is given back. -/
theorem inv_of_answered (hhalted : s.halted = none) (hquiet : s.Quiet) (hstream : s.streamWriter = false)
    (hbuffer : s.buffer = []) (hreceived : s.received = []) (harriving : s.arriving = [])
    (haccounts : s.Accounts answered []) : s.Inv := by
  apply inv_of_phase hhalted ?_ haccounts
  · exact .awaiting hstream hquiet hbuffer (by rw [hreceived, harriving])
  · rw [harriving]
    exact parse_nil_complete

theorem prepareForNextRequest_eq : s.prepareForNextRequest =
    { s with streamWriter := false, streamRequested := true, idle := true, requestInProgress := false
             send100Response := false, buffer := [], closed := s.closed || s.closeWhenIdle } := by
  cases h : s.closeWhenIdle <;> simp [prepareForNextRequest, requestSendStream, close, h]

/-- With a stream, a response is sent, or it does not fit. -/
theorem sendResponse_cases (hstream : s.streamWriter = true) :
    s.sendResponse response = { s with halted := some .noRoom } ∨
      s.sendResponse response =
        prepareForNextRequest { s with responses := s.responses ++ [⟨s.send100Response, response⟩] } := by
  unfold sendResponse
  rw [if_neg (show ¬ s.streamWriter = false by simp [hstream])]
  split
  · exact Or.inl rfl
  · split
    · exact Or.inl rfl
    · exact Or.inr rfl

/-- The server answers the request that has just come in itself. -/
theorem sendResponse_inv (hlive : s.Live) (hstream : s.streamWriter = true) (hservice : s.inService = none)
    (hreceived : s.received = []) (harriving : s.arriving = []) (haccounts : s.Accounts answered [r])
    (hcontinues : s.send100Response = s.continues r) (hown : s.ownResponse r = some response) :
    (s.sendResponse response).Inv := by
  rcases sendResponse_cases hstream with heq | heq
  · rw [heq]
    refine @inv_of_not_live _ answered [r] (by simp [Live]) (by simp) ?_ { haccounts with }
    simp [hservice]
  · rw [heq, prepareForNextRequest_eq]
    refine @inv_of_answered _ (answered ++ [r]) hlive.1 ⟨hservice, rfl, rfl⟩ rfl rfl hreceived harriving ?_
    refine ⟨?_, ?_, ?_⟩
    · have := haccounts.arrived
      simp only [hservice, Option.toList_none, List.nil_append] at this
      simp only [this, hservice, Option.toList_none, List.append_nil]
    · have hfilter : (answered ++ [r]).filter (fun r => (s.ownResponse r).isNone) =
          answered.filter (fun r => (s.ownResponse r).isNone) := by simp [hown]
      show s.calls = ((answered ++ [r]).filter (fun r => (s.ownResponse r).isNone) ++ s.inService.toList).map _
      rw [hfilter]
      exact haccounts.calls
    · apply List.rel_append haccounts.responses
      refine List.Forall₂.cons ⟨hcontinues, ?_⟩ List.Forall₂.nil
      intro response' hmem
      have hsame : response' ∈ s.ownResponse r := hmem
      rw [hown, Option.mem_some_iff] at hsame
      exact hsame

/-- The page answers the request that it has. -/
theorem respond_inv (hlive : s.Live) (haccounts : s.Accounts answered []) (hserving : s.Serving r) :
    (s.respond response).Inv := by
  have hservice := hserving.inService
  rcases @sendResponse_cases s response hserving.streamWriter with heq | heq
  · have hrespond : s.respond response = { s with halted := some .noRoom } := by simp [respond, heq]
    rw [hrespond]
    refine @inv_of_not_live _ answered [] (by simp [Live]) (by simp) ?_ { haccounts with }
    intro r' hr'
    have hsame : r' ∈ s.inService := hr'
    rw [hservice, Option.mem_some_iff] at hsame
    rw [← hsame]
    exact hserving.buffer ▸ List.prefix_rfl
  · have hrespond : s.respond response = { s with
        streamWriter := false, streamRequested := true, idle := true, requestInProgress := false
        send100Response := false, buffer := [], closed := s.closed || s.closeWhenIdle, inService := none
        responses := s.responses ++ [⟨s.send100Response, response⟩] } := by
      simp [respond, heq, prepareForNextRequest_eq, hlive.1]
    rw [hrespond]
    refine @inv_of_answered _ (answered ++ [r]) hlive.1 ⟨rfl, rfl, rfl⟩ rfl rfl hserving.received hserving.arriving ?_
    refine ⟨?_, ?_, ?_⟩
    · have := haccounts.arrived
      simpa [hservice] using this
    · have hfilter : (answered ++ [r]).filter (fun r => (s.ownResponse r).isNone) =
          answered.filter (fun r => (s.ownResponse r).isNone) ++ [r] := by simp [hserving.own]
      show s.calls = ((answered ++ [r]).filter (fun r => (s.ownResponse r).isNone) ++ []).map _
      rw [hfilter, List.append_nil, haccounts.calls, hservice]
      rfl
    · apply List.rel_append haccounts.responses
      refine List.Forall₂.cons ⟨hserving.send100Response, ?_⟩ List.Forall₂.nil
      intro response' hmem
      have hsame : response' ∈ s.ownResponse r := hmem
      simp [hserving.own] at hsame

/-! ## A request that has come in -/

/-- A whole request is given to its page, or there is none. -/
theorem servePage_inv (hlive : s.Live) (hstream : s.streamWriter = true) (hrequested : s.streamRequested = false)
    (hservice : s.inService = none) (hprogress : s.requestInProgress = true) (hreceived : s.received = [])
    (harriving : s.arriving = []) (hbuffer : s.buffer = r) (hfits : r.length ≤ s.maxSize)
    (hvalid : (parse r).valid = true) (hcomplete : (parse r).complete = true)
    (hcontinues : s.send100Response = s.continues r) (haccounts : s.Accounts answered [r]) :
    (s.servePage (parse r) answer).Inv := by
  have hlong : ¬ s.maxSize < r.length := by omega
  have hnot : ¬ (parse r).valid = false := by simp [hvalid]
  cases hpage : s.pageForRequest (parse r) with
  | none =>
      simp only [servePage, hpage]
      apply sendResponse_inv hlive hstream hservice hreceived harriving haccounts hcontinues
      simp [ownResponse, hlong, hvalid, hpage]
  | some page =>
      have hown : s.ownResponse r = none := by simp [ownResponse, hlong, hvalid, hpage]
      have hserving : (s.called (parse r)).Serving r :=
        ⟨hstream, hrequested, congrArg some hbuffer, hprogress, hcontinues, hown, hcomplete, hbuffer, hreceived, harriving⟩
      have haccounts' : (s.called (parse r)).Accounts answered [] := by
        refine ⟨?_, ?_, haccounts.responses⟩
        · have := haccounts.arrived
          simpa [called, hservice, hbuffer] using this
        · have hcalls := haccounts.calls
          rw [hservice, Option.toList_none, List.append_nil] at hcalls
          show s.calls ++ [parse r] =
            (answered.filter (fun r => (s.ownResponse r).isNone) ++ [s.buffer]).map parse
          rw [List.map_append, ← hcalls, hbuffer]
          rfl
      simp only [servePage, hpage]
      cases answer with
      | none =>
          apply inv_of_phase (show (s.called (parse r)).halted = none from hlive.1) ?_ haccounts'
            (.serving r hserving)
          rw [hserving.arriving]
          exact parse_nil_complete
      | some response => exact respond_inv hlive haccounts' hserving

/-- A whole request is in the buffer and is read. -/
theorem tryHandleRequest_inv (hlive : s.Live) (hstream : s.streamWriter = true)
    (hrequested : s.streamRequested = false) (hquiet : s.Quiet) (hreceived : s.received = []) (harriving : s.arriving = [])
    (hbuffer : s.buffer = r) (hfits : r.length ≤ s.maxSize) (hcomplete : (parse r).complete = true)
    (haccounts : s.Accounts answered [r]) : (s.tryHandleRequest (parse r) answer).Inv := by
  have hlong : ¬ s.maxSize < r.length := by omega
  unfold tryHandleRequest
  by_cases hvalid : (parse r).valid = false
  · rw [if_pos hvalid]
    refine sendResponse_inv hlive hstream hquiet.inService hreceived harriving haccounts ?_ ?_
    · simp [continues, hvalid, hquiet.send100Response]
    · simp [ownResponse, hlong, hvalid]
  · have hprogress : ¬ s.requestInProgress = true := by simp [hquiet.requestInProgress]
    rw [if_neg hvalid, if_neg hprogress]
    rw [Bool.not_eq_false] at hvalid
    unfold handleRequest
    refine servePage_inv hlive hstream hrequested hquiet.inService rfl hreceived harriving hbuffer hfits hvalid
      hcomplete ?_ { haccounts with }
    show (s.send100Response || expect100 (parse r)) = s.continues r
    simp [continues, hquiet.send100Response, hfits, hvalid]

/-- A whole request is read from the connection, behind the part of it that is in the buffer. -/
theorem dataReceived_request_inv {r : RequestText} (hlive : s.Live) (hstream : s.streamWriter = true)
    (hrequested : s.streamRequested = false) (hquiet : s.Quiet) (harriving : s.arriving = [])
    (htext : s.buffer ++ s.received = r.text) (hbuffer : s.buffer.length ≤ s.maxSize)
    (hpart : (parse s.buffer).complete = false) (haccounts : s.Accounts answered [r.text]) : (s.dataReceived answer).Inv := by
  have hlength : s.buffer.length + s.received.length = r.text.length := by
    rw [← htext, List.length_append]
  unfold dataReceived
  rw [if_neg (show ¬ s.streamWriter = false by simp [hstream])]
  by_cases hlong : s.maxSize - s.buffer.length < s.received.length
  · have hmax : s.maxSize < r.text.length := by omega
    rw [if_pos hlong, receivedTooMuchData]
    refine sendResponse_inv hlive hstream hquiet.inService rfl harriving
      { haccounts with } ?_ ?_
    · show s.send100Response = s.continues r.text
      simp [continues, hquiet.send100Response, hmax]
    · show s.ownResponse r.text = _
      simp [ownResponse, hmax]
  · have hsome : s.received ≠ [] := by
      intro hnil
      rw [hnil, List.append_nil] at htext
      rw [htext, r.complete_text] at hpart
      exact Bool.noConfusion hpart
    rw [if_neg hlong, if_neg hsome]
    have hfits : r.text.length ≤ s.maxSize := by omega
    simp only [receivedRequest, htext, r.complete_text, if_true]
    exact tryHandleRequest_inv hlive hstream hrequested
      { hquiet with } rfl harriving rfl hfits r.complete_text
      { haccounts with }

/-- A part of a request is read from the connection. -/
theorem dataReceived_part_inv (hlive : s.Live) (hstream : s.streamWriter = true)
    (hrequested : s.streamRequested = false) (hquiet : s.Quiet) (hpart : (parse s.arriving).complete = false)
    (htext : s.buffer ++ s.received = s.arriving) (hfits : s.arriving.length ≤ s.maxSize)
    (haccounts : s.Accounts answered []) : (s.dataReceived answer).Inv := by
  have hlength : s.buffer.length + s.received.length = s.arriving.length := by
    rw [← htext, List.length_append]
  unfold dataReceived
  rw [if_neg (show ¬ s.streamWriter = false by simp [hstream]),
    if_neg (show ¬ s.maxSize - s.buffer.length < s.received.length by omega)]
  by_cases hsome : s.received = []
  · rw [if_pos hsome]
    rw [hsome, List.append_nil] at htext
    exact inv_of_phase hlive.1 hpart haccounts (.reading hstream hrequested hquiet htext hsome hfits)
  · rw [if_neg hsome]
    simp only [receivedRequest, htext, hpart]
    refine @inv_of_phase _ answered [] hlive.1 hpart { haccounts with } ?_
    exact .reading hstream hrequested { hquiet with } rfl rfl hfits

/-! ## One step -/

theorem close_inv (hgood : s.Good) : s.close.Inv := by
  obtain ⟨answered, waiting, haccounts, -⟩ := hgood.accounts
  refine @inv_of_not_live _ answered waiting (by simp [Live, close]) hgood.halted hgood.buffer ?_
  exact { haccounts with }

/-- The flags that only decide when the connection is closed. -/
theorem Inv.flags (hinv : s.Inv) (idle initialIdle closeWhenIdle : Bool) :
    Inv { s with idle := idle, initialIdle := initialIdle, closeWhenIdle := closeWhenIdle } := by
  obtain ⟨⟨hhalted, hbuffer, answered, waiting, haccounts, hprompt⟩, hworking⟩ := hinv
  constructor
  · exact ⟨hhalted, hbuffer, answered, waiting, { haccounts with }, hprompt⟩
  · intro hlive
    obtain ⟨hpart, answered, waiting, haccounts, hphase⟩ := hworking hlive
    refine ⟨hpart, answered, waiting, { haccounts with }, ?_⟩
    cases hphase with
    | awaiting hstream hquiet hbuffer hreceived =>
        exact .awaiting hstream { hquiet with } hbuffer hreceived
    | pending r hstream hquiet hbuffer hreceived harriving =>
        exact .pending r hstream { hquiet with } hbuffer hreceived
          harriving
    | reading hstream hrequested hquiet hbuffer hreceived hfits =>
        exact .reading hstream hrequested { hquiet with } hbuffer
          hreceived hfits
    | serving r h =>
        exact .serving r ⟨h.streamWriter, h.streamRequested, h.inService, h.requestInProgress, h.send100Response, h.own,
          h.complete, h.buffer, h.received, h.arriving⟩

theorem initialIdleExpired_inv (hinv : s.Inv) : s.initialIdleExpired.Inv := by
  have hflags := hinv.flags true false s.closeWhenIdle
  simp only [initialIdleExpired]
  split
  · exact close_inv hflags.good
  · exact hflags

theorem closeOnceIdle_inv (hinv : s.Inv) : s.closeOnceIdle.Inv := by
  have hflags := hinv.flags s.idle s.initialIdle true
  simp only [closeOnceIdle]
  split
  · exact close_inv hflags.good
  · exact hflags

/-- A stream is granted. -/
theorem sendStreamAvailable_inv (hlive : s.Live) (hworking : s.Working) (hrequested : s.streamRequested = true)
    (hfits : s.arriving.length ≤ s.maxSize) : (s.sendStreamAvailable answer).Inv := by
  obtain ⟨hpart, answered, waiting, haccounts, hphase⟩ := hworking
  have haccounts' : Accounts { s with streamWriter := true, streamRequested := false } answered waiting :=
    { haccounts with }
  unfold sendStreamAvailable
  cases hphase with
  | awaiting hstream hquiet hbuffer hreceived =>
      refine dataReceived_part_inv hlive rfl rfl { hquiet with }
        hpart ?_ hfits haccounts'
      simp [hbuffer, hreceived]
  | pending r hstream hquiet hbuffer hreceived harriving =>
      refine dataReceived_request_inv hlive rfl rfl { hquiet with }
        harriving ?_ ?_ ?_ haccounts'
      · simp [hbuffer, hreceived]
      · simp [hbuffer]
      · simp [hbuffer, parse_nil_complete]
  | reading _ hnot => simp [hnot] at hrequested
  | serving r hserving => simp [hserving.streamRequested] at hrequested

/-- What a chunk adds to the record. -/
theorem foldl_arrive (s : HttpServerConnectionObserver) (parts : List Part) : ∃ requests rest,
    parts.foldl arrive s = { s with arrived := s.arrived ++ requests, arriving := rest } := by
  induction parts generalizing s with
  | nil => exact ⟨[], s.arriving, by simp⟩
  | cons part parts ih =>
      obtain ⟨requests, rest, heq⟩ := ih (s.arrive part)
      cases hlast : part.last with
      | true =>
          refine ⟨(s.arriving ++ part.bytes) :: requests, rest, ?_⟩
          rw [List.foldl_cons, heq]
          simp [arrive, hlast]
      | false =>
          refine ⟨requests, rest, ?_⟩
          rw [List.foldl_cons, heq]
          simp [arrive, hlast]

theorem receive_last {part : Part} (hlast : part.last = true) : s.receive [part] =
    { s with arrived := s.arrived ++ [s.arriving ++ part.bytes], arriving := [], received := s.received ++ part.bytes } := by
  simp [receive, arrive, hlast, chunk]

theorem receive_not_last {part : Part} (hlast : part.last = false) : s.receive [part] =
    { s with arriving := s.arriving ++ part.bytes, received := s.received ++ part.bytes } := by
  simp [receive, arrive, hlast, chunk]

/-- The requests of a chunk wait behind the others. -/
theorem Accounts.receive (h : s.Accounts answered waiting) (requests : List BoundedString) (rest received : BoundedString) :
    Accounts { s with arrived := s.arrived ++ requests, arriving := rest, received := received } answered
      (waiting ++ requests) where
  arrived := by simp [h.arrived]
  calls := h.calls
  responses := h.responses

theorem dataReceived_of_no_stream (hstream : s.streamWriter = false) : s.dataReceived answer = s :=
  if_pos hstream

/-- The last part of a request comes in. -/
theorem data_last_inv {part : Part} {r : RequestText} (hlive : s.Live) (haccounts : s.Accounts answered [])
    (hphase : s.Phase []) (hservice : s.inService = none) (hpart : (parse s.arriving).complete = false)
    (hlast : part.last = true) (hr : s.arriving ++ part.bytes = r.text) :
    ((s.receive [part]).dataReceived answer).Inv := by
  have haccounts' := haccounts.receive [s.arriving ++ part.bytes] [] (s.received ++ part.bytes)
  rw [List.nil_append] at haccounts'
  rw [receive_last hlast]
  rw [hr] at haccounts' ⊢
  cases hphase with
  | serving r hserving => simp [hserving.inService] at hservice
  | awaiting hstream hquiet hbuffer hreceived =>
      rw [dataReceived_of_no_stream (by exact hstream)]
      refine inv_of_phase hlive.1 parse_nil_complete haccounts' ?_
      exact .pending r hstream { hquiet with } hbuffer
        (by rw [← hr, hreceived]) rfl
  | reading hstream hrequested hquiet hbuffer hreceived hfits =>
      refine dataReceived_request_inv hlive hstream hrequested
        { hquiet with } rfl ?_ ?_ ?_ haccounts'
      · simp only [hbuffer, hreceived, List.nil_append, hr]
      · exact hbuffer ▸ hfits
      · exact hbuffer ▸ hpart

/-- A part of a request comes in, and it is not the last one. -/
theorem data_not_last_inv {part : Part} (hlive : s.Live) (haccounts : s.Accounts answered []) (hphase : s.Phase [])
    (hservice : s.inService = none) (hlast : part.last = false)
    (hpart : (parse (s.arriving ++ part.bytes)).complete = false)
    (hroom : s.streamWriter = true → (s.arriving ++ part.bytes).length ≤ s.maxSize) :
    ((s.receive [part]).dataReceived answer).Inv := by
  have haccounts' := haccounts.receive [] (s.arriving ++ part.bytes) (s.received ++ part.bytes)
  rw [List.append_nil, List.append_nil] at haccounts'
  rw [receive_not_last hlast]
  cases hphase with
  | serving r hserving => simp [hserving.inService] at hservice
  | awaiting hstream hquiet hbuffer hreceived =>
      rw [dataReceived_of_no_stream (by exact hstream)]
      refine inv_of_phase hlive.1 hpart haccounts' ?_
      exact .awaiting hstream { hquiet with } hbuffer
        (congrArg (· ++ part.bytes) hreceived)
  | reading hstream hrequested hquiet hbuffer hreceived hfits =>
      refine dataReceived_part_inv hlive hstream hrequested
        { hquiet with } hpart ?_ (hroom hstream) haccounts'
      simp only [hbuffer, hreceived, List.nil_append]

/-- The next part of a request comes in. -/
theorem data_inTurn_inv {parts : List Part} (hlive : s.Live) (hworking : s.Working) (hturn : s.InTurn parts) :
    ((s.receive parts).dataReceived answer).Inv := by
  obtain ⟨hpart, answered, waiting, haccounts, hphase⟩ := hworking
  obtain ⟨hservice, hcount, part, rfl, hwhole, hsome⟩ := hturn
  -- All that has come in is answered, so that no request waits.
  have hwaiting : waiting = [] := by
    have hlength := haccounts.responses.length_eq
    rw [haccounts.arrived, hservice, Option.toList_none, List.nil_append, List.length_append] at hcount
    exact List.length_eq_zero_iff.mp (by omega)
  subst hwaiting
  cases hlast : part.last with
  | true =>
      obtain ⟨r, hr⟩ := hwhole hlast
      exact data_last_inv hlive haccounts hphase hservice hpart hlast hr
  | false =>
      obtain ⟨⟨r, hsent, hne⟩, hroom⟩ := hsome hlast
      exact data_not_last_inv hlive haccounts hphase hservice hlast (r.not_complete_of_part hsent hne) hroom

/-- More data comes in while a page has a request: the connection is closed. -/
theorem data_closes_inv {parts : List Part} (hlive : s.Live) (hworking : s.Working) (hcloses : s.Closes parts) :
    ((s.receive parts).dataReceived answer).Inv := by
  obtain ⟨-, answered, waiting, haccounts, hphase⟩ := hworking
  obtain ⟨hservice, hsome, hroom, hcomplete⟩ := hcloses
  cases hphase with
  | awaiting _ hquiet => simp [hquiet.inService] at hservice
  | pending _ _ hquiet => simp [hquiet.inService] at hservice
  | reading _ _ hquiet => simp [hquiet.inService] at hservice
  | serving r hserving =>
      obtain ⟨requests, rest, hrecord⟩ := foldl_arrive s parts
      have hvalid : (parse r).valid = true := by
        have hown := hserving.own
        unfold ownResponse at hown
        split_ifs at hown with hlong hinvalid
        simpa using hinvalid
      have hvalid' := valid_append hserving.complete hvalid (chunk parts)
      rw [← hserving.buffer] at hvalid'
      have heq : (s.receive parts).dataReceived answer =
          close { s with buffer := s.buffer ++ chunk parts, arrived := s.arrived ++ requests, arriving := rest } := by
        rw [List.length_append] at hroom
        have hnot : ¬ s.maxSize - s.buffer.length < (chunk parts).length := by omega
        simp [receive, hrecord, dataReceived, receivedRequest, tryHandleRequest, hserving.streamWriter, hserving.received,
          hserving.requestInProgress, hnot, hsome, hcomplete, hvalid']
      rw [heq]
      have haccounts' := haccounts.receive requests rest s.received
      refine @inv_of_not_live _ answered requests ?_ ?_ ?_ { haccounts' with }
      · simp [Live, close]
      · simp [close, hlive.1]
      · intro r' hr'
        have hsame : r' ∈ s.inService := hr'
        rw [hserving.inService, Option.mem_some_iff] at hsame
        rw [← hsame, ← hserving.buffer]
        exact List.prefix_append _ _

theorem step_inv {s' : HttpServerConnectionObserver} {e : Event} (hinv : s.Inv) (horderly : s.Orderly e)
    (h : s.step e = some s') : s'.Inv := by
  unfold step at h
  split_ifs at h with hpossible
  rw [Option.some.injEq] at h
  subst h
  cases e with
  | data parts answer =>
      have hlive : s.Live := hpossible
      rcases horderly with hturn | hcloses
      · exact data_inTurn_inv hlive (hinv.working hlive) hturn
      · exact data_closes_inv hlive (hinv.working hlive) hcloses
  | sendStreamAvailable answer =>
      obtain ⟨hlive, hrequested⟩ := hpossible
      exact sendStreamAvailable_inv hlive (hinv.working hlive) hrequested horderly
  | respond response =>
      obtain ⟨hhalted, hservice⟩ := hpossible
      have hlive : s.Live := ⟨hhalted, horderly⟩
      obtain ⟨-, answered, waiting, haccounts, hphase⟩ := hinv.working hlive
      cases hphase with
      | awaiting _ hquiet => simp [hquiet.inService] at hservice
      | pending _ _ hquiet => simp [hquiet.inService] at hservice
      | reading _ _ hquiet => simp [hquiet.inService] at hservice
      | serving r hserving => exact respond_inv hlive haccounts hserving
  | initialIdleExpired => exact initialIdleExpired_inv hinv
  | closeWhenIdle => exact closeOnceIdle_inv hinv
  | closingConnection => exact close_inv hinv.good

/-! ## Whole runs -/

theorem connected_inv (pages : List (BoundedString → Bool)) (maxSize maxSendStreamSize : Nat) :
    (connected pages maxSize maxSendStreamSize []).Inv := by
  refine @inv_of_answered _ [] rfl ⟨rfl, rfl, rfl⟩ rfl rfl rfl rfl ?_
  exact ⟨rfl, rfl, List.Forall₂.nil⟩

/-- **The server keeps its promises on every orderly run**, in every state on the way. -/
theorem always_good_of_orderly (pages : List (BoundedString → Bool)) (maxSize maxSendStreamSize : Nat)
    (events : List Event) (horderly : Along step Orderly (connected pages maxSize maxSendStreamSize []) events) :
    Always step Good (connected pages maxSize maxSendStreamSize []) events := by
  intro earlier hearlier s hs
  have hinv : s.Inv := run_invariant_along Inv (fun _ _ _ hinv hcond hstep => step_inv hinv hcond hstep)
    (along_of_earlier horderly hearlier) hs (connected_inv pages maxSize maxSendStreamSize)
  exact hinv.good

/-- A request without headers and body. -/
def plainRequest : RequestText where
  line := literal "GET / HTTP/1.1"
  headers := []
  body := []
  line_oneLine := plainHead.line_oneLine
  formed := by simp
  announces := rfl

def plainResponse : HttpResponse :=
  { status := literal "200 OK", contentType := literal "text/html", headers := [], body := [] }

/-- The request comes in over two chunks and is answered later. -/
def splitRequest : List Event :=
  [.sendStreamAvailable none, .data [⟨plainRequest.text.take 5, false⟩] none,
    .data [⟨plainRequest.text.drop 5, true⟩] none, .respond plainResponse]

theorem always_good_of_orderly_splitRequest :
    Along step Orderly (connected [fun _ => true] 256 1024 []) splitRequest ∧
      Always step Good (connected [fun _ => true] 256 1024 []) splitRequest := by
  have horderly : Along step Orderly (connected [fun _ => true] 256 1024 []) splitRequest := by
    refine along_cons (if_pos (by decide)) (Nat.zero_le 256) ?_
    refine along_cons (if_pos (by decide)) (Or.inl ⟨rfl, rfl, _, rfl, nofun, fun _ => ?_⟩) ?_
    · exact ⟨⟨plainRequest, by decide, by decide⟩, by decide⟩
    refine along_cons (if_pos (by decide)) (Or.inl ⟨rfl, rfl, _, rfl, fun _ => ?_, nofun⟩) ?_
    · exact ⟨plainRequest, by decide⟩
    exact along_cons (if_pos (by decide)) rfl trivial
  exact ⟨horderly, always_good_of_orderly _ _ _ _ horderly⟩

/-- The page has the request when more data comes in than fits behind it. -/
def overflowInProgress : List Event :=
  [.sendStreamAvailable none, .data [⟨plainRequest.text, true⟩] none,
    .data [⟨List.replicate 250 (char 'a'), false⟩] none, .respond plainResponse]

theorem not_always_good_overflowInProgress :
    ¬ Always step Good (connected [fun _ => true] 256 1024 []) overflowInProgress := by
  intro h
  have hlast := h overflowInProgress List.prefix_rfl _
    (run_cons.mpr ⟨_, if_pos (by decide), run_cons.mpr ⟨_, if_pos (by decide), run_cons.mpr ⟨_, if_pos (by decide),
      run_cons.mpr ⟨_, if_pos (by decide +kernel), run_nil⟩⟩⟩⟩)
  exact hlast.halted (by decide +kernel)

end EmbeddedInfra.Http.HttpServerConnectionObserver
