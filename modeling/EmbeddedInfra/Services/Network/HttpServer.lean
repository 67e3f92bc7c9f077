import EmbeddedInfra.Lib.EventSystem
import EmbeddedInfra.Services.Network.HttpRequestFormatter

set_option autoImplicit false

/-! # The HTTP server

`services::HttpServerConnectionObserver` serves the requests of one connection. A request is collected in
a buffer until it is complete and is then given to a page, which answers at once or later. The response is
written into the same buffer before it goes to the send stream.

The model has the members of the observer, what it uses of the connection, and a record of what has been
sent, what the pages have been called with, and what has been answered.
-/

namespace EmbeddedInfra.Http

/-! ## Responses -/

/-- What the functions of a response give. The body is what `WriteBody` writes within its limit. -/
structure HttpResponse where
  status : BoundedString
  contentType : BoundedString
  headers : List HttpHeader
  body : BoundedString
  deriving DecidableEq, Repr

namespace HttpResponse

def addHeader (key value : BoundedString) : BoundedString := crlf ++ key ++ literal ": " ++ value

def writeResponse (response : HttpResponse) : BoundedString :=
  literal "HTTP/1.1 " ++ response.status ++
    addHeader (literal "Content-Length") (outputAsDecimal response.body.length) ++
    addHeader (literal "Content-Type") response.contentType ++
    response.headers.flatMap (fun header => addHeader header.field header.value) ++
    crlf ++ crlf ++ response.body

/-- `HttpErrorResponse` -/
def error (status body : BoundedString) : HttpResponse :=
  { status := status, contentType := literal "application/json", headers := [], body := body }

def badRequest : HttpResponse := error (literal "400 Bad request") (literal "\x7b\x7d")

def notFound : HttpResponse := error (literal "404 Not Found") (literal "\x7b\x7d")

def outOfMemory : HttpResponse :=
  error (literal "500 Internal Server Error") (literal "\x7b \"error\": \"Out of memory\" \x7d")

/-- What goes in front of the response to a request that expects it. -/
def continue100 : BoundedString :=
  literal "HTTP/1.1 100 Continue" ++ addHeader (literal "Content-Length") (literal "0") ++
    addHeader (literal "Content-Type") (literal "application/json") ++
    addHeader (literal "Strict-Transport-Security") (literal "max-age=31536000") ++ crlf ++ crlf

end HttpResponse

/-! ## The observer -/

/-- What ends the program: `SendResponse` uses a stream that is not there, or a stream asserts that what
is written fits. -/
inductive Halt
  | noStream
  | noRoom
  deriving DecidableEq, Repr

/-- A response that has been written to the send stream. -/
structure SentResponse where
  send100Response : Bool
  response : HttpResponse
  deriving DecidableEq, Repr

structure HttpServerConnectionObserver where
  /-- `ServesRequest` of the pages, which is given the path. -/
  pages : List (BoundedString → Bool)
  maxSize : Nat
  buffer : BoundedString
  streamWriter : Bool
  send100Response : Bool
  closeWhenIdle : Bool
  idle : Bool
  requestInProgress : Bool
  /-- The timer is running. -/
  initialIdle : Bool
  -- The connection: what has not been acknowledged, and the send stream that has been asked for.
  received : BoundedString
  maxSendStreamSize : Nat
  streamRequested : Bool
  closed : Bool
  halted : Option Halt
  -- The record: the requests that have come in, the part of the next one, and what has become of them.
  arrived : List BoundedString
  arriving : BoundedString
  calls : List HttpRequestParser
  inService : Option BoundedString
  responses : List SentResponse

namespace HttpServerConnectionObserver

/-- `Close`. The connection calls `ClosingConnection`. -/
def close (s : HttpServerConnectionObserver) : HttpServerConnectionObserver :=
  { s with closed := true, streamWriter := false }

def requestSendStream (s : HttpServerConnectionObserver) : HttpServerConnectionObserver :=
  { s with streamWriter := false, streamRequested := true }

/-- The observer after the constructor and `Connected`. The buffer is used by one connection after the
other. -/
def connected (pages : List (BoundedString → Bool)) (maxSize maxSendStreamSize : Nat) (buffer : BoundedString) :
    HttpServerConnectionObserver :=
  { pages := pages, maxSize := maxSize, buffer := buffer, streamWriter := false, send100Response := false
    closeWhenIdle := false, idle := false, requestInProgress := false, initialIdle := true
    received := [], maxSendStreamSize := maxSendStreamSize, streamRequested := true, closed := false, halted := none
    arrived := [], arriving := [], calls := [], inService := none, responses := [] }

def prepareForNextRequest (s : HttpServerConnectionObserver) : HttpServerConnectionObserver :=
  let s := { s.requestSendStream with idle := true, requestInProgress := false, send100Response := false, buffer := [] }
  if s.closeWhenIdle then s.close else s

/-- What is written to the send stream. -/
def streamed (s : HttpServerConnectionObserver) (response : HttpResponse) : BoundedString :=
  (if s.send100Response then HttpResponse.continue100 else []) ++ response.writeResponse

def sendResponse (response : HttpResponse) (s : HttpServerConnectionObserver) : HttpServerConnectionObserver :=
  if s.maxSize < response.writeResponse.length then { s with halted := some .noRoom }
  else if s.streamWriter = false then { s with halted := some .noStream }
  else if s.maxSendStreamSize < (s.streamed response).length then { s with halted := some .noRoom }
  else prepareForNextRequest { s with responses := s.responses ++ [⟨s.send100Response, response⟩] }

/-- `SendResponse` called by the page. -/
def respond (response : HttpResponse) (s : HttpServerConnectionObserver) : HttpServerConnectionObserver :=
  let s' := s.sendResponse response
  if s'.halted = none then { s' with inService := none } else s'

def expect100 (request : HttpRequestParser) : Bool := request.header (literal "Expect") == literal "100-continue"

def pageForRequest (s : HttpServerConnectionObserver) (request : HttpRequestParser) : Option (BoundedString → Bool) :=
  s.pages.find? (fun page => page request.path)

/-- `RespondToRequest` is called. -/
def called (request : HttpRequestParser) (s : HttpServerConnectionObserver) : HttpServerConnectionObserver :=
  { s with calls := s.calls ++ [request], inService := some s.buffer }

/-- `ServePage`. The page keeps the request, or answers it at once. -/
def servePage (request : HttpRequestParser) (answer : Option HttpResponse) (s : HttpServerConnectionObserver) :
    HttpServerConnectionObserver :=
  match s.pageForRequest request with
  | none => s.sendResponse HttpResponse.notFound
  | some _ =>
      match answer with
      | none => s.called request
      | some response => (s.called request).respond response

def requestIsNowInProgress (s : HttpServerConnectionObserver) : HttpServerConnectionObserver :=
  { s with idle := false, initialIdle := false, requestInProgress := true }

def handleRequest (request : HttpRequestParser) (answer : Option HttpResponse) (s : HttpServerConnectionObserver) :
    HttpServerConnectionObserver :=
  servePage request answer
    { s.requestIsNowInProgress with send100Response := s.send100Response || expect100 request }

def tryHandleRequest (request : HttpRequestParser) (answer : Option HttpResponse) (s : HttpServerConnectionObserver) :
    HttpServerConnectionObserver :=
  if request.valid = false then s.sendResponse HttpResponse.badRequest
  else if s.requestInProgress then s.close
  else s.handleRequest request answer

def receivedRequest (answer : Option HttpResponse) (s : HttpServerConnectionObserver) : HttpServerConnectionObserver :=
  let s := { s with buffer := s.buffer ++ s.received, received := [] }
  let parser := HttpRequestParser.parse s.buffer
  if parser.complete then s.tryHandleRequest parser answer else s

def receivedTooMuchData (s : HttpServerConnectionObserver) : HttpServerConnectionObserver :=
  sendResponse HttpResponse.outOfMemory { s with received := [] }

def dataReceived (answer : Option HttpResponse) (s : HttpServerConnectionObserver) : HttpServerConnectionObserver :=
  if s.streamWriter = false then s
  else if s.maxSize - s.buffer.length < s.received.length then s.receivedTooMuchData
  else if s.received = [] then s
  else s.receivedRequest answer

def sendStreamAvailable (answer : Option HttpResponse) (s : HttpServerConnectionObserver) :
    HttpServerConnectionObserver :=
  dataReceived answer { s with streamWriter := true, streamRequested := false }

/-- The timer after the constructor. -/
def initialIdleExpired (s : HttpServerConnectionObserver) : HttpServerConnectionObserver :=
  let s := { s with idle := true, initialIdle := false }
  if s.closeWhenIdle then s.close else s

/-- `CloseWhenIdle` -/
def closeOnceIdle (s : HttpServerConnectionObserver) : HttpServerConnectionObserver :=
  let s := { s with closeWhenIdle := true }
  if s.idle then s.close else s

/-! ## Runs -/

/-- A part of a request, the last one or not. -/
structure Part where
  bytes : BoundedString
  last : Bool
  deriving DecidableEq, Repr

/-- The bytes of a chunk. -/
def chunk (parts : List Part) : BoundedString := parts.flatMap Part.bytes

/-- What happens to the observer. A chunk has parts of any number of requests. A page that is called
answers at once with the response that is given, or later. -/
inductive Event
  | data (parts : List Part) (answer : Option HttpResponse)
  | sendStreamAvailable (answer : Option HttpResponse)
  | respond (response : HttpResponse)
  | initialIdleExpired
  | closeWhenIdle
  | closingConnection

/-- The record of what has come in. -/
def arrive (s : HttpServerConnectionObserver) (part : Part) : HttpServerConnectionObserver :=
  if part.last then { s with arrived := s.arrived ++ [s.arriving ++ part.bytes], arriving := [] }
  else { s with arriving := s.arriving ++ part.bytes }

/-- A chunk comes in. -/
def receive (parts : List Part) (s : HttpServerConnectionObserver) : HttpServerConnectionObserver :=
  let s := parts.foldl arrive s
  { s with received := s.received ++ chunk parts }

/-- The program runs and the connection is there. -/
def Live (s : HttpServerConnectionObserver) : Prop := s.halted = none ∧ s.closed = false

instance (s : HttpServerConnectionObserver) : Decidable s.Live :=
  inferInstanceAs (Decidable (s.halted = none ∧ s.closed = false))

/-- What can happen: a stream is available once it has been asked for, and a page answers the request that it
has, also when the connection is gone. -/
def Possible (s : HttpServerConnectionObserver) : Event → Prop
  | .data _ _ => s.Live
  | .sendStreamAvailable _ => s.Live ∧ s.streamRequested = true
  | .respond _ => s.halted = none ∧ s.inService.isSome
  | .initialIdleExpired => s.Live ∧ s.initialIdle = true
  | .closeWhenIdle => s.Live
  | .closingConnection => s.Live

instance (s : HttpServerConnectionObserver) : DecidablePred s.Possible
  | .data _ _ => inferInstanceAs (Decidable s.Live)
  | .sendStreamAvailable _ => inferInstanceAs (Decidable (s.Live ∧ s.streamRequested = true))
  | .respond _ => inferInstanceAs (Decidable (s.halted = none ∧ s.inService.isSome))
  | .initialIdleExpired => inferInstanceAs (Decidable (s.Live ∧ s.initialIdle = true))
  | .closeWhenIdle => inferInstanceAs (Decidable s.Live)
  | .closingConnection => inferInstanceAs (Decidable s.Live)

def after (s : HttpServerConnectionObserver) : Event → HttpServerConnectionObserver
  | .data parts answer => (s.receive parts).dataReceived answer
  | .sendStreamAvailable answer => s.sendStreamAvailable answer
  | .respond response => s.respond response
  | .initialIdleExpired => s.initialIdleExpired
  | .closeWhenIdle => s.closeOnceIdle
  | .closingConnection => s.close

def step (s : HttpServerConnectionObserver) (e : Event) : Option HttpServerConnectionObserver :=
  if s.Possible e then some (s.after e) else none

end HttpServerConnectionObserver

end EmbeddedInfra.Http
