import EmbeddedInfra.Services.Network.HttpRequestParser

set_option autoImplicit false

/-! # The HTTP client reads a response

`services::HttpClientImpl` parses a response as it comes in: each `DataReceived` event goes through what
the connection has received, and acknowledges what has been extracted. The head is read line by line into
the header buffer; the body goes to the observer, which reads in each `BodyAvailable` what there is and
lets go of the reader.
-/

namespace EmbeddedInfra.Http

/-! ## Status codes -/

inductive HttpStatusCode
  | continue
  | switchingProtocols
  | ok
  | created
  | accepted
  | nonAuthorativeInformation
  | noContent
  | resetContent
  | partialContent
  | multipleChoices
  | movedPermanently
  | found
  | seeOther
  | notModified
  | useProxy
  | temporaryRedirect
  | badRequest
  | unauthorized
  | paymentRequired
  | forbidden
  | notFound
  | methodNotAllowed
  | notAcceptable
  | proxyAuthenticationRequired
  | requestTimeOut
  | conflict
  | gone
  | lengthRequired
  | preconditionFailed
  | requestEntityTooLarge
  | requestUriTooLarge
  | unsupportedMediaType
  | requestRangeNotSatisfiable
  | expectationFailed
  | internalServerError
  | notImplemented
  | badGateway
  | serviceUnavailable
  | gatewayTimeOut
  | httpVersionNotSupported
  deriving DecidableEq, Repr

def HttpStatusCode.toNat : HttpStatusCode → Nat
  | .continue => 100
  | .switchingProtocols => 101
  | .ok => 200
  | .created => 201
  | .accepted => 202
  | .nonAuthorativeInformation => 203
  | .noContent => 204
  | .resetContent => 205
  | .partialContent => 206
  | .multipleChoices => 300
  | .movedPermanently => 301
  | .found => 302
  | .seeOther => 303
  | .notModified => 304
  | .useProxy => 305
  | .temporaryRedirect => 307
  | .badRequest => 400
  | .unauthorized => 401
  | .paymentRequired => 402
  | .forbidden => 403
  | .notFound => 404
  | .methodNotAllowed => 405
  | .notAcceptable => 406
  | .proxyAuthenticationRequired => 407
  | .requestTimeOut => 408
  | .conflict => 409
  | .gone => 410
  | .lengthRequired => 411
  | .preconditionFailed => 412
  | .requestEntityTooLarge => 413
  | .requestUriTooLarge => 414
  | .unsupportedMediaType => 415
  | .requestRangeNotSatisfiable => 416
  | .expectationFailed => 417
  | .internalServerError => 500
  | .notImplemented => 501
  | .badGateway => 502
  | .serviceUnavailable => 503
  | .gatewayTimeOut => 504
  | .httpVersionNotSupported => 505

/-- The number that the characters stand for, in an `uint16_t`. -/
def statusValue (statusCode : BoundedString) : UInt16 :=
  statusCode.foldl (fun value c => value * 10 + c.toUInt16 - 48) 0

def httpStatusCodeFromString (statusCode : BoundedString) : Option HttpStatusCode :=
  match (statusValue statusCode).toNat with
  | 100 => some .continue
  | 101 => some .switchingProtocols
  | 200 => some .ok
  | 201 => some .created
  | 202 => some .accepted
  | 203 => some .nonAuthorativeInformation
  | 204 => some .noContent
  | 205 => some .resetContent
  | 206 => some .partialContent
  | 300 => some .multipleChoices
  | 301 => some .movedPermanently
  | 302 => some .found
  | 303 => some .seeOther
  | 304 => some .notModified
  | 305 => some .useProxy
  | 307 => some .temporaryRedirect
  | 400 => some .badRequest
  | 401 => some .unauthorized
  | 402 => some .paymentRequired
  | 403 => some .forbidden
  | 404 => some .notFound
  | 405 => some .methodNotAllowed
  | 406 => some .notAcceptable
  | 407 => some .proxyAuthenticationRequired
  | 408 => some .requestTimeOut
  | 409 => some .conflict
  | 410 => some .gone
  | 411 => some .lengthRequired
  | 412 => some .preconditionFailed
  | 413 => some .requestEntityTooLarge
  | 414 => some .requestUriTooLarge
  | 415 => some .unsupportedMediaType
  | 416 => some .requestRangeNotSatisfiable
  | 417 => some .expectationFailed
  | 500 => some .internalServerError
  | 501 => some .notImplemented
  | 502 => some .badGateway
  | 503 => some .serviceUnavailable
  | 504 => some .gatewayTimeOut
  | 505 => some .httpVersionNotSupported
  | _ => none

/-- The three digits of a status code. -/
def HttpStatusCode.digits (code : HttpStatusCode) : BoundedString :=
  [code.toNat / 100, code.toNat / 10 % 10, code.toNat % 10].map fun d => UInt8.ofNat (0x30 + d)

theorem httpStatusCodeFromString_digits (code : HttpStatusCode) :
    httpStatusCodeFromString code.digits = some code := by
  cases code <;> decide

theorem space_notMem_digits (code : HttpStatusCode) : char ' ' ∉ code.digits := by
  cases code <;> decide

/-! ## The parser of responses -/

/-- What the observer of the client is told. The bytes are those that it reads. -/
inductive ObserverCall
  | statusAvailable (code : HttpStatusCode)
  | headerAvailable (header : HttpHeader)
  | bodyAvailable (bytes : BoundedString)
  | bodyComplete
  deriving DecidableEq, Repr

structure HttpResponseParser where
  done : Bool := false
  error : Bool := false
  statusParsed : Bool := false
  contentLength : Option UInt32 := none
  deriving DecidableEq, Repr

/-- The parser after some data, what the observer has been told meanwhile, and the data that has not been
extracted. -/
structure Parsed where
  parser : HttpResponseParser
  calls : List ObserverCall
  rest : BoundedString
  deriving DecidableEq, Repr

/-- Calls have been made before. -/
def Parsed.after (calls : List ObserverCall) (parsed : Parsed) : Parsed :=
  { parsed with calls := calls ++ parsed.calls }

namespace HttpResponseParser

def setError (p : HttpResponseParser) : HttpResponseParser := { p with done := true, error := true }

def httpVersionValid (httpVersion : BoundedString) : Bool :=
  httpVersion = literal "HTTP/1.0" || httpVersion = literal "HTTP/1.1"

/-- `find_first_of(crlf)` -/
def crlfPos (headerBuffer : BoundedString) : Option Nat :=
  headerBuffer.findIdx? fun c => c = cr || c = lf

/-- The status that a status line has. -/
def statusOf (statusLine : BoundedString) : Option HttpStatusCode :=
  if httpVersionValid (Tokenizer.token (char ' ') 0 statusLine) then
    httpStatusCodeFromString (Tokenizer.token (char ' ') 1 statusLine)
  else none

/-- The parser has read a status line. -/
def statusRead (p : HttpResponseParser) (statusLine rest : BoundedString) : Parsed :=
  match statusOf statusLine with
  | some code => { parser := { p with statusParsed := true }, calls := [.statusAvailable code], rest := rest }
  | none => { parser := { p.setError with statusParsed := true }, calls := [], rest := rest }

/-- `ParseStatusLine`. The reader is put behind the line and two more characters; it has no position past
the end of the data. -/
def parseStatusLine (maxSize : Nat) (p : HttpResponseParser) (data : BoundedString) : Option Parsed :=
  match crlfPos (data.take maxSize) with
  | none => some { parser := p, calls := [], rest := data.drop maxSize }
  | some n => if n + 2 ≤ data.length then some (statusRead p (data.take n) (data.drop (n + 2))) else none

def headerFromString (header : BoundedString) : HttpHeader :=
  { field := Tokenizer.token (char ':') 0 header
    value := trimLeft (Tokenizer.tokenAndRest (char ':') 1 header) }

/-- `operator>>` for an `uint32_t`, which aborts when there is no digit. -/
def readContentLength (value : BoundedString) : Option UInt32 :=
  if (trimLeft value).head?.any isDigit then some (readAsDecimal value) else none

/-- The parser after a header line. -/
def headerRead (p : HttpResponseParser) (header : HttpHeader) : Option (HttpResponseParser × List ObserverCall) :=
  if header.field = literal "Content-Length" then
    (readContentLength header.value).map fun length => ({ p with contentLength := some length }, [])
  else some (p, [.headerAvailable header])

/-- The loop of `ParseHeaders`. A line break that is not in the buffer is an error when the buffer is full;
else all of the data has been extracted. -/
def parseHeaders (maxSize : Nat) (p : HttpResponseParser) (data : BoundedString) : Option Parsed :=
  if p.done ∨ data = [] then some { parser := p, calls := [], rest := data }
  else
    match crlfPos (data.take maxSize) with
    | none =>
        if (data.take maxSize).length = maxSize then
          some { parser := p.setError, calls := [], rest := data.drop maxSize }
        else some { parser := p, calls := [], rest := data.drop maxSize }
    | some n =>
        if n + 2 ≤ data.length then
          if n = 0 then
            some { parser := { p with error := p.contentLength.isNone, done := true }, calls := [], rest := data.drop 2 }
          else
            match headerRead p (headerFromString (data.take n)) with
            | none => none
            | some (p, calls) => (parseHeaders maxSize p (data.drop (n + 2))).map (Parsed.after calls)
        else none
termination_by data.length

def dataReceived (maxSize : Nat) (p : HttpResponseParser) (data : BoundedString) : Option Parsed :=
  (if p.statusParsed then some { parser := p, calls := [], rest := data }
    else parseStatusLine maxSize p data).bind fun status =>
      if status.parser.error then some status
      else (parseHeaders maxSize status.parser status.rest).map (Parsed.after status.calls)

end HttpResponseParser

/-! ## The client -/

/-- The client from the moment on at which its request has been written. `received` is what the
connection has received and what has not been acknowledged. -/
structure HttpClientImpl where
  maxSize : Nat
  received : BoundedString
  response : Option HttpResponseParser
  contentLength : Option UInt32
  calls : List ObserverCall
  aborted : Bool
  deriving DecidableEq, Repr

namespace HttpClientImpl

/-- `response.Emplace(*this, headerBuffer)` -/
def expectResponse (maxSize : Nat) : HttpClientImpl :=
  { maxSize := maxSize, received := [], response := some {}, contentLength := none, calls := [], aborted := false }

def abortAndDestroy (c : HttpClientImpl) : HttpClientImpl := { c with aborted := true }

def bodyComplete (c : HttpClientImpl) : HttpClientImpl :=
  { c with contentLength := none, response := none, calls := c.calls ++ [.bodyComplete] }

/-- `BodyReaderDestroyed`, when so many bytes of the body have been read. -/
def bodyReaderDestroyed (c : HttpClientImpl) (length totalRead : UInt32) : HttpClientImpl :=
  if length - totalRead = 0 then { c with contentLength := some (length - totalRead) }.bodyComplete
  else { c with contentLength := some (length - totalRead) }

/-- `BodyAvailable`: the observer reads what is there, up to the length, and lets go of the reader, with
which it is acknowledged. -/
def bodyAvailable (c : HttpClientImpl) (length : UInt32) : HttpClientImpl :=
  { c with
    received := c.received.drop length.toNat
    calls := c.calls ++ [ObserverCall.bodyAvailable (c.received.take length.toNat)] }.bodyReaderDestroyed
      length (c.received.take length.toNat).length.toUInt32

def bodyReceived (c : HttpClientImpl) (p : HttpResponseParser) : Option HttpClientImpl :=
  (c.contentLength.or p.contentLength).map fun length =>
    if length = 0 then { c with contentLength := some length }.bodyComplete
    else { c with contentLength := some length }.bodyAvailable length

/-- The parser has gone through what has been received. -/
def responseParsed (c : HttpClientImpl) (p : HttpResponseParser) : Option HttpClientImpl :=
  if p.done then
    if p.error then some c.abortAndDestroy else c.bodyReceived p
  else some c

def handleData (c : HttpClientImpl) (p : HttpResponseParser) : Option HttpClientImpl :=
  if p.done then c.responseParsed p
  else
    (p.dataReceived c.maxSize c.received).bind fun parsed =>
      { c with
        received := parsed.rest
        response := some parsed.parser
        calls := c.calls ++ parsed.calls }.responseParsed parsed.parser

/-- A `DataReceived` event after some bytes have come in. There are no events once the connection is
destroyed. -/
def dataReceived (c : HttpClientImpl) (data : BoundedString) : Option HttpClientImpl :=
  if c.aborted then some c
  else
    match c.response with
    | some p => { c with received := c.received ++ data }.handleData p
    | none => some { c with received := c.received ++ data }.abortAndDestroy

/-- The bytes come in over some events. -/
def receive (c : HttpClientImpl) (chunks : List BoundedString) : Option HttpClientImpl :=
  chunks.foldlM dataReceived c

end HttpClientImpl

end EmbeddedInfra.Http
