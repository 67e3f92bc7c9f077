import EmbeddedInfra.Infra.Stream.SavedMarkerStream
import EmbeddedInfra.Services.Network.HttpClientFragmentation
import EmbeddedInfra.Services.Network.HttpServer

set_option autoImplicit false

/-! # Responses between server and client

`HttpResponse::WriteResponse` writes the head and the body of a response to a string, and puts the size of the
body and the status in at markers afterwards. What comes out is the response (`writeResponse_spec`), and the
client reports its status, its headers and its body (`reported_writeResponse`), unless a header or the status does not
come apart where it was put together (`misread`).
-/

namespace EmbeddedInfra.Http

open Decimal HttpResponseParser HttpHeader
open Streams (Actions StringOutputStreamWriter)

/-! ## Writing -/

/-- What the functions of a response do: the body is written in parts. A `std::size_t` has 32 bits. -/
structure HttpResponseFunctions where
  maxBodySize : UInt32
  status : BoundedString
  contentType : BoundedString
  headers : List HttpHeader
  bodyParts : List BoundedString

namespace HttpResponseFunctions

/-- Parts that are written one after the other. -/
def writes (parts : List BoundedString) : Actions := parts.foldr Actions.write Actions.done

/-- `AddHeader` -/
def headerParts (header : HttpHeader) : List BoundedString := [crlf, header.field, literal ": ", header.value]

/-- What a `LimitedStreamWriter` lets through. -/
def limited : Nat → List BoundedString → List BoundedString
  | _, [] => []
  | length, part :: parts => part.take length :: limited (length - (part.take length).length) parts

/-- `WriteResponse` to a string. -/
def writeResponse (r : HttpResponseFunctions) (stream : StringOutputStreamWriter) : Option StringOutputStreamWriter :=
  (stream.perform (writes [literal "HTTP/1.1 "])).bind fun version =>
    let resultMarker := version.constructSaveMarker
    (version.perform (writes [crlf, literal "Content-Length", literal ": "])).bind fun contentLength =>
      let sizeMarker := contentLength.constructSaveMarker
      (contentLength.perform (writes (headerParts { field := literal "Content-Type", value := r.contentType } ++
          r.headers.flatMap headerParts ++ [crlf ++ crlf]))).bind fun head =>
        let sizeBeforeGetResponse := head.getProcessedBytesSince sizeMarker
        (head.perform (writes (limited r.maxBodySize.toNat r.bodyParts))).bind fun body =>
          let size := (body.getProcessedBytesSince sizeMarker - sizeBeforeGetResponse) % 2 ^ 32
          (body.perform (.insertAt sizeMarker (writes ((outputAsDecimal size).map fun digit => [digit])) .done)).bind
            fun sized => sized.perform (.insertAt resultMarker (writes [r.status]) .done)

/-- The response of these functions. -/
def response (r : HttpResponseFunctions) : HttpResponse :=
  { status := r.status, contentType := r.contentType, headers := r.headers, body := r.bodyParts.flatten }

end HttpResponseFunctions

/-! ## The string -/

/-- A string of this size holds a text, and nothing has failed. -/
structure HoldsText (w : StringOutputStreamWriter) (maxSize : Nat) (text : BoundedString) : Prop where
  content_eq : w.string.content = text
  length_eq : w.string.length = text.length
  maxSize_eq : w.string.maxSize = maxSize
  length_le : text.length ≤ maxSize
  failed_eq : w.failed = false

namespace HoldsText

open HttpResponseFunctions

variable {w : StringOutputStreamWriter} {maxSize : Nat} {text : BoundedString}

theorem perform {actions : Actions} (h : HoldsText w maxSize text) (hvalid : actions.Valid text.length)
    (hroom : text.length + actions.written ≤ maxSize) :
    ∃ w', w.perform actions = some w' ∧ HoldsText w' maxSize (actions.text text) := by
  have havailable : actions.written ≤ w.available := by
    rw [StringOutputStreamWriter.available, h.maxSize_eq, h.length_eq]
    omega
  obtain ⟨w', hperform, hw'⟩ := StringOutputStreamWriter.performed
    (by rw [h.length_eq, h.maxSize_eq]; exact h.length_le) (by rw [h.length_eq]; exact hvalid) havailable
  have htext := Actions.text_length hvalid
  have hlength := hw'.length
  refine ⟨w', hperform, ?_, ?_, hw'.maxSize.trans h.maxSize_eq, ?_, hw'.failed.trans h.failed_eq⟩
  · rw [hw'.content, h.content_eq]
  · rw [htext, ← h.length_eq]
    exact hlength
  · rw [htext]
    exact hroom

theorem valid_writes (parts : List BoundedString) (n : Nat) : (writes parts).Valid n := by
  induction parts generalizing n with
  | nil => trivial
  | cons part parts ih => exact ih _

theorem written_writes (parts : List BoundedString) : (writes parts).written = parts.flatten.length := by
  induction parts with
  | nil => rfl
  | cons part parts ih =>
      rw [List.flatten_cons, List.length_append, ← ih]
      rfl

theorem text_writes (parts : List BoundedString) (text : BoundedString) :
    (writes parts).text text = text ++ parts.flatten := by
  induction parts generalizing text with
  | nil => rw [List.flatten_nil, List.append_nil]; rfl
  | cons part parts ih =>
      rw [List.flatten_cons, ← List.append_assoc, ← ih]
      rfl

/-- Parts are written behind the text. -/
theorem write {parts : List BoundedString} (h : HoldsText w maxSize text)
    (hroom : (text ++ parts.flatten).length ≤ maxSize) :
    ∃ w', w.perform (writes parts) = some w' ∧ HoldsText w' maxSize (text ++ parts.flatten) := by
  rw [List.length_append] at hroom
  have hperform := h.perform (valid_writes parts _) (by rw [written_writes]; exact hroom)
  rwa [text_writes] at hperform

/-- Parts are put in between. -/
theorem insert {parts : List BoundedString} {front behind : BoundedString} (h : HoldsText w maxSize (front ++ behind))
    (hroom : (front ++ parts.flatten ++ behind).length ≤ maxSize) :
    ∃ w', w.perform (.insertAt front.length (writes parts) .done) = some w' ∧
      HoldsText w' maxSize (front ++ parts.flatten ++ behind) := by
  have hvalid : (Actions.insertAt front.length (writes parts) .done).Valid (front ++ behind).length :=
    ⟨by rw [List.length_append]; omega, valid_writes parts 0, trivial⟩
  have hwritten : (Actions.insertAt front.length (writes parts) .done).written = parts.flatten.length :=
    written_writes parts
  simp only [List.length_append] at hroom
  have hperform := h.perform hvalid (by rw [hwritten, List.length_append]; omega)
  have htext : (Actions.insertAt front.length (writes parts) .done).text (front ++ behind) =
      front ++ parts.flatten ++ behind := by
    show (front ++ behind).take front.length ++ (writes parts).text [] ++ (front ++ behind).drop front.length = _
    rw [text_writes, List.nil_append, List.take_left, List.drop_left]
  rwa [htext] at hperform

end HoldsText

namespace HttpResponseFunctions

variable {r : HttpResponseFunctions} {stream : StringOutputStreamWriter} {maxSize : Nat}

theorem limited_of_le {length : Nat} {parts : List BoundedString} (h : parts.flatten.length ≤ length) :
    limited length parts = parts := by
  induction parts generalizing length with
  | nil => rfl
  | cons part parts ih =>
      rw [List.flatten_cons, List.length_append] at h
      have hpart : part.take length = part := List.take_of_length_le (by omega)
      rw [limited, hpart, ih (by omega)]

theorem flatten_headerParts (header : HttpHeader) :
    (headerParts header).flatten = HttpResponse.addHeader header.field header.value := by
  simp [headerParts, HttpResponse.addHeader]

theorem flatten_flatMap_headerParts (headers : List HttpHeader) :
    (headers.flatMap headerParts).flatten =
      headers.flatMap fun header => HttpResponse.addHeader header.field header.value := by
  induction headers with
  | nil => rfl
  | cons header headers ih =>
      rw [List.flatMap_cons, List.flatMap_cons, List.flatten_append, ih, flatten_headerParts]

/-- **The response is in the string**, with the size of its body. -/
theorem writeResponse_spec (hstream : HoldsText stream maxSize [])
    (hbody : r.response.body.length ≤ r.maxBodySize.toNat) (hroom : r.response.writeResponse.length ≤ maxSize) :
    ∃ w, r.writeResponse stream = some w ∧ HoldsText w maxSize r.response.writeResponse := by
  -- what is in front of the markers, between them and behind them
  obtain ⟨version, hversion⟩ : ∃ version, version = literal "HTTP/1.1 " := ⟨_, rfl⟩
  obtain ⟨name, hname⟩ : ∃ name, name = crlf ++ (literal "Content-Length" ++ literal ": ") := ⟨_, rfl⟩
  obtain ⟨head, hhead⟩ : ∃ head, head =
      HttpResponse.addHeader (literal "Content-Type") r.contentType ++
        r.headers.flatMap (fun header => HttpResponse.addHeader header.field header.value) ++ (crlf ++ crlf) := ⟨_, rfl⟩
  obtain ⟨size, hsize⟩ : ∃ size, size = outputAsDecimal r.bodyParts.flatten.length := ⟨_, rfl⟩
  have htext : r.response.writeResponse = version ++ r.status ++ (name ++ size ++ (head ++ r.bodyParts.flatten)) := by
    simp only [HttpResponse.writeResponse, response, hversion, hname, hhead, hsize, HttpResponse.addHeader,
      List.append_assoc]
  have hlength := hroom
  rw [htext] at hlength
  simp only [List.length_append] at hlength
  obtain ⟨first, hfirst, hfirstText⟩ := @HoldsText.write _ _ _ [literal "HTTP/1.1 "] hstream
    (by rw [List.nil_append, List.flatten_singleton, ← hversion]; omega)
  rw [List.nil_append, List.flatten_singleton, ← hversion] at hfirstText
  obtain ⟨second, hsecond, hsecondText⟩ :=
    @HoldsText.write _ _ _ [crlf, literal "Content-Length", literal ": "] hfirstText
    (by simp only [List.flatten_cons, List.flatten_nil, List.append_nil, ← hname, List.length_append]; omega)
  have hnameParts : [crlf, literal "Content-Length", literal ": "].flatten = name := by
    simp only [List.flatten_cons, List.flatten_nil, List.append_nil, hname]
  rw [hnameParts] at hsecondText
  have hheadParts : (headerParts { field := literal "Content-Type", value := r.contentType } ++
      r.headers.flatMap headerParts ++ [crlf ++ crlf]).flatten = head := by
    rw [List.flatten_append, List.flatten_append, flatten_headerParts, flatten_flatMap_headerParts,
      List.flatten_singleton, hhead]
  obtain ⟨third, hthird, hthirdText⟩ := hsecondText.write (by rw [hheadParts]; simp only [List.length_append]; omega)
  rw [hheadParts] at hthirdText
  have hlimited : limited r.maxBodySize.toNat r.bodyParts = r.bodyParts := limited_of_le hbody
  obtain ⟨fourth, hfourth, hfourthText⟩ := @HoldsText.write _ _ _ r.bodyParts hthirdText
    (by simp only [List.length_append]; omega)
  -- the size is that of the body, since nothing has been put in yet
  have hmarker : second.constructSaveMarker = (version ++ name).length := hsecondText.length_eq
  have hprocessed : (fourth.getProcessedBytesSince second.constructSaveMarker -
      third.getProcessedBytesSince second.constructSaveMarker) % 2 ^ 32 = r.bodyParts.flatten.length := by
    have hbound := r.maxBodySize.toNat_lt
    have hsmall : r.bodyParts.flatten.length ≤ r.maxBodySize.toNat := hbody
    rw [StringOutputStreamWriter.getProcessedBytesSince, StringOutputStreamWriter.getProcessedBytesSince, hmarker,
      hfourthText.length_eq, hthirdText.length_eq]
    simp only [List.length_append]
    omega
  have hdigits : ((outputAsDecimal r.bodyParts.flatten.length).map fun digit => [digit]).flatten = size := by
    rw [hsize, ← List.flatMap_def, List.flatMap_singleton']
  rw [List.append_assoc (version ++ name)] at hfourthText
  obtain ⟨fifth, hfifth, hfifthText⟩ := hfourthText.insert
    (by rw [hdigits]; simp only [List.length_append]; omega)
  rw [hdigits, List.append_assoc, List.append_assoc] at hfifthText
  obtain ⟨sixth, hsixth, hsixthText⟩ := @HoldsText.insert _ _ [r.status] _ _ hfifthText
    (by rw [List.flatten_singleton]; simp only [List.length_append]; omega)
  refine ⟨sixth, ?_, ?_⟩
  · have hresult : first.constructSaveMarker = version.length := hfirstText.length_eq
    simp only [writeResponse, hfirst, hsecond, hthird, hlimited, hfourth, Option.bind_some, hprocessed]
    rw [hmarker, hfifth, Option.bind_some, hresult, hsixth]
  · rw [List.flatten_singleton, ← List.append_assoc name] at hsixthText
    rw [htext]
    exact hsixthText

end HttpResponseFunctions

/-! ## The size -/

section Size

/-- One digit behind a number. -/
theorem value_digit {v d : Nat} (hd : d < 10) :
    UInt32.ofNat v * 10 + (UInt8.ofNat (d + 0x30) - char '0').toUInt32 = UInt32.ofNat (10 * v + d) := by
  have hdigit : ∀ d < 10, (UInt8.ofNat (d + 0x30) - char '0').toUInt32 = UInt32.ofNat d := by decide
  rw [hdigit d hd, UInt32.ofNat_add, UInt32.ofNat_mul, UInt32.mul_comm]
  rfl

/-- A number is read back, in an `uint32_t`. -/
theorem readContentLength_outputAsDecimal {v : Nat} (hv : v < 2 ^ 32) :
    readContentLength (outputAsDecimal v) = some (UInt32.ofNat v) := by
  have hall := isDigit_outputDecimalDigits v 21 (raiseDecimalMask v 20 1)
  obtain ⟨hne, hvalue⟩ : outputAsDecimal v ≠ [] ∧ (outputAsDecimal v).foldl
      (fun v c => v * 10 + (c - char '0').toUInt32) (UInt32.ofNat 0) = UInt32.ofNat v := by
    refine digits_induction (v := v) (motive := fun q digits => digits ≠ [] ∧ digits.foldl
      (fun v c => v * 10 + (c - char '0').toUInt32) (UInt32.ofNat q) = UInt32.ofNat v) ?last ?cons (by omega)
    case last =>
      intro q d hd hlast
      exact ⟨List.cons_ne_nil _ _, by rw [List.foldl_cons, value_digit hd, hlast, List.foldl_nil]⟩
    case cons =>
      intro q d digits hd _ ih
      exact ⟨List.cons_ne_nil _ _, by rw [List.foldl_cons, value_digit hd, ih.2]⟩
  obtain ⟨c, digits, hcs⟩ := List.exists_cons_of_ne_nil hne
  rw [outputAsDecimal] at hcs hvalue
  rw [hcs] at hall hvalue
  rw [show UInt32.ofNat 0 = 0 from rfl] at hvalue
  have hfirst : isDigit c = true := hall c List.mem_cons_self
  have hspace : (c :: digits).head? ≠ some (char ' ') := by
    rintro hc
    rw [List.head?_cons, Option.some.injEq] at hc
    rw [hc] at hfirst
    exact absurd hfirst (by decide)
  rw [outputAsDecimal, hcs, readContentLength, readAsDecimal, trimLeft_of_head hspace,
    List.takeWhile_eq_self_iff.mpr hall, hvalue, List.head?_cons, Option.any_some, if_pos hfirst]

end Size

/-! ## Reading -/

/-- The header with the space that is written in front of its value. -/
def HttpHeader.sent (header : HttpHeader) : HttpHeader := { header with value := char ' ' :: header.value }

/-- The header without the spaces in front of its value. -/
def HttpHeader.trimmed (header : HttpHeader) : HttpHeader := { header with value := trimLeft header.value }

theorem HttpHeader.seen_sent (header : HttpHeader) : header.sent.seen = header.trimmed := by
  have hhead : header.sent.value.head? ≠ some (char ':') := by
    simp only [sent, List.head?_cons]
    decide
  rw [seen, Tokenizer.skipConsecutiveSeparators_of_head hhead]
  rfl

theorem HttpHeader.fits_sent {header : HttpHeader} {maxSize : Nat} (hne : header.field ≠ [])
    (hcolon : char ':' ∉ header.field) (hfield : Unbroken header.field) (hvalue : Unbroken header.value)
    (hsize : header.sent.size < maxSize) : header.sent.Fits maxSize :=
  ⟨hne, hcolon, hfield, Unbroken.cons (by decide) hvalue, hsize⟩

namespace HttpResponseFunctions

/-- The headers of the response that the observer is told about. -/
def reportedHeaders (r : HttpResponseFunctions) : List HttpHeader :=
  { field := literal "Content-Type", value := r.contentType } :: r.headers

def contentLengthHeader (r : HttpResponseFunctions) : HttpHeader :=
  { field := literal "Content-Length", value := outputAsDecimal r.response.body.length }

def statusLine (r : HttpResponseFunctions) : BoundedString := literal "HTTP/1.1 " ++ r.status

/-- The lines of the head. -/
def headLines (r : HttpResponseFunctions) : List BoundedString :=
  r.statusLine :: (r.contentLengthHeader :: r.reportedHeaders).map fun header => header.sent.text

/-- The lines of the head fit the header buffer of the client with the carriage return behind them. -/
def FitsClient (r : HttpResponseFunctions) (headerBufferSize : Nat) : Prop :=
  ∀ line ∈ r.headLines, line.length < headerBufferSize

/-- A client that gets the text at once reports the code, the headers and the body. -/
def Reported (headerBufferSize : Nat) (text : BoundedString) (code : HttpStatusCode) (headers : List HttpHeader)
    (body : BoundedString) : Prop :=
  ∃ (c : HttpClientImpl) (parts : List BoundedString),
    (HttpClientImpl.expectResponse headerBufferSize).receive [text] = some c ∧
    c.calls = .statusAvailable code :: headers.map .headerAvailable ++ parts.map .bodyAvailable ++ [.bodyComplete] ∧
    parts.flatten = body ∧ c.aborted = false

end HttpResponseFunctions

/-- A header with a name that the client finds in front of the colon, other than the one for the length. -/
structure HttpHeader.Plain (header : HttpHeader) : Prop where
  field_ne_nil : header.field ≠ []
  colon_notMem : char ':' ∉ header.field
  field_unbroken : Unbroken header.field
  value_unbroken : Unbroken header.value
  field_ne : header.field ≠ literal "Content-Length"

/-- A status with three digits that are those of a code. The text is behind a space, if there is one. -/
structure IsStatus (status digits text : BoundedString) (code : HttpStatusCode) : Prop where
  status_eq : status = digits ++ text
  length_digits : digits.length = 3
  isDigit : ∀ c ∈ digits, isDigit c = true
  code_eq : httpStatusCodeFromString digits = some code
  text_head : text = [] ∨ text.head? = some (char ' ')
  text_unbroken : Unbroken text

section StatusLine

variable {status digits text data line : BoundedString} {code : HttpStatusCode} {headerBufferSize : Nat}

theorem unbroken_of_isDigit {s : BoundedString} (h : ∀ c ∈ s, isDigit c = true) : Unbroken s := by
  intro c hc
  have hdigit := h c hc
  constructor
  · rintro rfl
    exact absurd hdigit (by decide)
  · rintro rfl
    exact absurd hdigit (by decide)

/-- The code is the second token. -/
theorem IsStatus.statusOf_eq (h : IsStatus status digits text code) :
    statusOf (literal "HTTP/1.1 " ++ status) = some code := by
  have hspace : char ' ' ∉ digits := by
    intro hmem
    exact absurd (h.isDigit _ hmem) (by decide)
  have hne : digits ≠ [] := by
    rintro rfl
    exact absurd h.length_digits (by decide)
  have hline : literal "HTTP/1.1 " ++ status = literal "HTTP/1.1" ++ char ' ' :: (digits ++ text) := by
    rw [h.status_eq]
    rfl
  have htoken : Tokenizer.makeToken (char ' ') (digits ++ text) = digits := by
    rcases h.text_head with rfl | hhead
    · rw [List.append_nil, Tokenizer.makeToken, List.takeWhile_eq_self_iff]
      intro c hc
      simp only [bne_iff_ne, ne_eq]
      rintro rfl
      exact hspace hc
    · obtain ⟨c, rest, rfl⟩ := List.exists_cons_of_ne_nil (List.ne_nil_of_mem (List.mem_of_mem_head? hhead))
      rw [List.head?_cons, Option.some.injEq] at hhead
      rw [hhead]
      exact Tokenizer.makeToken_append hspace
  rw [statusOf, hline, Tokenizer.token_zero (by decide) (by decide), Tokenizer.token_one (by decide) (by decide),
    if_pos (by decide), Tokenizer.skipConsecutiveSeparators_of_head (Tokenizer.head?_append_of_ne_nil hne hspace),
    htoken, h.code_eq]

theorem IsStatus.line_unbroken (h : IsStatus status digits text code) : Unbroken (literal "HTTP/1.1 " ++ status) := by
  rw [h.status_eq]
  exact Unbroken.append (by decide) ((unbroken_of_isDigit h.isDigit).append h.text_unbroken)

/-- Only the code of a status line matters. -/
theorem dataReceived_statusLine (hline : Unbroken line) (hlt : line.length < headerBufferSize)
    (hcode : statusOf line = some code) :
    (HttpClientImpl.expectResponse headerBufferSize).dataReceived (line ++ (crlf ++ data)) =
      ((parseHeaders headerBufferSize { statusParsed := true } data).map (Parsed.after [.statusAvailable code])).bind
        (HttpClientImpl.expectResponse headerBufferSize).acknowledged := by
  show (HttpResponseParser.dataReceived headerBufferSize {} ([] ++ (line ++ (crlf ++ data)))).bind _ = _
  have hstatus : parseStatusLine headerBufferSize {} (line ++ (crlf ++ data)) =
      some { parser := { statusParsed := true }, calls := [.statusAvailable code], rest := data } := by
    rw [parseStatusLine_line hline hlt, statusRead, hcode]
  rw [List.nil_append, HttpResponseParser.dataReceived, if_neg (by decide), hstatus, Option.bind_some]
  rfl

end StatusLine

namespace HttpResponseFunctions

/-- The response that the client is given. -/
def clientResponse (r : HttpResponseFunctions) (code : HttpStatusCode) : Response :=
  { httpVersion := literal "HTTP/1.1", code := code, reason := []
    headers := (r.contentLengthHeader :: r.reportedHeaders).map sent, body := r.response.body }

variable {r : HttpResponseFunctions} {code : HttpStatusCode} {headerBufferSize : Nat}

theorem unlines_sent (headers : List HttpHeader) (rest : BoundedString) :
    unlines (headers.map fun header => header.sent.text) (crlf ++ rest) =
      (headers.flatMap fun header => header.sent.text ++ crlf) ++ (crlf ++ rest) := by
  induction headers with
  | nil => rfl
  | cons header headers ih =>
      rw [List.map_cons, unlines_cons, ih, List.flatMap_cons]
      simp only [List.append_assoc]

/-- The line break that is written in front of a header is the one behind the line before. -/
theorem crlf_flatMap_sent (headers : List HttpHeader) :
    crlf ++ headers.flatMap (fun header => header.sent.text ++ crlf) =
      headers.flatMap (fun header => HttpResponse.addHeader header.field header.value) ++ crlf := by
  induction headers with
  | nil => rfl
  | cons header headers ih =>
      have hcolon : literal ": " = [char ':', char ' '] := rfl
      rw [List.flatMap_cons, List.flatMap_cons, List.append_assoc (HttpResponse.addHeader _ _), ← ih]
      simp only [HttpResponse.addHeader, sent, text, hcolon, List.append_assoc, List.cons_append,
        List.nil_append]

/-- The text has the lines of the head, a blank line and the body. -/
theorem writeResponse_eq (r : HttpResponseFunctions) :
    r.response.writeResponse = unlines r.headLines (crlf ++ r.response.body) := by
  have hheaders := crlf_flatMap_sent (r.contentLengthHeader :: r.reportedHeaders)
  rw [headLines, unlines_cons, unlines_sent, ← List.append_assoc crlf, hheaders]
  simp only [HttpResponse.writeResponse, statusLine, contentLengthHeader, reportedHeaders, response, List.flatMap_cons,
    List.append_assoc]

theorem lengthName : literal "Content-Length" ≠ [] ∧ char ':' ∉ literal "Content-Length" ∧
    Unbroken (literal "Content-Length") := by
  decide

theorem typeName : literal "Content-Type" ≠ [] ∧ char ':' ∉ literal "Content-Type" ∧
    Unbroken (literal "Content-Type") ∧ literal "Content-Type" ≠ literal "Content-Length" := by
  decide

theorem clientResponse_wellFormed (hplain : ∀ header ∈ r.headers, header.Plain) (htype : Unbroken r.contentType)
    (hbody : r.response.body.length < 2 ^ 32) (hfits : r.FitsClient headerBufferSize) :
    (r.clientResponse code).WellFormed headerBufferSize := by
  have hfit : ∀ header ∈ r.contentLengthHeader :: r.reportedHeaders, header.sent.text.length < headerBufferSize :=
    fun header hmem => hfits _ (List.mem_cons_of_mem _ (List.mem_map.mpr ⟨header, hmem, rfl⟩))
  constructor
  · show httpVersionValid (literal "HTTP/1.1") = true
    decide
  · exact fun c hc => nomatch hc
  · -- the line for the content type is longer
    have htypeLine := hfit _ (List.mem_cons_of_mem _ List.mem_cons_self)
    have hlength : ({ field := literal "Content-Type", value := r.contentType : HttpHeader }).sent.text.length =
        14 + r.contentType.length := by
      simp only [sent, text, List.length_append, List.length_cons,
        show (literal "Content-Type").length = 12 from rfl]
      omega
    have hstatus : (r.clientResponse code).statusLine.length = 13 := rfl
    omega
  · intro header hheader
    obtain ⟨header, hmem, rfl⟩ := List.mem_map.mp hheader
    have hsize : header.sent.size < headerBufferSize := by
      rw [← length_text]
      exact hfit header hmem
    rcases List.mem_cons.mp hmem with rfl | hmem
    · have hvalue := unbroken_of_isDigit (isDigit_outputDecimalDigits r.response.body.length 21
        (raiseDecimalMask r.response.body.length 20 1))
      exact fits_sent lengthName.1 lengthName.2.1 lengthName.2.2 hvalue hsize
    · rcases List.mem_cons.mp hmem with rfl | hmem
      · exact fits_sent typeName.1 typeName.2.1 typeName.2.2.1 htype hsize
      · have h := hplain header hmem
        exact fits_sent h.field_ne_nil h.colon_notMem h.field_unbroken h.value_unbroken hsize
  · exact ⟨r.contentLengthHeader.sent, List.mem_map.mpr ⟨_, List.mem_cons_self, rfl⟩, rfl⟩
  · intro header hheader hname
    obtain ⟨header, hmem, rfl⟩ := List.mem_map.mp hheader
    rcases List.mem_cons.mp hmem with rfl | hmem
    · exact readContentLength_outputAsDecimal hbody
    · rcases List.mem_cons.mp hmem with rfl | hmem
      · exact absurd hname typeName.2.2.2
      · exact absurd hname (hplain header hmem).field_ne
  · exact hbody

theorem headerCalls_clientResponse (hplain : ∀ header ∈ r.headers, header.Plain) :
    headerCalls (r.clientResponse code).headers = (r.reportedHeaders.map trimmed).map .headerAvailable := by
  have hreported : ∀ header ∈ r.reportedHeaders, header.field ≠ literal "Content-Length" := by
    intro header hmem
    rcases List.mem_cons.mp hmem with rfl | hmem
    · exact typeName.2.2.2
    · exact (hplain header hmem).field_ne
  have hkept : (r.reportedHeaders.map sent).filter (·.field != literal "Content-Length") =
      r.reportedHeaders.map sent := by
    rw [List.filter_eq_self]
    intro header hheader
    obtain ⟨header, hmem, rfl⟩ := List.mem_map.mp hheader
    exact bne_iff_ne.mpr (hreported header hmem)
  have hlength : (r.contentLengthHeader.sent.field != literal "Content-Length") = false := bne_self_eq_false _
  rw [headerCalls, clientResponse, List.map_cons, List.filter_cons, hlength, if_neg (by decide), hkept, List.map_map,
    List.map_map]
  refine List.map_congr_left fun header _ => ?_
  rw [Function.comp_apply, Function.comp_apply, seen_sent]

/-- The client reports what it is given at once. -/
theorem reported_text {digits text : BoundedString} (hstatus : IsStatus r.status digits text code)
    (hplain : ∀ header ∈ r.headers, header.Plain) (htype : Unbroken r.contentType)
    (hbody : r.response.body.length < 2 ^ 32) (hfits : r.FitsClient headerBufferSize) :
    Reported headerBufferSize (unlines r.headLines (crlf ++ r.response.body)) code
      (r.reportedHeaders.map HttpHeader.trimmed) r.response.body := by
  have hr := @clientResponse_wellFormed r code _ hplain htype hbody hfits
  have hcode : statusOf (r.clientResponse code).statusLine = some code := statusOf_statusLine hr.version
  have hne : (r.clientResponse code).head ++ r.response.body ≠ [] := by
    simp [Response.head, crlf]
  obtain ⟨parts, hparts, -, hreceive⟩ := HttpClientImpl.receive_head hr
    (List.append_nil _) (by rw [List.getLast?_singleton]; simpa using hne)
  -- the text of the status does not matter to the client
  have hsame : (HttpClientImpl.expectResponse headerBufferSize).dataReceived
        (unlines r.headLines (crlf ++ r.response.body)) =
      (HttpClientImpl.expectResponse headerBufferSize).dataReceived
        ((r.clientResponse code).head ++ r.response.body) := by
    have hlines : (r.clientResponse code).headers.map HttpHeader.text =
        (r.contentLengthHeader :: r.reportedHeaders).map fun header => header.sent.text := List.map_map
    rw [Response.head, unlines_append, hlines, headLines, unlines_cons, unlines_cons, statusLine,
      dataReceived_statusLine hstatus.line_unbroken (hfits _ List.mem_cons_self) hstatus.statusOf_eq,
      dataReceived_statusLine (statusLine_unbroken hr) hr.statusLine_lt hcode]
  refine ⟨HttpClientImpl.completed headerBufferSize (.statusAvailable code ::
    headerCalls (r.clientResponse code).headers ++ parts.map .bodyAvailable), parts, ?_, ?_, hparts, rfl⟩
  · rw [HttpClientImpl.receive, List.foldlM_cons, hsame, ← List.foldlM_cons]
    exact hreceive
  · rw [headerCalls_clientResponse hplain]
    rfl

/-- **Responses are understood by the client**: the text that is written to a string has the size of the body in its
head, and a client that gets the text at once reports the code, the headers and the body. It reports the values of the
headers without the spaces in front. -/
theorem reported_writeResponse {stream : StringOutputStreamWriter} {maxSize : Nat} {digits text : BoundedString}
    (hstatus : IsStatus r.status digits text code) (htype : Unbroken r.contentType)
    (hplain : ∀ header ∈ r.headers, header.Plain) (hbody : r.response.body.length ≤ r.maxBodySize.toNat)
    (hstream : HoldsText stream maxSize []) (hroom : r.response.writeResponse.length ≤ maxSize)
    (hfits : r.FitsClient headerBufferSize) :
    ∃ w, r.writeResponse stream = some w ∧ w.failed = false ∧
      w.string.content = unlines r.headLines (crlf ++ r.response.body) ∧
      (readContentLength r.contentLengthHeader.value).map UInt32.toNat = some r.response.body.length ∧
      Reported headerBufferSize w.string.content code (r.reportedHeaders.map trimmed) r.response.body := by
  have hlt : r.response.body.length < 2 ^ 32 := lt_of_le_of_lt hbody r.maxBodySize.toNat_lt
  obtain ⟨w, hw, htext⟩ := writeResponse_spec hstream hbody hroom
  have hcontent : w.string.content = unlines r.headLines (crlf ++ r.response.body) := by
    rw [htext.content_eq, writeResponse_eq]
  refine ⟨w, hw, htext.failed_eq, hcontent, ?_, ?_⟩
  · rw [contentLengthHeader, readContentLength_outputAsDecimal hlt, Option.map_some, UInt32.toNat_ofNat',
      Nat.mod_eq_of_lt hlt]
  · rw [hcontent]
    exact reported_text hstatus hplain htype hlt hfits

/-- A response with two characters, which are written one by one. -/
def plainText : HttpResponseFunctions :=
  { maxBodySize := 16, status := literal "200 OK", contentType := literal "text/plain"
    headers := [{ field := literal "Server", value := literal "x" }], bodyParts := [literal "a", literal "b"] }

/-- The writer of an empty string. -/
def emptyString (maxSize : Nat) : StringOutputStreamWriter :=
  { string := { range := List.replicate maxSize 0, length := 0 } }

theorem reported_writeResponse_plainText :
    ∃ w, plainText.writeResponse (emptyString 128) = some w ∧ w.failed = false ∧
      w.string.content = unlines plainText.headLines (crlf ++ plainText.response.body) ∧
      (readContentLength plainText.contentLengthHeader.value).map UInt32.toNat =
        some plainText.response.body.length ∧
      Reported 64 w.string.content .ok (plainText.reportedHeaders.map trimmed) plainText.response.body :=
  @reported_writeResponse _ _ _ _ _ (literal "200") (literal " OK")
    ⟨by decide, by decide, by decide +kernel, by decide, by decide, by decide⟩ (by decide)
    (by
      intro header hmem
      obtain rfl := List.mem_singleton.mp hmem
      exact ⟨by decide, by decide, by decide, by decide, by decide⟩)
    (by decide) ⟨rfl, rfl, rfl, Nat.zero_le _, rfl⟩ (by decide +kernel) (by unfold FitsClient; decide +kernel)

/-- The header that an observer is told about. -/
def headerIn? : ObserverCall → Option HttpHeader
  | .headerAvailable header => some header
  | _ => none

def headersIn (calls : List ObserverCall) : List HttpHeader := calls.filterMap headerIn?

theorem not_reported_of {text : BoundedString} {headers : List HttpHeader} {body : BoundedString}
    (h : ((HttpClientImpl.expectResponse headerBufferSize).receive [text]).all
      (fun c => decide (headersIn c.calls ≠ headers ∨ HttpClientImpl.bodyRead c.calls ≠ body)) = true) :
    ¬ Reported headerBufferSize text code headers body := by
  rintro ⟨c, parts, hreceive, hcalls, hparts, -⟩
  rw [hreceive, Option.all_some, decide_eq_true_eq] at h
  have hheaders : headersIn c.calls = headers := by
    have hfront : (headers.map ObserverCall.headerAvailable).filterMap headerIn? = headers := by
      rw [List.filterMap_map]
      exact List.filterMap_some
    have hnone : (parts.map ObserverCall.bodyAvailable).filterMap headerIn? = [] := by
      rw [List.filterMap_map, List.filterMap_eq_nil_iff]
      exact fun _ _ => rfl
    rw [hcalls, headersIn, List.cons_append, List.cons_append, List.filterMap_cons, List.filterMap_append,
      List.filterMap_append, hfront, hnone, List.append_nil]
    exact List.append_nil _
  have hbody : HttpClientImpl.bodyRead c.calls = body := by
    have hnone : (headers.map ObserverCall.headerAvailable).flatMap HttpClientImpl.bytesOf = [] := by
      rw [List.flatMap_map, List.flatMap_eq_nil_iff]
      exact fun _ _ => rfl
    have hall : (parts.map ObserverCall.bodyAvailable).flatMap HttpClientImpl.bytesOf = body := by
      rw [List.flatMap_map, ← hparts]
      exact List.flatMap_id'
    rw [hcalls, HttpClientImpl.bodyRead, List.cons_append, List.cons_append, List.flatMap_cons, List.flatMap_append,
      List.flatMap_append, hnone, hall, List.nil_append]
    exact List.append_nil _
  rcases h with h | h
  · exact h hheaders
  · exact h hbody

/-- The responses that the client reports in another way: with a space in front of a value, with a text right behind
the code, with a colon in a name, without a name, and with another length. -/
def misread : List HttpResponseFunctions :=
  [{ plainText with contentType := literal " text/plain" },
   { plainText with status := literal "200x" },
   { plainText with headers := [{ field := literal "a:b", value := literal "x" }] },
   { plainText with headers := [{ field := [], value := literal "x" }] },
   { plainText with headers := [{ field := literal "Content-Length", value := literal "1" }] }]

/-- A response with the code for success, and lines that are not broken and fit. -/
def Written (r : HttpResponseFunctions) : Prop :=
  (∀ c ∈ r.status.take 3, isDigit c = true) ∧ httpStatusCodeFromString (r.status.take 3) = some .ok ∧
    Unbroken (r.status.drop 3) ∧ Unbroken r.contentType ∧
    (∀ header ∈ r.headers, Unbroken header.field ∧ Unbroken header.value) ∧
    r.response.body.length ≤ r.maxBodySize.toNat ∧ r.FitsClient 64 ∧
    (r.writeResponse (emptyString 128)).map (·.string.content) = some r.response.writeResponse

theorem not_reported_misread : misread.Forall fun r => r.Written ∧
    ¬ Reported 64 r.response.writeResponse .ok r.reportedHeaders r.response.body := by
  have hwritten : ∀ r ∈ misread, r.Written := by
    unfold Written FitsClient
    decide +kernel
  have hcalls : ∀ r ∈ misread,
      ((HttpClientImpl.expectResponse 64).receive [r.response.writeResponse]).all (fun c => decide
        (headersIn c.calls ≠ r.reportedHeaders ∨ HttpClientImpl.bodyRead c.calls ≠ r.response.body)) = true := by
    decide +kernel
  refine List.forall_iff_forall_mem.mpr fun r hr => ?_
  exact ⟨hwritten r hr, not_reported_of (hcalls r hr)⟩

end HttpResponseFunctions

end EmbeddedInfra.Http
