import EmbeddedInfra.Services.Network.HttpClientImpl
import Mathlib.Data.List.DropRight

set_option autoImplicit false

/-! # Responses in fragments

The bytes of a response may come in over any number of events. Events with whole lines of the head do the
same as one event with all of those lines, and so do events with parts of the body, but for the parts in
which the observer reads it (`good_of_bordered`). An event that ends inside a line of the head has that
part of the line extracted, acknowledged and lost.
-/

namespace EmbeddedInfra.Http

open HttpResponseParser HttpHeader

/-! ## Well-formed responses -/

/-- The characters of a line. -/
def Unbroken (s : BoundedString) : Prop := ∀ c ∈ s, c ≠ cr ∧ c ≠ lf

instance (s : BoundedString) : Decidable (Unbroken s) := List.decidableBAll (fun c => c ≠ cr ∧ c ≠ lf) s

structure Response where
  httpVersion : BoundedString
  code : HttpStatusCode
  reason : BoundedString
  headers : List HttpHeader
  body : BoundedString

namespace Response

def statusLine (r : Response) : BoundedString := r.httpVersion ++ char ' ' :: (r.code.digits ++ char ' ' :: r.reason)

def head (r : Response) : BoundedString := unlines (r.statusLine :: r.headers.map text) crlf

def text (r : Response) : BoundedString := r.head ++ r.body

end Response

/-- A header line that fits the header buffer with the carriage return behind it. -/
structure HttpHeader.Fits (maxSize : Nat) (header : HttpHeader) : Prop where
  field_ne_nil : header.field ≠ []
  colon_notMem : char ':' ∉ header.field
  field_unbroken : Unbroken header.field
  value_unbroken : Unbroken header.value
  size_lt : header.size < maxSize

/-- A response that has a status line, header lines and the length of its body. -/
structure Response.WellFormed (maxSize : Nat) (r : Response) : Prop where
  version : httpVersionValid r.httpVersion
  reason : Unbroken r.reason
  statusLine_lt : r.statusLine.length < maxSize
  headers : ∀ h ∈ r.headers, h.Fits maxSize
  announced : ∃ h ∈ r.headers, h.field = literal "Content-Length"
  announces : ∀ h ∈ r.headers, h.field = literal "Content-Length" →
    readContentLength h.value = some r.body.length.toUInt32
  body_lt : r.body.length < 2 ^ 32

/-! ## One line -/

/-- The header that the observer gets to see. -/
def HttpHeader.seen (header : HttpHeader) : HttpHeader :=
  { field := header.field
    value := trimLeft (Tokenizer.skipConsecutiveSeparators (char ':') header.value) }

section Line

variable {maxSize : Nat} {line rest : BoundedString} {p : HttpResponseParser}

theorem Unbroken.append {first second : BoundedString} (hfirst : Unbroken first) (hsecond : Unbroken second) :
    Unbroken (first ++ second) := by
  intro c hc
  rcases List.mem_append.mp hc with hc | hc
  · exact hfirst c hc
  · exact hsecond c hc

theorem Unbroken.cons {c : UInt8} {s : BoundedString} (hc : c ≠ cr ∧ c ≠ lf) (hs : Unbroken s) : Unbroken (c :: s) := by
  intro d hd
  rcases List.mem_cons.mp hd with rfl | hd
  · exact hc
  · exact hs d hd

/-- The line break is found behind the line. -/
theorem crlfPos_line (hline : Unbroken line) (hlt : line.length < maxSize) :
    crlfPos ((line ++ (crlf ++ rest)).take maxSize) = some line.length := by
  obtain ⟨more, hmore⟩ : ∃ more, (line ++ (crlf ++ rest)).take maxSize = line ++ cr :: more := by
    refine ⟨(lf :: rest).take (maxSize - line.length - 1), ?_⟩
    rw [List.take_append, List.take_of_length_le (by omega)]
    obtain ⟨n, hn⟩ : ∃ n, maxSize - line.length = n + 1 := ⟨maxSize - line.length - 1, by omega⟩
    rw [hn]
    rfl
  rw [hmore, crlfPos, List.findIdx?_append, List.findIdx?_eq_none_iff.mpr (by simpa [Unbroken] using hline),
    List.findIdx?_cons]
  simp

theorem drop_behind_line : (line ++ (crlf ++ rest)).drop (line.length + 2) = rest := by
  rw [← List.drop_drop, List.drop_left]
  rfl

theorem behind_line_le : line.length + 2 ≤ (line ++ (crlf ++ rest)).length := by
  simp only [List.length_append, crlf, List.length_cons, List.length_nil]
  omega

/-- The status line is read. -/
theorem parseStatusLine_line (hline : Unbroken line) (hlt : line.length < maxSize) :
    parseStatusLine maxSize p (line ++ (crlf ++ rest)) = some (statusRead p line rest) := by
  simp only [parseStatusLine, crlfPos_line hline hlt]
  rw [if_pos behind_line_le, drop_behind_line, List.take_left]

theorem parseHeaders_nil : parseHeaders maxSize p [] = some { parser := p, calls := [], rest := [] } := by
  rw [parseHeaders, if_pos (Or.inr rfl)]

/-- The blank line ends the head. -/
theorem parseHeaders_blank (hdone : p.done = false) (hmax : 0 < maxSize) :
    parseHeaders maxSize p (crlf ++ rest) =
      some { parser := { p with error := p.contentLength.isNone, done := true }, calls := [], rest := rest } := by
  have hpos : crlfPos ((crlf ++ rest).take maxSize) = some 0 :=
    @crlfPos_line maxSize [] rest (by simp [Unbroken]) hmax
  have hnot : ¬ (p.done = true ∨ crlf ++ rest = []) := by simp [hdone, crlf]
  rw [parseHeaders, if_neg hnot, hpos]
  simp only [Nat.zero_add, if_true]
  rw [if_pos (show 2 ≤ (crlf ++ rest).length from @behind_line_le [] rest)]
  rfl

/-- A header line is read. -/
theorem parseHeaders_line (hdone : p.done = false) (hline : Unbroken line) (hne : line ≠ []) (hlt : line.length < maxSize)
    {p' : HttpResponseParser} {calls : List ObserverCall}
    (hread : headerRead p (headerFromString line) = some (p', calls)) :
    parseHeaders maxSize p (line ++ (crlf ++ rest)) = (parseHeaders maxSize p' rest).map (Parsed.after calls) := by
  have hnot : ¬ (p.done = true ∨ line ++ (crlf ++ rest) = []) := by simp [hdone, crlf]
  have hlen : line.length ≠ 0 := by simpa using hne
  rw [parseHeaders, if_neg hnot, crlfPos_line hline hlt]
  simp only [hlen, if_false, List.take_left, hread]
  rw [if_pos behind_line_le, drop_behind_line]

theorem headerFromString_text {header : HttpHeader} (h : header.Fits maxSize) :
    headerFromString header.text = header.seen := by
  simp only [headerFromString, text, seen, Tokenizer.token_zero h.field_ne_nil h.colon_notMem,
    Tokenizer.tokenAndRest_one h.field_ne_nil h.colon_notMem]

theorem HttpHeader.Fits.text_unbroken {header : HttpHeader} (h : header.Fits maxSize) : Unbroken header.text :=
  h.field_unbroken.append (h.value_unbroken.cons (by decide))

/-- Spaces and colons in front do not matter to a value that is a number. -/
theorem readContentLength_seen {header : HttpHeader} {length : UInt32}
    (h : readContentLength header.value = some length) : readContentLength header.seen.value = some length := by
  have hhead : header.value.head? ≠ some (char ':') := by
    intro hcolon
    have htrim : trimLeft header.value = header.value := trimLeft_of_head (by rw [hcolon]; decide)
    rw [readContentLength, htrim, hcolon, if_neg (by decide)] at h
    cases h
  have htwice : trimLeft (trimLeft header.value) = trimLeft header.value := List.dropWhile_idempotent _ _
  simp only [seen, Tokenizer.skipConsecutiveSeparators_of_head hhead]
  simpa only [readContentLength, readAsDecimal, htwice] using h

end Line

/-! ## The lines of a response -/

/-- What the observer is told about headers. -/
def headerCalls (headers : List HttpHeader) : List ObserverCall :=
  (headers.filter (·.field != literal "Content-Length")).map fun h => .headerAvailable h.seen

section Lines

variable {maxSize : Nat} {r : Response} {rest : BoundedString} {p : HttpResponseParser} {headers : List HttpHeader}

/-- The parser that has read headers of the response. -/
def headersRead (r : Response) (p : HttpResponseParser) (headers : List HttpHeader) : HttpResponseParser :=
  { p with
    contentLength :=
      if headers.any (·.field == literal "Content-Length") then some r.body.length.toUInt32 else p.contentLength }

theorem headersRead_cons (h : HttpHeader) :
    headersRead r p (h :: headers) = headersRead r (headersRead r p [h]) headers := by
  simp only [headersRead, List.any_cons, List.any_nil, Bool.or_false]
  by_cases hname : (h.field == literal "Content-Length") = true
  · simp [hname]
  · simp [hname]

theorem headerCalls_cons (h : HttpHeader) : headerCalls (h :: headers) = headerCalls [h] ++ headerCalls headers := by
  simp only [headerCalls, ← List.map_append, ← List.filter_append, List.singleton_append]

variable (hr : r.WellFormed maxSize)
include hr

/-- One header of the response. -/
theorem headerRead_seen {h : HttpHeader} (hmem : h ∈ r.headers) :
    headerRead p h.seen = some (headersRead r p [h], headerCalls [h]) := by
  by_cases hname : h.field = literal "Content-Length"
  · have hlength := readContentLength_seen (hr.announces h hmem hname)
    have hseen : h.seen.field = literal "Content-Length" := hname
    simp [headerRead, hseen, hlength, headersRead, headerCalls, hname]
  · have hseen : h.seen.field ≠ literal "Content-Length" := hname
    simp [headerRead, hseen, headersRead, headerCalls, hname]

/-- Headers of the response in front of other data. -/
theorem parseHeaders_headers (hdone : p.done = false) (hmem : ∀ h ∈ headers, h ∈ r.headers) :
    parseHeaders maxSize p (unlines (headers.map text) rest) =
      (parseHeaders maxSize (headersRead r p headers) rest).map (Parsed.after (headerCalls headers)) := by
  induction headers generalizing p with
  | nil =>
      show parseHeaders maxSize p rest = (parseHeaders maxSize p rest).map id
      rw [Option.map_id_fun, id]
  | cons h headers ih =>
      have hfits := hr.headers h (hmem h List.mem_cons_self)
      have hread : headerRead p (headerFromString h.text) = some (headersRead r p [h], headerCalls [h]) := by
        rw [headerFromString_text hfits, headerRead_seen hr (hmem h List.mem_cons_self)]
      have hlt : h.text.length < maxSize := by
        rw [length_text]
        exact hfits.size_lt
      have hnext : (headersRead r p [h]).done = false := hdone
      rw [List.map_cons, unlines_cons, parseHeaders_line hdone hfits.text_unbroken h.text_ne_nil hlt hread,
        ih hnext fun h hh => hmem h (List.mem_cons_of_mem _ hh), Option.map_map, ← headersRead_cons, @headerCalls_cons headers h]
      congr 1
      funext parsed
      simp only [Function.comp_apply, Parsed.after, List.append_assoc]

omit hr in
/-- The status is in the status line. -/
theorem statusOf_statusLine (hversion : httpVersionValid r.httpVersion) : statusOf r.statusLine = some r.code := by
  have hne : r.httpVersion ≠ [] := by
    intro hnil
    rw [hnil] at hversion
    exact absurd hversion (by decide)
  have hspace : char ' ' ∉ r.httpVersion := by
    simp only [httpVersionValid, Bool.or_eq_true, decide_eq_true_eq] at hversion
    rcases hversion with hversion | hversion <;> rw [hversion] <;> decide
  have hdigits : (r.code.digits ++ char ' ' :: r.reason).head? ≠ some (char ' ') :=
    Tokenizer.head?_append_of_ne_nil (by simp [HttpStatusCode.digits]) (space_notMem_digits _)
  rw [statusOf, Response.statusLine, Tokenizer.token_zero hne hspace, Tokenizer.token_one hne hspace, if_pos hversion,
    Tokenizer.skipConsecutiveSeparators_of_head hdigits, Tokenizer.makeToken_append (space_notMem_digits _),
    httpStatusCodeFromString_digits]

theorem statusLine_unbroken : Unbroken r.statusLine := by
  have hversion : Unbroken r.httpVersion := by
    have hvalid := hr.version
    simp only [httpVersionValid, Bool.or_eq_true, decide_eq_true_eq] at hvalid
    rcases hvalid with hvalid | hvalid <;> rw [hvalid] <;> decide
  have hdigits : Unbroken r.code.digits := by
    cases r.code <;> decide
  exact hversion.append ((hdigits.append (hr.reason.cons (by decide))).cons (by decide))

/-- The parser that has read the status line and some headers. -/
def inHead (r : Response) (headers : List HttpHeader) : HttpResponseParser :=
  headersRead r { statusParsed := true } headers

/-- The first lines of the response in front of other data. -/
theorem dataReceived_lines (hmem : ∀ h ∈ headers, h ∈ r.headers) :
    HttpResponseParser.dataReceived maxSize {} (unlines (r.statusLine :: headers.map text) rest) =
      (parseHeaders maxSize (inHead r headers) rest).map
        (Parsed.after (.statusAvailable r.code :: headerCalls headers)) := by
  have hstatus : parseStatusLine maxSize {} (unlines (r.statusLine :: headers.map text) rest) =
      some { parser := { statusParsed := true }, calls := [.statusAvailable r.code],
             rest := unlines (headers.map text) rest } := by
    rw [unlines_cons, parseStatusLine_line (statusLine_unbroken hr) hr.statusLine_lt]
    simp [statusRead, statusOf_statusLine hr.version]
  have hheaders : parseHeaders maxSize { statusParsed := true } (unlines (headers.map text) rest) = _ :=
    parseHeaders_headers hr rfl hmem
  simp only [HttpResponseParser.dataReceived, Bool.false_eq_true, if_false, hstatus, Option.bind_some, hheaders,
    Option.map_map]
  congr 1

end Lines

/-! ## Events in the head -/

namespace HttpClientImpl

section Head

variable {maxSize : Nat} {r : Response} {headers : List HttpHeader} {data : BoundedString}

/-- The client that has read the status line and some headers. -/
def waiting (maxSize : Nat) (r : Response) (headers : List HttpHeader) : HttpClientImpl :=
  { expectResponse maxSize with
    response := some (inHead r headers)
    calls := .statusAvailable r.code :: headerCalls headers }

/-- What the parser has read in an event is acknowledged. -/
def acknowledged (c : HttpClientImpl) (parsed : Parsed) : Option HttpClientImpl :=
  { c with received := parsed.rest, response := some parsed.parser, calls := c.calls ++ parsed.calls }.responseParsed
    parsed.parser

theorem dataReceived_waiting :
    (waiting maxSize r headers).dataReceived data =
      (parseHeaders maxSize (inHead r headers) data).bind (waiting maxSize r headers).acknowledged := by
  have hparse : (inHead r headers).dataReceived maxSize data = parseHeaders maxSize (inHead r headers) data := by
    show (parseHeaders maxSize (inHead r headers) data).map id = _
    rw [Option.map_id_fun, id]
  show ((inHead r headers).dataReceived maxSize ([] ++ data)).bind _ = _
  rw [List.nil_append, hparse]
  rfl

variable (hr : r.WellFormed maxSize) (hmem : ∀ h ∈ headers, h ∈ r.headers)
include hr hmem

theorem dataReceived_expectResponse :
    (expectResponse maxSize).dataReceived (unlines (r.statusLine :: headers.map text) data) =
      (waiting maxSize r headers).dataReceived data := by
  rw [dataReceived_waiting]
  show (HttpResponseParser.dataReceived maxSize {} ([] ++ unlines _ data)).bind _ = _
  rw [List.nil_append, dataReceived_lines hr hmem, Option.bind_map]
  congr 1

/-- Whole lines are read, and there is nothing left of them. -/
theorem dataReceived_wholeLines :
    (expectResponse maxSize).dataReceived (unlines (r.statusLine :: headers.map text) []) =
      some (waiting maxSize r headers) := by
  rw [dataReceived_expectResponse hr hmem, dataReceived_waiting, parseHeaders_nil, Option.bind_some]
  show some { waiting maxSize r headers with calls := (waiting maxSize r headers).calls ++ [] } = _
  rw [List.append_nil]

end Head

/-! ## Events in the body -/

/-- Chunks of which the last one brings something bring something. -/
theorem flatten_ne_nil {chunks : List BoundedString} (hne : chunks ≠ []) (hlast : chunks.getLast? ≠ some []) :
    chunks.flatten ≠ [] := by
  intro hnil
  refine hlast ?_
  rw [List.getLast?_eq_getLast_of_ne_nil hne, List.flatten_eq_nil_iff.mp hnil _ (List.getLast_mem hne)]

section Body

variable {maxSize : Nat} {r : Response} {data : BoundedString} {length : UInt32} {calls : List ObserverCall}

/-- The parser that has read the head. -/
def headDone (r : Response) : HttpResponseParser :=
  { done := true, statusParsed := true, contentLength := some r.body.length.toUInt32 }

/-- The client that waits for so many bytes of the body. -/
def inBody (maxSize : Nat) (r : Response) (length : UInt32) (calls : List ObserverCall) : HttpClientImpl :=
  { expectResponse maxSize with response := some (headDone r), contentLength := some length, calls := calls }

/-- The client that has told its observer that the body is complete. -/
def completed (maxSize : Nat) (calls : List ObserverCall) : HttpClientImpl :=
  { expectResponse maxSize with response := none, calls := calls ++ [.bodyComplete] }

/-- What is still to be read. -/
theorem toNat_sub_read {n : Nat} (hle : n ≤ length.toNat) : (length - n.toUInt32).toNat = length.toNat - n := by
  have hn : n.toUInt32.toNat = n := by
    rw [Nat.toUInt32, UInt32.toNat_ofNat', Nat.mod_eq_of_lt (lt_of_le_of_lt hle length.toNat_lt)]
  rw [UInt32.toNat_sub_of_le, hn]
  rw [UInt32.le_iff_toNat_le, hn]
  exact hle

/-- The observer has read a part of the body. -/
theorem bodyAvailable_part (hlt : data.length < length.toNat) :
    { inBody maxSize r length calls with received := data }.bodyAvailable length =
      inBody maxSize r (length - data.length.toUInt32) (calls ++ [.bodyAvailable data]) := by
  have hne : ¬ length - data.length.toUInt32 = 0 := by
    intro hzero
    have hread := @toNat_sub_read length data.length hlt.le
    rw [hzero, UInt32.toNat_zero] at hread
    omega
  simp only [HttpClientImpl.bodyAvailable, inBody, List.take_of_length_le hlt.le, List.drop_of_length_le hlt.le,
    bodyReaderDestroyed, if_neg hne, expectResponse]

/-- The observer has read the rest of the body. -/
theorem bodyAvailable_rest (heq : data.length = length.toNat) :
    { inBody maxSize r length calls with received := data }.bodyAvailable length =
      completed maxSize (calls ++ [.bodyAvailable data]) := by
  have hzero : length - data.length.toUInt32 = 0 := by
    rw [← UInt32.toNat_inj, toNat_sub_read heq.le, heq, Nat.sub_self]
    rfl
  simp only [HttpClientImpl.bodyAvailable, inBody, List.take_of_length_le heq.le, List.drop_of_length_le heq.le,
    bodyReaderDestroyed, if_pos hzero, expectResponse, completed, bodyComplete]

theorem dataReceived_inBody (hne : length ≠ 0) : (inBody maxSize r length calls).dataReceived data =
    some ({ inBody maxSize r length calls with received := data }.bodyAvailable length) := by
  show some (if length = 0 then _ else _) = _
  rw [if_neg hne]
  rfl

/-- All of the body comes in, in parts. -/
theorem receive_body {chunks : List BoundedString} (hne : length ≠ 0) (hlen : chunks.flatten.length = length.toNat)
    (hlast : chunks.getLast? ≠ some []) :
    (inBody maxSize r length calls).receive chunks =
      some (completed maxSize (calls ++ chunks.map .bodyAvailable)) := by
  induction chunks generalizing length calls with
  | nil =>
      have : length.toNat = 0 := hlen.symm
      exact absurd (UInt32.toNat_inj.mp this) hne
  | cons data chunks ih =>
      rw [List.flatten_cons, List.length_append] at hlen
      rw [receive, List.foldlM_cons, dataReceived_inBody hne]
      cases chunks with
      | nil =>
          rw [bodyAvailable_rest (by simpa using hlen)]
          rfl
      | cons next chunks =>
          have hlast' : (next :: chunks).getLast? ≠ some [] := by
            rwa [List.getLast?_cons_cons] at hlast
          have hrest : (next :: chunks).flatten ≠ [] := flatten_ne_nil (by simp) hlast'
          have hlt : data.length < length.toNat := by
            have := List.length_pos_iff.mpr hrest
            omega
          have hsize : (length - data.length.toUInt32).toNat = (next :: chunks).flatten.length := by
            rw [toNat_sub_read hlt.le]
            omega
          have hne' : length - data.length.toUInt32 ≠ 0 := by
            intro hzero
            rw [hzero] at hsize
            exact hrest (List.length_eq_zero_iff.mp hsize.symm)
          rw [bodyAvailable_part hlt]
          have := @ih (length - data.length.toUInt32) (calls ++ [.bodyAvailable data]) hne' hsize.symm hlast'
          rw [receive] at this
          rw [Option.bind_eq_bind, Option.bind_some, this]
          simp

/-- All of the head, and the first part of the body. -/
theorem dataReceived_head (hr : r.WellFormed maxSize) :
    (expectResponse maxSize).dataReceived (r.head ++ data) =
      { inBody maxSize r r.body.length.toUInt32 (.statusAvailable r.code :: headerCalls r.headers) with
        received := data, contentLength := none }.bodyReceived (headDone r) := by
  have hany : r.headers.any (·.field == literal "Content-Length") = true := by
    obtain ⟨h, hmem, hname⟩ := hr.announced
    exact List.any_eq_true.mpr ⟨h, hmem, by simp [hname]⟩
  have hmax : 0 < maxSize := lt_of_le_of_lt (Nat.zero_le _) hr.statusLine_lt
  have hparser : inHead r r.headers =
      { statusParsed := true, contentLength := some r.body.length.toUInt32 } := by
    simp only [inHead, headersRead, hany, if_true]
  have hhead : r.head ++ data = unlines (r.statusLine :: r.headers.map text) (crlf ++ data) := by
    rw [Response.head, unlines_append]
  rw [hhead, dataReceived_expectResponse hr fun h hh => hh, dataReceived_waiting, hparser,
    parseHeaders_blank rfl hmax, Option.bind_some]
  show { waiting maxSize r r.headers with
    received := data, response := some (headDone r),
    calls := (waiting maxSize r r.headers).calls ++ [] }.bodyReceived (headDone r) = _
  rw [List.append_nil]
  rfl

end Body

/-! ## What the observer gets -/

/-- One call in front of others; parts of the body are put together. -/
def join : ObserverCall → List ObserverCall → List ObserverCall
  | .bodyAvailable first, .bodyAvailable second :: calls => .bodyAvailable (first ++ second) :: calls
  | call, calls => call :: calls

/-- The calls, with all that is read of the body in one. -/
def gather (calls : List ObserverCall) : List ObserverCall := calls.foldr join []

/-- The bytes that a call brings. -/
def bytesOf : ObserverCall → BoundedString
  | .bodyAvailable bytes => bytes
  | _ => []

/-- The bytes of the body that the observer has read. -/
def bodyRead (calls : List ObserverCall) : BoundedString := calls.flatMap bytesOf

/-- The chunks have the same effect as all of the response at once: the same calls, of which one says that
the body is complete, and all bytes of the body. -/
def Independent (maxSize : Nat) (r : Response) (chunks : List BoundedString) : Prop :=
  ∃ c whole, (expectResponse maxSize).receive chunks = some c ∧
    (expectResponse maxSize).receive [r.text] = some whole ∧
    gather c.calls = gather whole.calls ∧
    c.calls.count .bodyComplete = 1 ∧
    bodyRead c.calls = r.body ∧
    c.aborted = false

/-- The bytes of the response over some events, of which the last one does bring something. -/
structure Splits (r : Response) (chunks : List BoundedString) : Prop where
  flatten_eq : chunks.flatten = r.text
  last_ne_nil : chunks.getLast? ≠ some []

/-- No event ends inside a line of the head. -/
def Bordered (r : Response) (chunks : List BoundedString) : Prop :=
  ∀ earlier ∈ chunks.inits,
    earlier.flatten = [] ∨ crlf <:+ earlier.flatten ∨ r.head.length ≤ earlier.flatten.length

/-- The calls for a response whose body is read in these parts. -/
def callsFor (r : Response) (parts : List BoundedString) : List ObserverCall :=
  .statusAvailable r.code :: headerCalls r.headers ++ parts.map .bodyAvailable ++ [.bodyComplete]

section Calls

variable {r : Response} {parts : List BoundedString}

/-- Calls that bring nothing of the body stay as they are. -/
theorem gather_append {front calls : List ObserverCall} (h : ∀ call ∈ front, ∀ bytes, call ≠ .bodyAvailable bytes) :
    gather (front ++ calls) = front ++ gather calls := by
  induction front with
  | nil => rfl
  | cons call front ih =>
      have hcall := h call List.mem_cons_self
      have hjoin (rest : List ObserverCall) : join call rest = call :: rest := by
        cases call with
        | bodyAvailable bytes => exact absurd rfl (hcall bytes)
        | statusAvailable code => rfl
        | headerAvailable header => rfl
        | bodyComplete => rfl
      show join call (gather (front ++ calls)) = _
      rw [ih fun c hc => h c (List.mem_cons_of_mem _ hc), hjoin]
      rfl

theorem gather_parts (part : BoundedString) :
    gather ((part :: parts).map .bodyAvailable ++ [.bodyComplete]) =
      [.bodyAvailable (part :: parts).flatten, .bodyComplete] := by
  induction parts generalizing part with
  | nil => simp [gather, join]
  | cons next parts ih =>
      show join (.bodyAvailable part) (gather ((next :: parts).map .bodyAvailable ++ [.bodyComplete])) = _
      rw [ih next]
      simp [join]

theorem headerCalls_ne_body {headers : List HttpHeader} :
    ∀ call ∈ headerCalls headers, ∃ header, call = .headerAvailable header := by
  intro call hcall
  obtain ⟨h, -, rfl⟩ := List.mem_map.mp hcall
  exact ⟨h.seen, rfl⟩

/-- The parts in which the body is read do not show in the calls. -/
theorem gather_callsFor {others : List BoundedString} (hflatten : parts.flatten = others.flatten)
    (hnil : parts = [] ↔ others = []) : gather (callsFor r parts) = gather (callsFor r others) := by
  have hfront : ∀ call ∈ ObserverCall.statusAvailable r.code :: headerCalls r.headers, ∀ bytes,
      call ≠ .bodyAvailable bytes := by
    intro call hcall bytes
    rcases List.mem_cons.mp hcall with rfl | hcall
    · simp
    · obtain ⟨header, rfl⟩ := headerCalls_ne_body call hcall
      simp
  rw [callsFor, callsFor, List.append_assoc, List.append_assoc, gather_append hfront, gather_append hfront]
  congr 1
  cases parts with
  | nil => rw [hnil.mp rfl]
  | cons part parts =>
      obtain ⟨other, others, rfl⟩ := List.exists_cons_of_ne_nil (mt hnil.mpr (by simp))
      rw [gather_parts, gather_parts, hflatten]

theorem count_callsFor : (callsFor r parts).count .bodyComplete = 1 := by
  have hheaders : (headerCalls r.headers).count .bodyComplete = 0 := by
    rw [List.count_eq_zero]
    intro hmem
    obtain ⟨header, hheader⟩ := headerCalls_ne_body _ hmem
    cases hheader
  have hparts : (parts.map ObserverCall.bodyAvailable).count .bodyComplete = 0 := by
    simp [List.count_eq_zero]
  simp [callsFor, List.count_append, hheaders, hparts]

theorem bodyRead_callsFor : bodyRead (callsFor r parts) = parts.flatten := by
  have hheaders : bodyRead (headerCalls r.headers) = [] := by
    rw [bodyRead, List.flatMap_eq_nil_iff]
    intro call hcall
    obtain ⟨header, rfl⟩ := headerCalls_ne_body call hcall
    rfl
  rw [bodyRead] at hheaders
  simp [callsFor, bodyRead, hheaders, bytesOf, List.flatMap_append, List.flatMap_map, List.flatMap_id']

end Calls

/-! ## Every way to split a response at lines -/

/-- A piece of lines that does not end inside a line consists of whole lines, or of all of them. -/
theorem whole_of_border {lines : List BoundedString} {body data : BoundedString} (hlines : ∀ l ∈ lines, Unbroken l)
    (hdata : data <+: unlines lines (crlf ++ body))
    (hborder : data = [] ∨ crlf <:+ data ∨ (unlines lines crlf).length ≤ data.length) :
    (∃ n, n ≤ lines.length ∧ data = unlines (lines.take n) []) ∨
      ∃ front, front <+: body ∧ data = unlines lines (crlf ++ front) := by
  induction lines generalizing data with
  | nil =>
      rcases hborder with rfl | hborder
      · exact Or.inl ⟨0, le_rfl, rfl⟩
      · have hlen : crlf.length ≤ data.length := by
          rcases hborder with hborder | hborder
          · exact hborder.length_le
          · exact hborder
        have hpre : crlf <+: data := List.prefix_of_prefix_length_le (List.prefix_append _ _) hdata hlen
        obtain ⟨front, rfl⟩ := hpre
        exact Or.inr ⟨front, (List.prefix_append_right_inj _).mp hdata, rfl⟩
  | cons line lines ih =>
      rcases hborder with rfl | hborder
      · exact Or.inl ⟨0, Nat.zero_le _, rfl⟩
      · have hline := hlines line List.mem_cons_self
        have hlong : line.length + 2 ≤ data.length := by
          by_contra hshort
          -- what ends before the line feed has none
          have hin : data <+: line ++ [cr] := by
            refine List.prefix_of_prefix_length_le hdata ⟨lf :: unlines lines (crlf ++ body), by simp [crlf]⟩ ?_
            simp only [List.length_append, List.length_cons, List.length_nil]
            omega
          rcases hborder with hborder | hborder
          · have hlf : lf ∈ line ++ [cr] := hin.subset (hborder.subset (by simp [crlf]))
            rcases List.mem_append.mp hlf with hlf | hlf
            · exact (hline lf hlf).2 rfl
            · exact absurd (List.mem_singleton.mp hlf) (by decide)
          · simp only [unlines_cons, List.length_append, crlf, List.length_cons, List.length_nil] at hborder
            omega
        have hpre : line ++ crlf <+: data := by
          refine List.prefix_of_prefix_length_le ⟨unlines lines (crlf ++ body), by simp⟩ hdata ?_
          simpa [crlf] using hlong
        obtain ⟨rest, rfl⟩ := hpre
        rw [List.append_assoc] at hdata hborder ⊢
        have hrest : rest <+: unlines lines (crlf ++ body) := by
          rw [unlines_cons, List.prefix_append_right_inj, List.prefix_append_right_inj] at hdata
          exact hdata
        have hborder' : rest = [] ∨ crlf <:+ rest ∨ (unlines lines crlf).length ≤ rest.length := by
          rcases hborder with hborder | hborder
          · rcases rest with _ | ⟨a, _ | ⟨b, rest⟩⟩
            · exact Or.inl rfl
            · exfalso
              have hsuffix : [lf, a] <:+ line ++ (crlf ++ [a]) := ⟨line ++ [cr], by simp [crlf]⟩
              have := (List.suffix_of_suffix_length_le hborder hsuffix le_rfl).eq_of_length rfl
              simp [crlf, cr, lf] at this
            · refine Or.inr (Or.inl (List.suffix_of_suffix_length_le hborder ?_ (by simp [crlf])))
              exact (List.suffix_append _ _).trans (List.suffix_append _ _)
          · refine Or.inr (Or.inr ?_)
            simp only [unlines_cons, List.length_append] at hborder
            omega
        rcases ih (fun l hl => hlines l (List.mem_cons_of_mem _ hl)) hrest hborder' with ⟨n, hn, rfl⟩ | ⟨front, hfront, rfl⟩
        · exact Or.inl ⟨n + 1, by simpa using hn, rfl⟩
        · exact Or.inr ⟨front, hfront, rfl⟩

/-- Some of the lines are not all of them and more. -/
theorem unlines_take_ne (lines : List BoundedString) (n : Nat) (body : BoundedString) :
    unlines (lines.take n) [] ≠ unlines lines (crlf ++ body) := by
  intro heq
  have hsplit : unlines lines (crlf ++ body) = unlines (lines.take n) (unlines (lines.drop n) (crlf ++ body)) := by
    simp only [unlines, ← List.foldr_append, List.take_append_drop]
  rw [hsplit, ← List.nil_append (unlines (lines.drop n) _), ← unlines_append, eq_comm, List.append_right_eq_self] at heq
  cases hdrop : lines.drop n <;> simp [hdrop, crlf] at heq

section Joined

variable {r : Response} {data next : BoundedString} {chunks : List BoundedString}

theorem Splits.join (h : Splits r (data :: next :: chunks)) : Splits r ((data ++ next) :: chunks) := by
  constructor
  · simpa using h.flatten_eq
  · cases chunks with
    | nil =>
        have hnext : next ≠ [] := by simpa using h.last_ne_nil
        simp [hnext]
    | cons d ds => simpa using h.last_ne_nil

theorem Bordered.join (h : Bordered r (data :: next :: chunks)) : Bordered r ((data ++ next) :: chunks) := by
  intro earlier hearlier
  rcases List.prefix_cons_iff.mp (List.mem_inits _ _ |>.mp hearlier) with rfl | ⟨earlier, rfl, hpre⟩
  · exact Or.inl rfl
  · have := h (data :: next :: earlier) ((List.mem_inits _ _).mpr (by simpa using hpre))
    simpa using this

end Joined

section Splits

variable {maxSize : Nat} {r : Response} {data next : BoundedString} {chunks : List BoundedString}
  (hr : r.WellFormed maxSize)
include hr

/-- The first event brings all of the head. -/
theorem receive_head (hbody : data ++ chunks.flatten = r.body)
    (hlast : ((r.head ++ data) :: chunks).getLast? ≠ some []) :
    ∃ parts, parts.flatten = r.body ∧ (parts = [] ↔ r.body = []) ∧
      (expectResponse maxSize).receive ((r.head ++ data) :: chunks) =
        some (completed maxSize (.statusAvailable r.code :: headerCalls r.headers ++ parts.map .bodyAvailable)) := by
  have hsize : r.body.length.toUInt32.toNat = r.body.length := by
    rw [Nat.toUInt32, UInt32.toNat_ofNat', Nat.mod_eq_of_lt hr.body_lt]
  have hrest (hne : chunks ≠ []) : chunks.flatten ≠ [] := by
    refine flatten_ne_nil hne ?_
    obtain ⟨d, ds, rfl⟩ := List.exists_cons_of_ne_nil hne
    rwa [List.getLast?_cons_cons] at hlast
  rw [receive, List.foldlM_cons, dataReceived_head hr]
  by_cases hnil : r.body = []
  · have hempty : data = [] ∧ chunks = [] := by
      rw [hnil, List.append_eq_nil_iff] at hbody
      exact ⟨hbody.1, by_contra fun hne => hrest hne hbody.2⟩
    obtain ⟨rfl, rfl⟩ := hempty
    refine ⟨[], by simp [hnil], by simp [hnil], ?_⟩
    have hzero : r.body.length.toUInt32 = 0 := by rw [hnil]; rfl
    simp only [bodyReceived, inBody, headDone, Option.none_or, hzero, Option.map_some, if_true]
    simp [bodyComplete, completed, expectResponse]
  · have hlength : r.body.length.toUInt32 ≠ 0 := by
      intro hzero
      rw [hzero] at hsize
      exact hnil (List.length_eq_zero_iff.mp hsize.symm)
    have hfirst : { inBody maxSize r r.body.length.toUInt32 (.statusAvailable r.code :: headerCalls r.headers) with
          received := data, contentLength := none }.bodyReceived (headDone r) =
        (inBody maxSize r r.body.length.toUInt32 (.statusAvailable r.code :: headerCalls r.headers)).dataReceived
          data := by
      rw [dataReceived_inBody hlength]
      simp only [bodyReceived, headDone, Option.none_or, Option.map_some, if_neg hlength]
      rfl
    have hlast' : (data :: chunks).getLast? ≠ some [] := by
      cases chunks with
      | nil => simpa [← hbody] using hnil
      | cons d ds => simpa using hlast
    refine ⟨data :: chunks, hbody, by simp [hnil], ?_⟩
    rw [hfirst, ← List.foldlM_cons]
    exact receive_body hlength (by rw [List.flatten_cons, hbody, hsize]) hlast'

/-- The first event brings only whole lines of the head. -/
theorem receive_wholeLines {n : Nat}
    (hdata : data = unlines ((r.statusLine :: r.headers.map text).take n) []) :
    (expectResponse maxSize).receive (data :: next :: chunks) =
      (expectResponse maxSize).receive ((data ++ next) :: chunks) := by
  simp only [receive, List.foldlM_cons]
  cases n with
  | zero =>
      have hstay : (expectResponse maxSize).dataReceived [] = some (expectResponse maxSize) := by
        simp [dataReceived, expectResponse, handleData, HttpResponseParser.dataReceived, parseStatusLine, crlfPos,
          parseHeaders_nil, Parsed.after, responseParsed]
      have hnil : data = [] := hdata
      rw [hnil, hstay, List.nil_append]
      rfl
  | succ n =>
      rw [List.take_succ_cons, ← List.map_take] at hdata
      have hmem : ∀ h ∈ r.headers.take n, h ∈ r.headers := fun h hh => List.mem_of_mem_take hh
      rw [hdata, dataReceived_wholeLines hr hmem, unlines_append, List.nil_append, dataReceived_expectResponse hr hmem]
      rfl

/-- What the client does with a response that comes in without an event that ends inside a line. -/
theorem receive_bordered (hsplit : Splits r chunks) (hborder : Bordered r chunks) :
    ∃ parts, parts.flatten = r.body ∧ (parts = [] ↔ r.body = []) ∧
      (expectResponse maxSize).receive chunks =
        some (completed maxSize (.statusAvailable r.code :: headerCalls r.headers ++ parts.map .bodyAvailable)) := by
  have htext : r.text = unlines (r.statusLine :: r.headers.map text) (crlf ++ r.body) := by
    rw [Response.text, Response.head, unlines_append]
  have hlines : ∀ l ∈ r.statusLine :: r.headers.map text, Unbroken l := by
    intro l hl
    rcases List.mem_cons.mp hl with rfl | hl
    · exact statusLine_unbroken hr
    · obtain ⟨h, hmem, rfl⟩ := List.mem_map.mp hl
      exact (hr.headers h hmem).text_unbroken
  -- the first two events are one event, until the first one has all of the head
  induction hn : chunks.length generalizing chunks with
  | zero =>
      have hnil : chunks = [] := List.length_eq_zero_iff.mp hn
      have := hsplit.flatten_eq
      rw [hnil, htext] at this
      simp [crlf] at this
  | succ n ih =>
      obtain ⟨data, chunks, rfl⟩ := List.exists_cons_of_length_eq_add_one hn
      have hflatten : data ++ chunks.flatten = unlines (r.statusLine :: r.headers.map text) (crlf ++ r.body) := by
        rw [← htext]
        exact hsplit.flatten_eq
      have hfirst : data = [] ∨ crlf <:+ data ∨ r.head.length ≤ data.length := by
        simpa using hborder [data] (by simp)
      rcases whole_of_border hlines ⟨_, hflatten⟩ hfirst with ⟨k, hk, hdata⟩ | ⟨front, hfront, hdata⟩
      · cases chunks with
        | nil =>
            rw [List.flatten_nil, List.append_nil, hdata] at hflatten
            exact absurd hflatten (unlines_take_ne _ _ _)
        | cons next chunks =>
            rw [receive_wholeLines hr hdata]
            exact ih hsplit.join (Bordered.join hborder) (by simpa using hn)
      · have hhead : data = r.head ++ front := by
          rw [hdata, Response.head, unlines_append]
        rw [hhead]
        refine receive_head hr ?_ (hhead ▸ hsplit.last_ne_nil)
        have := hsplit.flatten_eq
        rw [List.flatten_cons, hhead, Response.text, List.append_assoc] at this
        exact List.append_cancel_left this

/-- How the bytes of a response are split over events does not matter, if no event ends inside a line of the
head. -/
theorem independent_of_bordered (hsplit : Splits r chunks) (hborder : Bordered r chunks) :
    Independent maxSize r chunks := by
  have hwhole : Splits r [r.text] := by
    refine ⟨by simp, ?_⟩
    simp [Response.text, Response.head, crlf]
  have hborderWhole : Bordered r [r.text] := by
    intro earlier hearlier
    rcases List.prefix_cons_iff.mp (List.mem_inits _ _ |>.mp hearlier) with rfl | ⟨earlier, rfl, hpre⟩
    · exact Or.inl rfl
    · refine Or.inr (Or.inr ?_)
      simp only [Response.text, List.flatten_cons, List.length_append]
      omega
  obtain ⟨parts, hparts, hnil, hreceive⟩ := receive_bordered hr hsplit hborder
  obtain ⟨others, hothers, hnil', hreceiveWhole⟩ := receive_bordered hr hwhole hborderWhole
  refine ⟨_, _, hreceive, hreceiveWhole, ?_, ?_, ?_, rfl⟩
  · exact gather_callsFor (hparts.trans hothers.symm) (hnil.trans hnil'.symm)
  · exact count_callsFor
  · exact bodyRead_callsFor.trans hparts

end Splits

/-- A response with a body of three bytes. -/
def okResponse : Response :=
  { httpVersion := literal "HTTP/1.1", code := .ok, reason := literal "OK"
    headers := [{ field := literal "Content-Length", value := literal "3" }], body := literal "abc" }

theorem okResponse_wellFormed : okResponse.WellFormed 32 := by
  refine ⟨by decide, by decide, by decide, ?_, ⟨_, List.mem_cons_self, rfl⟩, ?_, by decide⟩
  · intro h hh
    obtain rfl := List.mem_singleton.mp hh
    exact ⟨by decide, by decide, by decide, by decide, by decide⟩
  · intro h hh hname
    obtain rfl := List.mem_singleton.mp hh
    decide

theorem independent_of_bordered_ok :
    Independent 32 okResponse
      [literal "HTTP/1.1 200 OK" ++ crlf, literal "Content-Length:3" ++ crlf ++ crlf ++ literal "ab", literal "c"] :=
  independent_of_bordered okResponse_wellFormed ⟨by decide, by decide⟩ (by unfold Bordered; decide)

/-- The status line comes in over two events. -/
def brokenStatusLine : List BoundedString :=
  [literal "HTTP/1.1 200 O", literal "K" ++ (crlf ++ (literal "Content-Length:3" ++ (crlf ++ (crlf ++ literal "abc"))))]

theorem not_independent_brokenStatusLine :
    okResponse.WellFormed 32 ∧ Splits okResponse brokenStatusLine ∧ ¬ Independent 32 okResponse brokenStatusLine := by
  refine ⟨okResponse_wellFormed, ⟨by decide, by decide⟩, ?_⟩
  rintro ⟨c, whole, hreceive, -, -, -, -, hnot⟩
  have hfirst : (expectResponse 32).dataReceived (literal "HTTP/1.1 200 O") = some (expectResponse 32) := by
    show ((parseHeaders 32 {} []).map (Parsed.after [])).bind (expectResponse 32).acknowledged = _
    rw [parseHeaders_nil]
    rfl
  -- the line that is left has no version
  have hsecond : ((expectResponse 32).dataReceived (literal "K" ++ (crlf ++ (literal "Content-Length:3" ++
      (crlf ++ (crlf ++ literal "abc")))))).all (·.aborted) = true := by
    decide
  rw [receive, brokenStatusLine, List.foldlM_cons, hfirst, Option.bind_eq_bind, Option.bind_some, List.foldlM_cons,
    Option.bind_eq_bind] at hreceive
  obtain ⟨c', hc', hlast⟩ := Option.bind_eq_some_iff.mp hreceive
  rw [List.foldlM_nil, Option.pure_def, Option.some.injEq] at hlast
  rw [hc', hlast] at hsecond
  exact absurd hsecond (by simp [hnot])

end HttpClientImpl

end EmbeddedInfra.Http
