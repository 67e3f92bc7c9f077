import EmbeddedInfra.Infra.Stream.DecimalDigits
import EmbeddedInfra.Services.Network.HttpRequestParser

set_option autoImplicit false

/-! # The formatter of HTTP requests

`services::HttpRequestFormatter` writes the requests of the HTTP client. `Understood` says that the
parser of the HTTP server reads from the text what has been written, and waits for all of the content.
-/

namespace EmbeddedInfra.Http

open Decimal HttpRequestParser Tokenizer

/-! ## Decimal numbers -/

def outputAsDecimal (v : Nat) : BoundedString := outputDecimalDigits v 21 (raiseDecimalMask v 20 1)

theorem length_outputAsDecimal_le (v : Nat) : (outputAsDecimal v).length ≤ 8 ↔ v < 10 ^ 8 := by
  obtain ⟨digits, heq, -, hturns, hlt, hge⟩ := raiseDecimalMask_eq v 20 0
  rw [outputAsDecimal, show (1 : Nat) = 10 ^ 0 from rfl, heq, length_outputDecimalDigits v 21 digits (by omega)]
  constructor
  · intro hle
    calc v < 10 ^ (digits + 1) := hlt (by omega)
      _ ≤ 10 ^ 8 := Nat.pow_le_pow_right (by omega) hle
  · intro hv
    by_contra hdigits
    have : 10 ^ 8 ≤ 10 ^ digits := Nat.pow_le_pow_right (by omega) (by omega)
    have := hge (by omega)
    omega

theorem isDigit_outputDecimalDigits : ∀ v turns mask, ∀ c ∈ outputDecimalDigits v turns mask, isDigit c = true :=
  forall_outputDecimalDigits (by decide)

/-- Digits are not what the parser looks for. -/
theorem notMem_outputDecimalDigits {c : UInt8} (hc : ¬ isDigit c) (v turns mask : Nat) :
    c ∉ outputDecimalDigits v turns mask :=
  fun h => hc (isDigit_outputDecimalDigits v turns mask c h)

/-! ## The formatter -/

structure HttpRequestFormatter where
  verb : HttpVerb
  requestTarget : BoundedString
  content : BoundedString
  contentLengthHeader : Option HttpHeader
  hostHeader : HttpHeader
  headers : List HttpHeader

namespace HttpRequestFormatter

def sp : BoundedString := literal " "

def httpVersion : BoundedString := literal "HTTP/1.1"

/-- `AddContentLength`. There is room for eight digits, and the stream asserts that they fit. -/
def addContentLength (size : Nat) : Option HttpHeader :=
  if (outputAsDecimal size).length ≤ 8 then
    some { field := literal "content-length", value := outputAsDecimal size }
  else none

/-- The constructor, `none` when its assertion fails. -/
def create (verb : HttpVerb) (hostname requestTarget content : BoundedString) (headers : List HttpHeader) :
    Option HttpRequestFormatter :=
  let formatter (contentLengthHeader : Option HttpHeader) : HttpRequestFormatter :=
    { verb := verb, requestTarget := requestTarget, content := content
      contentLengthHeader := contentLengthHeader
      hostHeader := { field := literal "host", value := hostname }
      headers := headers }
  if content = [] then some (formatter none)
  else (addContentLength content.length).map fun header => formatter (some header)

def headersSize (f : HttpRequestFormatter) : Nat :=
  let headerSize := (f.headers.map fun header => header.size + crlf.length).sum
  let headerSize := headerSize + f.contentLengthHeader.elim 0 (fun header => header.size + crlf.length)
  headerSize + (f.hostHeader.size + crlf.length)

def size (f : HttpRequestFormatter) : Nat :=
  (httpVerbToString f.verb).length + f.requestTarget.length + httpVersion.length + f.headersSize +
    2 * crlf.length + 2 * sp.length + f.content.length

def write (f : HttpRequestFormatter) : BoundedString :=
  httpVerbToString f.verb ++ sp ++ f.requestTarget ++ sp ++ httpVersion ++ crlf ++
    f.headers.flatMap (fun header => header.text ++ crlf) ++
    (f.hostHeader.text ++ crlf) ++
    f.contentLengthHeader.elim [] (fun header => header.text ++ crlf) ++
    crlf ++ f.content

/-- The headers in the order in which they are written. -/
def writtenHeaders (f : HttpRequestFormatter) : List HttpHeader :=
  f.headers ++ f.hostHeader :: f.contentLengthHeader.toList

theorem flatMap_text (headers : List HttpHeader) (rest : BoundedString) :
    headers.flatMap (fun header => header.text ++ crlf) ++ rest = unlines (headers.map HttpHeader.text) rest := by
  induction headers with
  | nil => rfl
  | cons header headers ih => simp [← ih]

/-- The request line, the headers, a blank line and the content. -/
theorem write_eq (f : HttpRequestFormatter) : f.write = httpVerbToString f.verb ++ char ' ' ::
    unlines ((f.requestTarget ++ char ' ' :: httpVersion) :: f.writtenHeaders.map HttpHeader.text)
      (crlf ++ f.content) := by
  have hlast : f.contentLengthHeader.elim [] (fun header => header.text ++ crlf) =
      f.contentLengthHeader.toList.flatMap (fun header => header.text ++ crlf) := by
    cases f.contentLengthHeader <;> simp
  rw [write, hlast, unlines_cons, ← flatMap_text, writtenHeaders]
  simp [sp, literal]

theorem length_flatMap_text (headers : List HttpHeader) :
    (headers.flatMap (fun header => header.text ++ crlf)).length =
      (headers.map fun header => header.size + crlf.length).sum := by
  simp only [List.length_flatMap, List.length_append, HttpHeader.length_text]

/-- **`Write` writes as much as `Size` says.** -/
theorem length_write (f : HttpRequestFormatter) : f.write.length = f.size := by
  have hheaders := length_flatMap_text f.headers
  cases h : f.contentLengthHeader <;>
    simp only [write, size, headersSize, h, List.length_append, HttpHeader.length_text, hheaders, List.length_nil,
      Option.elim] <;>
    omega

end HttpRequestFormatter

open HttpRequestFormatter

/-! ## Lines -/

/-- The lines of a text. -/
def splitLines : BoundedString → List BoundedString
  | [] => [[]]
  | [c] => [[c]]
  | c :: c' :: text =>
      if c = cr ∧ c' = lf then [] :: splitLines text else (splitLines (c' :: text)).modifyHead (c :: ·)

theorem splitLines_eq (text : BoundedString) : ∃ first lines, splitLines text = first :: lines ∧ first <+: text ∧
    OneLine first ∧ (∀ l ∈ lines, OneLine l) ∧ ∀ rest, unlines (first :: lines) rest = text ++ (crlf ++ rest) := by
  fun_induction splitLines text with
  | case1 => exact ⟨[], [], rfl, List.prefix_rfl, by decide, by simp, fun _ => rfl⟩
  | case2 c =>
      refine ⟨[c], [], rfl, List.prefix_rfl, fun hin => ?_, by simp, fun _ => rfl⟩
      have hlength := hin.length_le
      simp [crlf] at hlength
  | case3 c c' text hbreak ih =>
      obtain ⟨first, lines, hsplit, -, hfirst, hlines, htext⟩ := ih
      obtain ⟨rfl, rfl⟩ := hbreak
      refine ⟨[], first :: lines, by rw [hsplit], List.nil_prefix, by decide, List.forall_mem_cons.mpr ⟨hfirst, hlines⟩, ?_⟩
      intro rest
      rw [unlines_cons, htext]
      rfl
  | case4 c c' text hbreak ih =>
      obtain ⟨first, lines, hsplit, hprefix, hfirst, hlines, htext⟩ := ih
      refine ⟨c :: first, lines, by rw [hsplit]; rfl, List.cons_prefix_cons.mpr ⟨rfl, hprefix⟩, ?_, hlines, ?_⟩
      · intro hin
        rcases List.infix_cons_iff.mp hin with hhere | hthere
        · obtain ⟨hc, hlf⟩ := List.cons_prefix_cons.mp hhere
          exact hbreak ⟨hc.symm, (List.cons_prefix_cons.mp (hlf.trans hprefix)).1.symm⟩
        · exact hfirst hthere
      · intro rest
        have hrest := htext rest
        rw [unlines_cons] at hrest ⊢
        rw [List.cons_append, hrest]
        rfl

theorem oneLine_of_mem_splitLines {text l : BoundedString} (hl : l ∈ splitLines text) : OneLine l := by
  obtain ⟨first, lines, hsplit, -, hfirst, hlines, -⟩ := splitLines_eq text
  rw [hsplit] at hl
  exact List.forall_mem_cons.mpr ⟨hfirst, hlines⟩ l hl

theorem splitLines_of_oneLine {text : BoundedString} (h : OneLine text) : splitLines text = [text] := by
  fun_induction splitLines text with
  | case1 => rfl
  | case2 c => rfl
  | case3 c c' text hbreak ih =>
      obtain ⟨rfl, rfl⟩ := hbreak
      exact absurd (List.prefix_append crlf text).isInfix h
  | case4 c c' text hbreak ih =>
      rw [ih fun hin => h (hin.trans (List.suffix_cons _ _).isInfix)]
      rfl

theorem unlines_appendLines (front back : List BoundedString) (rest : BoundedString) :
    unlines (front ++ back) rest = unlines front (unlines back rest) := List.foldr_append ..

/-- The lines of all texts. -/
theorem unlines_splitLines (headers : List HttpHeader) (rest : BoundedString) :
    unlines (headers.flatMap (splitLines ·.text)) rest = unlines (headers.map HttpHeader.text) rest := by
  induction headers with
  | nil => rfl
  | cons header headers ih =>
      obtain ⟨first, lines, hsplit, -, -, -, htext⟩ := splitLines_eq header.text
      rw [List.flatMap_cons, unlines_appendLines, ih, hsplit, htext]
      rfl

/-! ## Requests -/

/-- What a client asks for. The target has no space, the fields of the headers are not empty and have no
colon, and the values, the hostname among them, have no carriage return and no line feed. -/
structure Request where
  verb : HttpVerb
  hostname : BoundedString
  requestTarget : BoundedString
  headers : List HttpHeader
  content : BoundedString
  space_notMem : char ' ' ∉ requestTarget
  field_ne_nil : ∀ h ∈ headers, h.field ≠ []
  colon_notMem : ∀ h ∈ headers, char ':' ∉ h.field
  value_cr : ∀ h ∈ headers, cr ∉ h.value
  value_lf : ∀ h ∈ headers, lf ∉ h.value
  hostname_cr : cr ∉ hostname
  hostname_lf : lf ∉ hostname

namespace Request

def formatter (r : Request) : Option HttpRequestFormatter :=
  create r.verb r.hostname r.requestTarget r.content r.headers

/-- The parser reads from the text what has been written. The value of a header is that of the first
header of its name. -/
structure ReadBack (r : Request) (f : HttpRequestFormatter) : Prop where
  size : f.write.length = f.size
  complete : (parse f.write).complete = true
  valid : (parse f.write).valid = true
  verb : (parse f.write).verb = some r.verb
  path : (parse f.write).path = r.requestTarget
  header : ∀ name header, f.writtenHeaders.find? (·.field == name) = some header →
    (parse f.write).header name = trimLeft header.value
  body : (parse f.write).body = r.content

/-- A text that lacks part of the content is not taken for the whole request. -/
def Awaited (r : Request) (f : HttpRequestFormatter) : Prop :=
  ∀ sent, sent <+: f.write → sent ≠ f.write → r.content ≠ [] → (parse sent).complete = false

/-- The request is written, read back, and waited for. -/
def Understood (r : Request) : Prop := ∃ f, r.formatter = some f ∧ r.ReadBack f ∧ r.Awaited f

/-- The headers in the order in which they are written. -/
def written (r : Request) : List HttpHeader :=
  r.headers ++ { field := literal "host", value := r.hostname } ::
    if r.content = [] then [] else [{ field := literal "content-length", value := outputAsDecimal r.content.length }]

/-- The lines between the first one and the blank line: what follows a line break in the target, and the headers, which
are more lines than one where there are line breaks in their fields. -/
def lines (r : Request) : List BoundedString :=
  (splitLines (r.requestTarget ++ char ' ' :: httpVersion)).tail ++
    r.written.flatMap (splitLines ·.text)

/-- The first of the lines that has the name. -/
def firstLine (r : Request) (name : BoundedString) : Option BoundedString :=
  r.lines.find? (token (char ':') 0 · == name)

/-- What the parser needs. The digits of the size fit in the formatter, there is a target, no line is blank, and the
first line that announces a size announces that of the content. Of each header that is the first of its name, the value
does not start with a colon, if the line of the header comes first, or is the value of the line that does; and it is
blank if there is a line break in the name, which is never found. -/
structure Readable (r : Request) : Prop where
  size : r.content.length < 10 ^ 8
  target : r.requestTarget ≠ []
  blank : [] ∉ r.lines
  announced : ((announcedIn r.lines).getD 0).toNat = r.content.length
  own : ∀ name header, r.written.find? (·.field == name) = some header → r.firstLine name = some header.text →
    header.value.head? ≠ some (char ':')
  other : ∀ name header line, r.written.find? (·.field == name) = some header → r.firstLine name = some line →
    line ≠ header.text → trimLeft (tokenAndRest (char ':') 1 line) = trimLeft header.value
  broken : ∀ name header, r.written.find? (·.field == name) = some header → ¬ OneLine name →
    trimLeft header.value = []

/-! ## The lines of a request -/

variable {r : Request} {f : HttpRequestFormatter} {name line : BoundedString} {header : HttpHeader}

theorem lines_oneLine : ∀ l ∈ r.lines, OneLine l := by
  intro l hl
  rcases List.mem_append.mp hl with hl | hl
  · exact oneLine_of_mem_splitLines (List.mem_of_mem_tail hl)
  · obtain ⟨header, -, hl⟩ := List.mem_flatMap.mp hl
    exact oneLine_of_mem_splitLines hl

/-- The fields are not empty and have no colon, and the values have no line break. -/
theorem written_formed (hmem : header ∈ r.written) :
    header.field ≠ [] ∧ char ':' ∉ header.field ∧ OneLine header.value := by
  rcases List.mem_append.mp hmem with hmem | hmem
  · exact ⟨r.field_ne_nil header hmem, r.colon_notMem header hmem, oneLine_of_notMem (r.value_cr header hmem)⟩
  · rcases List.mem_cons.mp hmem with rfl | hmem
    · exact ⟨show literal "host" ≠ [] by decide, show char ':' ∉ literal "host" by decide, oneLine_of_notMem r.hostname_cr⟩
    · split_ifs at hmem
      · cases hmem
      · cases List.mem_singleton.mp hmem
        exact ⟨show literal "content-length" ≠ [] by decide, show char ':' ∉ literal "content-length" by decide,
          oneLine_of_notMem (notMem_outputDecimalDigits (by decide) _ _ _)⟩

/-- A header without line break in its field has a line with its name. -/
theorem exists_firstLine (hfind : r.written.find? (·.field == name) = some header) (hname : OneLine name) :
    ∃ line, r.firstLine name = some line := by
  obtain rfl : header.field = name := by simpa using List.find?_some hfind
  have hmem := List.mem_of_find?_eq_some hfind
  obtain ⟨hne, hcolon, hvalue⟩ := written_formed hmem
  have htext : OneLine header.text := (oneLine_append (by decide) (by decide)).mpr ⟨hname, hvalue⟩
  rw [← Option.isSome_iff_exists, firstLine, List.find?_isSome]
  refine ⟨header.text, List.mem_append_right _ (List.mem_flatMap.mpr ⟨header, hmem, ?_⟩), ?_⟩
  · rw [splitLines_of_oneLine htext]
    exact List.mem_singleton_self _
  · rw [HttpHeader.text, token_zero hne hcolon]
    exact beq_self_eq_true _

/-- The value of its own line is that of the header, unless it starts with a colon. -/
theorem value_of_text (hmem : header ∈ r.written) :
    trimLeft (tokenAndRest (char ':') 1 header.text) = trimLeft header.value ↔
      header.value.head? ≠ some (char ':') := by
  obtain ⟨hne, hnot, -⟩ := written_formed hmem
  rw [HttpHeader.text, tokenAndRest_one hne hnot]
  constructor
  · intro heq hcolon
    -- What is read is shorter than the value, which has no space in front.
    have hspace : trimLeft header.value = header.value := by
      apply trimLeft_of_head
      rw [hcolon]
      decide
    have hshort : (skipConsecutiveSeparators (char ':') header.value).length < header.value.length := by
      obtain ⟨rest, hrest⟩ := List.head?_eq_some_iff.mp hcolon
      rw [hrest, skipConsecutiveSeparators, List.dropWhile_cons_of_pos (by simp), List.length_cons]
      exact Nat.lt_succ_of_le (List.dropWhile_sublist _).length_le
    have := length_trimLeft_le (skipConsecutiveSeparators (char ':') header.value)
    rw [heq, hspace] at this
    omega
  · intro hcolon
    rw [skipConsecutiveSeparators_of_head hcolon]

/-! ## What the formatter holds -/

/-- The members of the formatter. -/
structure Holds (r : Request) (f : HttpRequestFormatter) : Prop where
  verb : f.verb = r.verb
  requestTarget : f.requestTarget = r.requestTarget
  content : f.content = r.content
  writtenHeaders : f.writtenHeaders = r.written
  size : r.content.length < 10 ^ 8

theorem holds_of_formatter (h : r.formatter = some f) : r.Holds f := by
  unfold formatter create at h
  by_cases hcontent : r.content = []
  · simp only [hcontent, if_true, Option.some.injEq] at h
    subst h
    exact ⟨rfl, rfl, hcontent.symm, by simp [writtenHeaders, written, hcontent], by simp [hcontent]⟩
  · simp only [hcontent, if_false, addContentLength] at h
    split at h
    · rename_i hfits
      simp only [Option.map_some, Option.some.injEq] at h
      subst h
      exact ⟨rfl, rfl, rfl, by simp [writtenHeaders, written, hcontent],
        (length_outputAsDecimal_le _).mp hfits⟩
    · simp at h

theorem formatter_of_size (h : r.content.length < 10 ^ 8) : ∃ f, r.formatter = some f := by
  unfold formatter create addContentLength
  rw [if_pos ((length_outputAsDecimal_le _).mpr h)]
  by_cases hcontent : r.content = []
  · rw [if_pos hcontent]
    exact ⟨_, rfl⟩
  · rw [if_neg hcontent]
    exact ⟨_, rfl⟩

namespace Holds

section

variable (h : r.Holds f)
include h

/-- The text, taken as lines. -/
theorem exists_line :
    ∃ first, OneLine first ∧ f.write = unlines (first :: r.lines) (crlf ++ r.content) := by
  obtain ⟨first, further, hsplit, -, hfirst, -, htext⟩ :=
    splitLines_eq (r.requestTarget ++ char ' ' :: httpVersion)
  refine ⟨httpVerbToString r.verb ++ char ' ' :: first, ?_, ?_⟩
  · rw [oneLine_append (by decide) (by decide)]
    refine ⟨?_, hfirst⟩
    cases r.verb <;> decide
  · rw [f.write_eq, h.verb, h.requestTarget, h.writtenHeaders, h.content, unlines_cons, ← unlines_splitLines, lines, hsplit,
      List.tail_cons, unlines_cons, unlines_appendLines, ← htext, unlines_cons, List.append_assoc, List.cons_append]

theorem exists_head (hblank : [] ∉ r.lines) :
    ∃ head : RequestHead, head.lines = r.lines ∧ f.write = head.request r.content := by
  obtain ⟨first, hfirst, hwrite⟩ := h.exists_line
  refine ⟨{ line := first, lines := r.lines, line_oneLine := hfirst, formed := ?_ }, rfl, ?_⟩
  · rintro l hl
    refine ⟨lines_oneLine l hl, ?_⟩
    rintro rfl
    exact hblank hl
  · rw [request_eq, hwrite]

/-- Behind a blank line everything is body. -/
theorem blank_of_body (hbody : (parse f.write).body = r.content) : [] ∉ r.lines := by
  intro hblank
  obtain ⟨front, back, hlines, hfront⟩ := List.eq_append_cons_of_mem hblank
  obtain ⟨first, hfirst, hwrite⟩ := h.exists_line
  have hformed : ∀ l ∈ front, OneLine l ∧ l ≠ [] := by
    rintro l hl
    refine ⟨lines_oneLine l (hlines ▸ List.mem_append_left _ hl), ?_⟩
    rintro rfl
    exact hfront hl
  have hrequest : f.write = RequestHead.request
      { line := first, lines := front, line_oneLine := hfirst, formed := hformed } (unlines back (crlf ++ r.content)) := by
    rw [request_eq, hwrite, hlines, unlines_cons, unlines_cons, unlines_appendLines, unlines_cons,
      List.nil_append]
  rw [hrequest, parse_body_lines, ← List.nil_append (crlf ++ r.content), ← unlines_append] at hbody
  have hlength := congrArg List.length hbody
  simp only [List.length_append, crlf, List.length_cons, List.length_nil] at hlength
  omega

/-- The verb, the target and the version in front of everything else. -/
theorem write_eq_tokens : ∃ rest, f.write =
    httpVerbToString r.verb ++ char ' ' :: (r.requestTarget ++ char ' ' :: (httpVersion ++ rest)) := by
  rw [f.write_eq, unlines_cons, h.verb, h.requestTarget, List.append_assoc, List.cons_append]
  exact ⟨_, rfl⟩

theorem verb_eq : (parse f.write).verb = some r.verb := by
  obtain ⟨rest, hrest⟩ := h.write_eq_tokens
  rw [parse_verb, hrest, token_zero (verb_ne_nil _) (space_notMem_verb _),
    httpVerbFromString_toString]

theorem valid_eq : (parse f.write).valid = true := by
  rw [parse_valid, h.verb_eq]
  rfl

/-- The path is read back, except when there is none. -/
theorem path_eq_iff : (parse f.write).path = r.requestTarget ↔ r.requestTarget ≠ [] := by
  obtain ⟨rest, hrest⟩ := h.write_eq_tokens
  rw [parse_path, hrest, token_one (verb_ne_nil _) (space_notMem_verb _)]
  constructor
  · intro htoken hempty
    rw [hempty] at htoken
    simp [makeToken, skipConsecutiveSeparators, httpVersion, literal,
      char] at htoken
  · intro hne
    rw [skipConsecutiveSeparators_of_head (head?_append_of_ne_nil hne r.space_notMem),
      makeToken_append r.space_notMem]

/-- A request whose text is complete and waited for announces the size of its content. -/
theorem announced_of_awaited (hblank : [] ∉ r.lines)
    (hcomplete : (parse f.write).complete = true) (hawaited : r.Awaited f) :
    ((announcedIn r.lines).getD 0).toNat = r.content.length := by
  obtain ⟨head, hlines, hwrite⟩ := h.exists_head hblank
  rw [← hlines]
  -- A part of the content is not enough.
  have hpart : ∀ part, part <+: r.content → part ≠ r.content →
      (parse (head.request part)).complete = false := by
    rintro part hpre hne
    refine hawaited _ (hwrite ▸ (List.prefix_append_right_inj _).mpr hpre) ?_ ?_
    · rw [hwrite]
      exact fun heq => hne (List.append_cancel_left heq)
    · rintro hempty
      rw [hempty, List.prefix_nil] at hpre
      exact hne (hpre.trans hempty.symm)
  cases hannounced : announcedIn head.lines with
  | none =>
      by_contra hne
      have hempty := hpart [] List.nil_prefix fun hnil => hne (by rw [← hnil]; rfl)
      rw [complete_of_not_announced head hannounced] at hempty
      cases hempty
  | some size =>
      rw [hwrite, complete_of_announced head _ hannounced] at hcomplete
      refine le_antisymm hcomplete ?_
      by_contra hlt
      rw [Option.getD_some, not_le] at hlt
      have hlast := hpart r.content.dropLast (List.dropLast_prefix _) fun heq => by
        have := congrArg List.length heq
        simp only [List.length_dropLast] at this
        omega
      rw [Bool.eq_false_iff, ne_eq, complete_of_announced head _ hannounced,
        List.length_dropLast] at hlast
      omega

/-- The value that the parser finds on a line. -/
theorem header_eq (hblank : [] ∉ r.lines) (hline : r.firstLine name = some line) :
    (parse f.write).header name = trimLeft (tokenAndRest (char ':') 1 line) := by
  obtain ⟨head, hlines, hwrite⟩ := h.exists_head hblank
  rw [hwrite]
  exact header_of_find head _ (hlines ▸ hline)

end

end Holds

/-- **A request is understood exactly when it is readable.** -/
theorem understood_iff_readable (r : Request) : r.Understood ↔ r.Readable := by
  constructor
  · rintro ⟨f, hf, hread, hawaited⟩
    have h := holds_of_formatter hf
    have hblank := h.blank_of_body hread.body
    have hvalue {name : BoundedString} {header : HttpHeader}
        (hfind : r.written.find? (·.field == name) = some header) :
        (parse f.write).header name = trimLeft header.value :=
      hread.header name header (h.writtenHeaders ▸ hfind)
    refine ⟨h.size, h.path_eq_iff.mp hread.path, hblank, h.announced_of_awaited hblank hread.complete hawaited, ?_, ?_, ?_⟩
    · intro name header hfind hline
      rw [← value_of_text (List.mem_of_find?_eq_some hfind), ← h.header_eq hblank hline, hvalue hfind]
    · intro name header line hfind hline _
      rw [← h.header_eq hblank hline, hvalue hfind]
    · intro name header hfind hname
      rw [← hvalue hfind, HttpRequestParser.header, HttpRequestParser.headerIn_of_not_oneLine hname]
  · intro hreadable
    obtain ⟨f, hf⟩ := formatter_of_size hreadable.size
    have h := holds_of_formatter hf
    obtain ⟨head, hlines, hwrite⟩ := h.exists_head hreadable.blank
    have hsize := hreadable.announced
    rw [← hlines] at hsize
    refine ⟨f, hf, ⟨f.length_write, ?_, h.valid_eq, h.verb_eq, h.path_eq_iff.mpr hreadable.target, ?_, ?_⟩, ?_⟩
    · rw [hwrite]
      exact complete_request hsize
    · intro name header hfind
      rw [h.writtenHeaders] at hfind
      by_cases hname : OneLine name
      · obtain ⟨line, hline⟩ := exists_firstLine hfind hname
        rw [h.header_eq hreadable.blank hline]
        by_cases hown : line = header.text
        · rw [hown] at hline ⊢
          exact (value_of_text (List.mem_of_find?_eq_some hfind)).mpr (hreadable.own name header hfind hline)
        · exact hreadable.other name header line hfind hline hown
      · rw [HttpRequestParser.header, HttpRequestParser.headerIn_of_not_oneLine hname, hreadable.broken name header hfind hname]
    · rw [hwrite, parse_body_lines]
    · intro sent hsent hne _
      rw [hwrite] at hsent hne
      exact not_complete_of_part hsize hsent hne

/-- A request with one character of content, whose size the caller does not announce. -/
def postOne : Request where
  verb := .post
  hostname := literal "h"
  requestTarget := literal "/"
  headers := []
  content := literal "x"
  space_notMem := by decide
  field_ne_nil := by decide
  colon_notMem := by decide
  value_cr := by decide
  value_lf := by decide
  hostname_cr := by decide
  hostname_lf := by decide

/-- It is complete for the parser before its content has arrived. -/
theorem not_understood_postOne : ¬ postOne.Understood := by
  rintro ⟨f, hf, hread, hawaited⟩
  have hsize := (holds_of_formatter hf).announced_of_awaited (by decide) hread.complete hawaited
  exact absurd hsize (by decide)

end Request

end EmbeddedInfra.Http
