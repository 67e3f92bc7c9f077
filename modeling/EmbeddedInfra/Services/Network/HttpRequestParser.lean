import EmbeddedInfra.Infra.Util.Tokenizer

set_option autoImplicit false

/-! # The parser of HTTP requests

`services::HttpRequestParserImpl` takes a request apart: a request line, header lines, a blank line and
the body. How the parser looks for line breaks is described by `find_line`; a text that consists of lines
is written `unlines`.
-/

namespace EmbeddedInfra.Http

open PatternSearch Tokenizer

inductive HttpVerb
  | get
  | head
  | connect
  | options
  | patch
  | put
  | post
  | delete
  deriving DecidableEq, Repr

def httpVerbToString : HttpVerb → BoundedString
  | .get => literal "GET"
  | .head => literal "HEAD"
  | .connect => literal "CONNECT"
  | .options => literal "OPTIONS"
  | .patch => literal "PATCH"
  | .put => literal "PUT"
  | .post => literal "POST"
  | .delete => literal "DELETE"

def httpVerbFromString (verb : BoundedString) : Option HttpVerb :=
  if verb = literal "GET" then some .get
  else if verb = literal "HEAD" then some .head
  else if verb = literal "CONNECT" then some .connect
  else if verb = literal "OPTIONS" then some .options
  else if verb = literal "PATCH" then some .patch
  else if verb = literal "PUT" then some .put
  else if verb = literal "POST" then some .post
  else if verb = literal "DELETE" then some .delete
  else none

theorem httpVerbFromString_toString (verb : HttpVerb) : httpVerbFromString (httpVerbToString verb) = some verb := by
  cases verb <;> decide

theorem cr_notMem_of_verb {text : BoundedString} {verb : HttpVerb} (h : httpVerbFromString text = some verb) :
    0x0d ∉ text := by
  unfold httpVerbFromString at h
  split_ifs at h with h1 h2 h3 h4 h5 h6 h7 h8 <;> simp only [*] <;> decide

theorem space_notMem_verb (verb : HttpVerb) : char ' ' ∉ httpVerbToString verb := by
  cases verb <;> decide

theorem verb_ne_nil (verb : HttpVerb) : httpVerbToString verb ≠ [] := by
  cases verb <;> decide

structure HttpHeader where
  field : BoundedString
  value : BoundedString
  deriving DecidableEq, Repr

/-- What is written for a header. -/
def HttpHeader.text (header : HttpHeader) : BoundedString := header.field ++ char ':' :: header.value

def HttpHeader.size (header : HttpHeader) : Nat := header.field.length + header.value.length + 1

theorem HttpHeader.length_text (header : HttpHeader) : header.text.length = header.size := by
  simp only [text, size, List.length_append, List.length_cons]
  omega

/-! ## The parser -/

def cr : UInt8 := 0x0d

def lf : UInt8 := 0x0a

def crlf : BoundedString := [cr, lf]

def isDigit (c : UInt8) : Bool := char '0' ≤ c && c ≤ char '9'

/-- `operator>>` for an `uint32_t`: the digits after the leading spaces. -/
def readAsDecimal (s : BoundedString) : UInt32 :=
  ((trimLeft s).takeWhile isDigit).foldl (fun v c => v * 10 + (c - char '0').toUInt32) 0

/-- The verb of a request that is not valid is not initialised. -/
structure HttpRequestParser where
  headers : BoundedString
  body : BoundedString
  verb : Option HttpVerb
  path : BoundedString
  complete : Bool
  valid : Bool

namespace HttpRequestParser

def contentLengthTag : BoundedString := crlf ++ literal "Content-Length:"

/-- `data.substr(contentLengthStart, contentLengthEnd - contentLengthStart)` in the text from
`contentLengthStart` on. -/
def upToLineBreak (position : BoundedString) : BoundedString :=
  match find crlf position with
  | some n => position.take n
  | none => position

/-- The size that the data announces, if it does. -/
def announcedSize (data : BoundedString) : Option UInt32 :=
  (find contentLengthTag data).map fun contentLengthHeaderStart =>
    readAsDecimal (upToLineBreak (data.drop (contentLengthHeaderStart + contentLengthTag.length)))

/-- `CheckContentsLength`, which leaves `complete` as it is or makes it false. -/
def checkContentsLength (data body : BoundedString) (complete : Bool) : Bool :=
  match announcedSize data with
  | some size => complete && !(decide (body.length < size.toNat))
  | none => complete

/-- The constructor. -/
def parse (data : BoundedString) : HttpRequestParser :=
  let verb := httpVerbFromString (token (char ' ') 0 data)
  let path := token (char ' ') 1 data
  match find (crlf ++ crlf) data with
  | none =>
      { headers := [], body := [], verb := verb, path := path, valid := verb.isSome
        complete := checkContentsLength data [] false }
  | some bodyStart =>
      let headers :=
        match find crlf data with
        | some headersStart =>
            if headersStart ≠ bodyStart then BoundedString.substr data (headersStart + 2) bodyStart else []
        | none => []
      let body := data.drop (bodyStart + 4)
      { headers := headers, body := body, verb := verb, path := path, valid := verb.isSome
        complete := checkContentsLength data body true }

theorem lt_of_find_crlf {headersTail : BoundedString} {n : Nat} (h : find crlf headersTail = some n) :
    (headersTail.drop (n + 2)).length < headersTail.length := by
  obtain ⟨rest, hrest, hle⟩ := find_eq_some h
  have := congrArg List.length hrest
  simp only [List.length_append, List.length_take, crlf, List.length_cons, List.length_nil] at this
  rw [List.length_drop]
  omega

/-- The loop of `Header`. -/
def headerIn (name headersTail : BoundedString) : BoundedString :=
  if headersTail = [] then []
  else
    let line := upToLineBreak headersTail
    if token (char ':') 0 line = name then trimLeft (tokenAndRest (char ':') 1 line)
    else
      match h : find crlf headersTail with
      | none => []
      | some nextHeaderStart => headerIn name (headersTail.drop (nextHeaderStart + 2))
termination_by headersTail.length
decreasing_by exact lt_of_find_crlf h

def header (p : HttpRequestParser) (name : BoundedString) : BoundedString := headerIn name p.headers

end HttpRequestParser

open HttpRequestParser

/-! ## Lines -/

/-- The line has no line break. -/
def OneLine (s : BoundedString) : Prop := ¬ crlf <:+: s

instance (s : BoundedString) : Decidable (OneLine s) := inferInstanceAs (Decidable (¬ crlf <:+: s))

/-- Lines, each with its line break, and what follows them. -/
def unlines (lines : List BoundedString) (rest : BoundedString) : BoundedString :=
  lines.foldr (fun line rest => line ++ (crlf ++ rest)) rest

@[simp] theorem unlines_nil (rest : BoundedString) : unlines [] rest = rest := rfl

@[simp] theorem unlines_cons (line : BoundedString) (lines : List BoundedString) (rest : BoundedString) :
    unlines (line :: lines) rest = line ++ (crlf ++ unlines lines rest) := rfl

theorem unlines_append (lines : List BoundedString) (first second : BoundedString) :
    unlines lines first ++ second = unlines lines (first ++ second) := by
  induction lines with
  | nil => rfl
  | cons line lines ih => simp [ih]

theorem oneLine_of_notMem {s : BoundedString} (h : cr ∉ s) : OneLine s := by
  intro hin
  exact h (hin.subset (by simp [crlf]))

/-- A line break does not reach over another character. -/
theorem oneLine_append {first second : BoundedString} {c : UInt8} (hcr : c ≠ cr) (hlf : c ≠ lf) :
    OneLine (first ++ c :: second) ↔ OneLine first ∧ OneLine second := by
  simp only [OneLine, ← not_or]
  apply not_congr
  induction first with
  | nil =>
      simp only [List.nil_append, List.infix_cons_iff, crlf, List.cons_prefix_cons, List.infix_nil]
      simp [hcr.symm]
  | cons a first ih =>
      rw [List.cons_append, List.infix_cons_iff, ih, List.infix_cons_iff]
      have hstart : crlf <+: a :: (first ++ c :: second) ↔ crlf <+: a :: first := by
        cases first with
        | nil => simp [crlf, List.cons_prefix_cons, hlf.symm]
        | cons b first => simp [crlf, List.cons_prefix_cons]
      rw [hstart, or_assoc]

section Line

variable {line rest more : BoundedString}

/-- A pattern that starts with a line break is not found inside a line. -/
theorem find_line (h : OneLine line) : find (crlf ++ more) (line ++ (crlf ++ rest)) =
    if more <+: rest then some line.length else (find (crlf ++ more) rest).map (· + (line.length + 2)) := by
  have hskip : ∀ front back, line = front ++ back → back ≠ [] → ¬ crlf ++ more <+: back ++ (crlf ++ rest) := by
    intro front back hsplit hback hpre
    have hbreak : crlf <+: back ++ (crlf ++ rest) := (List.prefix_append _ _).trans hpre
    rcases back with _ | ⟨a, _ | ⟨b, back⟩⟩
    · exact hback rfl
    · simp [crlf, List.cons_prefix_cons, cr, lf] at hbreak
    · have hpre : crlf <+: a :: b :: back := by simpa [crlf, List.cons_prefix_cons] using hbreak
      exact h (hsplit ▸ hpre.isInfix.trans (List.suffix_append _ _).isInfix)
  rw [find_skip hskip]
  by_cases hmore : more <+: rest
  · have hpre : crlf ++ more <+: crlf ++ rest := (List.prefix_append_right_inj crlf).mpr hmore
    rw [find_of_starts hpre, if_pos hmore]
    simp
  · have hfirst : ¬ crlf ++ more <+: cr :: lf :: rest := fun hpre =>
      hmore ((List.prefix_append_right_inj crlf).mp hpre)
    have hsecond : ¬ crlf ++ more <+: lf :: rest := by
      simp [crlf, List.cons_prefix_cons, cr, lf]
    rw [show crlf ++ rest = cr :: lf :: rest from rfl, find_cons hfirst, find_cons hsecond, if_neg hmore,
      Option.map_map, Option.map_map]
    congr 1
    funext n
    simp only [Function.comp_apply]
    omega

theorem find_crlf_line (h : OneLine line) : find crlf (line ++ (crlf ++ rest)) = some line.length := by
  have := @find_line line rest [] h
  simpa using this

theorem upToLineBreak_line (h : OneLine line) : upToLineBreak (line ++ (crlf ++ rest)) = line := by
  simp [upToLineBreak, find_crlf_line h]

/-- The blank line is found after lines that are not blank. -/
theorem find_blankLine {lines : List BoundedString} (h : OneLine line)
    (hlines : ∀ l ∈ lines, OneLine l ∧ l ≠ []) :
    find (crlf ++ crlf) (unlines (line :: lines) (crlf ++ rest)) =
      some (line.length + (unlines lines []).length) := by
  induction lines generalizing line with
  | nil => simp [find_line h]
  | cons next lines ih =>
      have hnext := hlines next List.mem_cons_self
      have hnot : ¬ crlf <+: unlines (next :: lines) (crlf ++ rest) := by
        intro hpre
        have := find_of_starts hpre
        rw [unlines_cons, find_crlf_line hnext.1] at this
        simp only [Option.some.injEq, List.length_eq_zero_iff] at this
        exact hnext.2 this
      rw [unlines_cons, find_line h, if_neg hnot, ih hnext.1 fun l hl => hlines l (List.mem_cons_of_mem _ hl)]
      simp only [Option.map_some, Option.some.injEq, unlines_cons, List.length_append, crlf, List.length_cons,
        List.length_nil]
      omega

end Line

/-! ## Header lines -/

/-- Headers of which a line can be made: the field is not empty and has no colon, and there are no line
breaks. -/
structure HttpHeader.Formed (header : HttpHeader) : Prop where
  field_ne_nil : header.field ≠ []
  colon_notMem : char ':' ∉ header.field
  field_oneLine : OneLine header.field
  value_oneLine : OneLine header.value

theorem HttpHeader.Formed.text_oneLine {header : HttpHeader} (h : header.Formed) : OneLine header.text :=
  (oneLine_append (by decide) (by decide)).mpr ⟨h.field_oneLine, h.value_oneLine⟩

theorem HttpHeader.text_ne_nil (header : HttpHeader) : header.text ≠ [] := by
  simp [text]

namespace HttpRequestParser

variable {line rest name content : BoundedString} {header : HttpHeader} {headers : List HttpHeader}

/-- The name of the header that announces the size. -/
def contentLengthName : BoundedString := literal "Content-Length"

/-- The size that the first header of that name announces. -/
def announced (headers : List HttpHeader) : Option UInt32 :=
  (headers.find? (·.field == contentLengthName)).map fun h => readAsDecimal h.value

theorem contentLengthTag_eq : contentLengthTag = crlf ++ (contentLengthName ++ [char ':']) := by
  decide

/-- Names in front of a colon are the same. -/
theorem prefix_colon_iff {first second : BoundedString} (hfirst : char ':' ∉ first) (hsecond : char ':' ∉ second) :
    first ++ [char ':'] <+: second ++ char ':' :: rest ↔ first = second := by
  constructor
  · intro hpre
    have hcut : makeToken (char ':') (second ++ char ':' :: rest) = first := by
      obtain ⟨tail, htail⟩ := hpre
      rw [← htail, List.append_assoc]
      exact makeToken_append hfirst
    rw [← hcut, makeToken_append hsecond]
  · rintro rfl
    exact ⟨rest, by simp⟩

theorem drop_line (n : Nat) : (line ++ (crlf ++ rest)).drop (line.length + (2 + n)) = rest.drop n := by
  rw [← List.drop_drop, List.drop_left, ← List.drop_drop]
  rfl

/-- One line of the search for the announced size. -/
theorem announcedSize_line (h : OneLine line) : announcedSize (line ++ (crlf ++ rest)) =
    if contentLengthName ++ [char ':'] <+: rest then
      some (readAsDecimal (upToLineBreak (rest.drop (contentLengthName ++ [char ':']).length)))
    else announcedSize rest := by
  unfold announcedSize
  rw [contentLengthTag_eq, find_line h]
  split
  · have hlen : (crlf ++ (contentLengthName ++ [char ':'])).length =
        2 + (contentLengthName ++ [char ':']).length := List.length_append
    rw [Option.map_some, hlen, drop_line]
  · rw [Option.map_map]
    congr 1
    funext n
    simp only [Function.comp_apply]
    rw [show n + (line.length + 2) + (crlf ++ (contentLengthName ++ [char ':'])).length =
      line.length + (2 + (n + (crlf ++ (contentLengthName ++ [char ':'])).length)) by omega, drop_line]

/-- The start of a line that announces the size. -/
def contentLengthStart : BoundedString := contentLengthName ++ [char ':']

/-- The size that the first of the lines announces that starts so. -/
def announcedIn (lines : List BoundedString) : Option UInt32 :=
  (lines.find? (contentLengthStart.isPrefixOf ·)).map fun l => readAsDecimal (l.drop contentLengthStart.length)

/-- What starts a line is part of it. -/
theorem prefix_line_iff {pat line rest : BoundedString} (hcr : cr ∉ pat) : pat <+: line ++ (crlf ++ rest) ↔ pat <+: line := by
  constructor
  · intro hpre
    rcases Nat.le_total pat.length line.length with hle | hle
    · exact List.prefix_of_prefix_length_le hpre (List.prefix_append _ _) hle
    · obtain ⟨more, rfl⟩ := List.prefix_of_prefix_length_le (List.prefix_append _ _) hpre hle
      have hmore := (List.prefix_append_right_inj line).mp hpre
      cases more with
      | nil => rw [List.append_nil]
      | cons c more =>
          have hc : c = cr := (List.cons_prefix_cons.mp hmore).1
          exact absurd (List.mem_append_right line (hc ▸ List.mem_cons_self)) hcr
  · intro hpre
    exact hpre.trans (List.prefix_append _ _)

theorem announcedSize_lines {lines : List BoundedString} (hline : OneLine line)
    (hlines : ∀ l ∈ lines, OneLine l) :
    announcedSize (unlines (line :: lines) (crlf ++ content)) =
      (announcedIn lines).or (announcedSize (crlf ++ content)) := by
  unfold announcedIn
  induction lines generalizing line with
  | nil =>
      have hnot : ¬ contentLengthName ++ [char ':'] <+: crlf ++ content := by
        simp [contentLengthName, literal, crlf, List.cons_prefix_cons, char, cr]
      simp [announcedSize_line hline, hnot]
  | cons l lines ih =>
      obtain ⟨hl, hrest⟩ := List.forall_mem_cons.mp hlines
      have hpre := @prefix_line_iff contentLengthStart l (unlines lines (crlf ++ content)) (by decide)
      have hfind : (contentLengthStart.isPrefixOf l = true) ↔ contentLengthStart <+: l := List.isPrefixOf_iff_prefix
      rw [unlines_cons, announcedSize_line hline, ← contentLengthStart, ih hl hrest, unlines_cons]
      by_cases hstart : contentLengthStart <+: l
      · obtain ⟨value, rfl⟩ := hstart
        have hvalue : OneLine value := fun hin => hl (hin.trans (List.suffix_append _ _).isInfix)
        have hline : upToLineBreak (((contentLengthStart ++ value) ++ (crlf ++ unlines lines (crlf ++ content))).drop
            contentLengthStart.length) = value := by
          rw [List.append_assoc, List.drop_left, upToLineBreak_line hvalue]
        rw [if_pos (hpre.mpr (List.prefix_append _ _)), hline, List.find?_cons_of_pos (hfind.mpr (List.prefix_append _ _)),
          Option.map_some, List.drop_left, Option.some_or]
      · rw [if_neg (mt hpre.mp hstart), List.find?_cons_of_neg (mt hfind.mp hstart)]

/-- The line of a header announces the size if its name does. -/
theorem announcedIn_headers (hformed : ∀ h ∈ headers, h.Formed) :
    announcedIn (headers.map HttpHeader.text) = announced headers := by
  induction headers with
  | nil => rfl
  | cons h headers ih =>
      have hstart : contentLengthStart.isPrefixOf h.text = true ↔ contentLengthName = h.field :=
        List.isPrefixOf_iff_prefix.trans
          (prefix_colon_iff (by decide) (hformed h List.mem_cons_self).colon_notMem)
      have hrest := ih fun h hmem => hformed h (List.mem_cons_of_mem _ hmem)
      rw [announcedIn, announced] at hrest ⊢
      rw [List.map_cons]
      by_cases hname : contentLengthName = h.field
      · have hdrop : h.text.drop contentLengthStart.length = h.value := by
          simp [HttpHeader.text, contentLengthStart, hname]
        rw [List.find?_cons_of_pos (hstart.mpr hname), List.find?_cons_of_pos (by simp [hname]), Option.map_some, Option.map_some, hdrop]
      · rw [List.find?_cons_of_neg (mt hstart.mp hname), List.find?_cons_of_neg (by simpa using Ne.symm hname), hrest]

/-- One line of the loop of `Header`. -/
theorem headerIn_line (h : OneLine line) : headerIn name (line ++ (crlf ++ rest)) =
    if token (char ':') 0 line = name then trimLeft (tokenAndRest (char ':') 1 line)
    else headerIn name rest := by
  have hne : line ++ (crlf ++ rest) ≠ [] := by simp [crlf]
  rw [headerIn, if_neg hne]
  simp only [upToLineBreak_line h]
  split
  · rfl
  · split
    · rename_i hfind
      rw [find_crlf_line h] at hfind
      cases hfind
    · rename_i n hfind
      rw [find_crlf_line h, Option.some.injEq] at hfind
      rw [← hfind]
      exact congrArg _ (drop_line 0)

/-- The first line with a name gives its value, without leading colons and spaces. -/
theorem headerIn_lines {lines : List BoundedString} (hlines : ∀ l ∈ lines, OneLine l)
    (hfind : lines.find? (token (char ':') 0 · == name) = some line) :
    headerIn name (unlines lines rest) = trimLeft (tokenAndRest (char ':') 1 line) := by
  induction lines with
  | nil => cases hfind
  | cons l lines ih =>
      obtain ⟨hl, hrest⟩ := List.forall_mem_cons.mp hlines
      rw [unlines_cons, headerIn_line hl]
      by_cases hname : token (char ':') 0 l = name
      · rw [List.find?_cons_of_pos (by simpa using hname), Option.some.injEq] at hfind
        rw [if_pos hname, hfind]
      · rw [List.find?_cons_of_neg (by simpa using hname)] at hfind
        rw [if_neg hname]
        exact ih hrest hfind

theorem upToLineBreak_oneLine (text : BoundedString) : OneLine (upToLineBreak text) := by
  rw [upToLineBreak]
  cases hfind : find crlf text with
  | none => exact find_eq_none.mp hfind
  | some n =>
      dsimp only
      rw [OneLine, ← find_eq_none]
      exact find_of_short hfind (List.take_prefix n text) (by simp [crlf])

/-- A name with a line break is not found. -/
theorem headerIn_of_not_oneLine (hname : ¬ OneLine name) (text : BoundedString) : headerIn name text = [] := by
  fun_induction headerIn name text with
  | case1 => rfl
  | case2 text _ line htoken =>
      have hin : name <:+: line := by
        rw [← htoken]
        exact (List.takeWhile_prefix _).isInfix.trans (List.dropWhile_suffix _).isInfix
      exact absurd (fun hbreak => upToLineBreak_oneLine text (hbreak.trans hin)) hname
  | case3 => rfl
  | case4 _ _ _ _ _ _ ih => exact ih

/-! ## A whole request -/

theorem parse_verb (data : BoundedString) :
    (parse data).verb = httpVerbFromString (token (char ' ') 0 data) := by
  cases h : find (crlf ++ crlf) data <;> simp only [parse, h]

theorem parse_valid (data : BoundedString) : (parse data).valid = (parse data).verb.isSome := by
  cases h : find (crlf ++ crlf) data <;> simp only [parse, h]

theorem parse_path (data : BoundedString) : (parse data).path = token (char ' ') 1 data := by
  cases h : find (crlf ++ crlf) data <;> simp only [parse, h]

/-- What follows a complete request does not change its verb. -/
theorem valid_append {data : BoundedString} (hcomplete : (parse data).complete = true)
    (hvalid : (parse data).valid = true) (more : BoundedString) : (parse (data ++ more)).valid = true := by
  have hblank : find (crlf ++ crlf) data ≠ none := by
    intro hnone
    simp only [parse, hnone, checkContentsLength] at hcomplete
    split at hcomplete <;> simp at hcomplete
  have hcr : cr ∈ data := by
    rw [ne_eq, find_eq_none, not_not] at hblank
    exact hblank.subset (by simp [crlf])
  rw [parse_valid, parse_verb] at hvalid ⊢
  obtain ⟨verb, hverb⟩ := Option.isSome_iff_exists.mp hvalid
  rw [token_zero_append hcr (by decide) (cr_notMem_of_verb hverb), hverb]
  rfl

/-- The data up to the blank line, and what is behind it. -/
theorem drop_blankLine (lines : List BoundedString) :
    (unlines (line :: lines) (crlf ++ rest)).drop (line.length + (unlines lines []).length + 4) = rest := by
  have hsplit : unlines (line :: lines) (crlf ++ rest) = (line ++ (crlf ++ (unlines lines [] ++ crlf))) ++ rest := by
    simp [unlines_append]
  have hlen : line.length + (unlines lines []).length + 4 =
      (line ++ (crlf ++ (unlines lines [] ++ crlf))).length := by
    simp only [List.length_append, crlf, List.length_cons, List.length_nil]
    omega
  rw [hsplit, hlen, List.drop_left]

end HttpRequestParser

/-! ## A head and a body -/

/-- A request line and header lines, none of which is the blank line that ends them. -/
structure RequestHead where
  line : BoundedString
  lines : List BoundedString
  line_oneLine : OneLine line
  formed : ∀ l ∈ lines, OneLine l ∧ l ≠ []

namespace RequestHead

/-- The head with its blank line. -/
def text (head : RequestHead) : BoundedString := unlines (head.line :: head.lines) crlf

def request (head : RequestHead) (body : BoundedString) : BoundedString := head.text ++ body

end RequestHead

namespace HttpRequestParser

variable (head : RequestHead) (body : BoundedString)

theorem request_eq :
    head.request body = unlines (head.line :: head.lines) (crlf ++ body) := unlines_append _ _ _

theorem find_blankLine_request :
    find (crlf ++ crlf) (head.request body) = some (head.line.length + (unlines head.lines []).length) := by
  rw [request_eq]
  exact find_blankLine head.line_oneLine head.formed

/-- The header lines, and as many characters behind them as the request line has. -/
theorem parse_headers_lines :
    (parse (head.request body)).headers =
      if head.lines = [] then [] else unlines head.lines ((crlf ++ body).take head.line.length) := by
  have hblank := find_blankLine_request head body
  have hfirst : find crlf (head.request body) = some head.line.length := by
    rw [request_eq, unlines_cons, find_crlf_line head.line_oneLine]
  simp only [parse, hblank, hfirst]
  by_cases hlines : head.lines = []
  · rw [hlines, if_pos rfl, if_neg]
    simp
  · have hlong : head.line.length ≠ head.line.length + (unlines head.lines []).length := by
      obtain ⟨l, lines, hcons⟩ := List.exists_cons_of_ne_nil hlines
      rw [hcons, unlines_cons]
      simp only [List.length_append, crlf, List.length_cons]
      omega
    have hdrop := @drop_line head.line (unlines head.lines (crlf ++ body)) 0
    rw [Nat.add_zero, List.drop_zero] at hdrop
    rw [if_neg hlines, if_pos hlong, BoundedString.substr, request_eq, unlines_cons, hdrop,
      ← List.nil_append (crlf ++ body), ← unlines_append, Nat.add_comm, List.take_length_add_append, unlines_append,
      List.nil_append, List.nil_append]

theorem parse_body_lines : (parse (head.request body)).body = body := by
  have hblank := find_blankLine_request head body
  simp only [parse, hblank]
  rw [request_eq]
  exact drop_blankLine _

theorem parse_complete_lines :
    (parse (head.request body)).complete = checkContentsLength (head.request body) body true := by
  have hbody := parse_body_lines head body
  have hblank := find_blankLine_request head body
  simp only [parse, hblank] at hbody ⊢
  rw [hbody]

theorem complete_iff :
    (parse (head.request body)).complete = true ↔
      ∀ size, announcedSize (head.request body) = some size → size.toNat ≤ body.length := by
  rw [parse_complete_lines, checkContentsLength]
  cases h : announcedSize (head.request body) with
  | none => simp
  | some size => simp

theorem announcedSize_request :
    announcedSize (head.request body) =
      (announcedIn head.lines).or (announcedSize (crlf ++ body)) := by
  rw [request_eq, announcedSize_lines head.line_oneLine fun l hl => (head.formed l hl).1]

theorem header_of_find {name line : BoundedString}
    (hfind : head.lines.find? (token (char ':') 0 · == name) = some line) :
    (parse (head.request body)).header name = trimLeft (tokenAndRest (char ':') 1 line) := by
  have hne : head.lines ≠ [] := List.ne_nil_of_mem (List.mem_of_find?_eq_some hfind)
  rw [header, parse_headers_lines, if_neg hne]
  exact headerIn_lines (fun l hl => (head.formed l hl).1) hfind

/-- A text that ends in the head is not complete. -/
theorem not_complete_of_short {sent : BoundedString} (hsent : sent <+: head.text)
    (hlt : sent.length < head.text.length) : (parse sent).complete = false := by
  have hfind := find_blankLine_request head []
  rw [RequestHead.request, List.append_nil] at hfind
  have hnone : find (crlf ++ crlf) sent = none := by
    apply find_of_short hfind hsent
    have hdrop := @drop_blankLine head.line [] head.lines
    rw [List.append_nil, List.drop_eq_nil_iff, ← RequestHead.text] at hdrop
    simp only [crlf, List.length_append, List.length_cons, List.length_nil]
    omega
  simp only [parse, hnone, checkContentsLength]
  split <;> simp

/-- Where the lines announce the size, the text is complete when it has as much. -/
theorem complete_of_announced {size : UInt32} (hsize : announcedIn head.lines = some size) :
    (parse (head.request body)).complete = true ↔ size.toNat ≤ body.length := by
  rw [complete_iff, announcedSize_request, hsize]
  simp

/-- Without an announcement the head alone is complete. -/
theorem complete_of_not_announced (hnone : announcedIn head.lines = none) :
    (parse (head.request [])).complete = true := by
  have hcrlf : announcedSize (crlf ++ []) = none := by decide
  rw [complete_iff, announcedSize_request, hnone, hcrlf]
  simp

section Announced

variable {head body} (hsize : ((announcedIn head.lines).getD 0).toNat = body.length)
include hsize

/-- **The parser sees where a request ends.** -/
theorem complete_request : (parse (head.request body)).complete = true := by
  cases hannounced : announcedIn head.lines with
  | none =>
      rw [hannounced] at hsize
      have hempty : body = [] := List.length_eq_zero_iff.mp hsize.symm
      rw [hempty]
      exact complete_of_not_announced head hannounced
  | some size =>
      rw [hannounced] at hsize
      exact (complete_of_announced head body hannounced).mpr hsize.le

/-- What lacks something of a request is not taken for a whole one: it ends in the head, or in the body. -/
theorem not_complete_of_part {sent : BoundedString} (hsent : sent <+: head.request body)
    (hne : sent ≠ head.request body) : (parse sent).complete = false := by
  rcases Nat.lt_or_ge sent.length head.text.length with hlt | hge
  · exact not_complete_of_short head (List.prefix_of_prefix_length_le hsent (List.prefix_append _ _) hlt.le) hlt
  · obtain ⟨part, rfl⟩ := List.prefix_of_prefix_length_le (List.prefix_append _ _) hsent hge
    have hpart := (List.prefix_append_right_inj _).mp hsent
    have hlt : part.length < body.length := by
      refine lt_of_le_of_ne hpart.length_le fun heq => hne ?_
      rw [hpart.eq_of_length heq, RequestHead.request]
    cases hannounced : announcedIn head.lines with
    | none =>
        rw [hannounced] at hsize
        have hzero : 0 = body.length := hsize
        omega
    | some size =>
        rw [hannounced] at hsize
        have hbody : size.toNat = body.length := hsize
        rw [← RequestHead.request, Bool.eq_false_iff, ne_eq, complete_of_announced head part hannounced]
        omega

end Announced

end HttpRequestParser

/-! ## Requests that come in part by part -/

/-- A request: its line, its headers and a body of the size that the first header with the name
`Content-Length` announces, or none. -/
structure RequestText where
  line : BoundedString
  headers : List HttpHeader
  body : BoundedString
  line_oneLine : OneLine line
  formed : ∀ h ∈ headers, h.Formed
  announces : ((announced headers).getD 0).toNat = body.length

namespace RequestText

variable (r : RequestText) {sent : BoundedString}

def head : BoundedString := unlines (r.line :: r.headers.map HttpHeader.text) crlf

def text : BoundedString := r.head ++ r.body

/-- The lines of the headers. -/
def requestHead : RequestHead where
  line := r.line
  lines := r.headers.map HttpHeader.text
  line_oneLine := r.line_oneLine
  formed := by
    intro l hl
    obtain ⟨h, hmem, rfl⟩ := List.mem_map.mp hl
    exact ⟨(r.formed h hmem).text_oneLine, h.text_ne_nil⟩

theorem announcedIn_lines : ((announcedIn r.requestHead.lines).getD 0).toNat = r.body.length := by
  rw [requestHead, announcedIn_headers r.formed, r.announces]

theorem complete_text : (parse r.text).complete = true :=
  complete_request r.announcedIn_lines

theorem not_complete_of_part (hsent : sent <+: r.text) (hne : sent ≠ r.text) :
    (parse sent).complete = false :=
  HttpRequestParser.not_complete_of_part r.announcedIn_lines hsent hne

end RequestText

end EmbeddedInfra.Http
