import Mathlib.Data.List.TakeWhile
import EmbeddedInfra.Services.Network.HttpRequestParser

set_option autoImplicit false

/-! # What the parser takes for the head of a request

The request line and the header lines of a request end at the first blank line. The parser cuts the headers out
of the data with a length that counts the request line, too, so it goes on over the blank line
(`parse_headers_lines`). What it says about a head is then not the same for every body (`separatesBody_iff`).
-/

namespace EmbeddedInfra.Http

open PatternSearch Tokenizer

namespace HttpRequestParser

/-- The loop of `EnumerateHeaders`, with the names and values that the enumerator is called with. -/
def enumerateIn (headersTail : BoundedString) : List (BoundedString × BoundedString) :=
  if headersTail = [] then []
  else
    let line := upToLineBreak headersTail
    (token (char ':') 0 line, trimLeft (tokenAndRest (char ':') 1 line)) ::
      match h : find crlf headersTail with
      | none => []
      | some nextHeaderStart => enumerateIn (headersTail.drop (nextHeaderStart + 2))
termination_by headersTail.length
decreasing_by exact lt_of_find_crlf h

def enumerateHeaders (p : HttpRequestParser) : List (BoundedString × BoundedString) := enumerateIn p.headers

/-- `PathTokens`: what its tokens are, with and without the rest of the path. -/
def pathTokens (p : HttpRequestParser) (i : Nat) : BoundedString × BoundedString :=
  (token (char '/') i p.path, tokenAndRest (char '/') i p.path)

end HttpRequestParser

/-- Two parsers say the same about the head of their requests. -/
structure SameHead (p q : HttpRequestParser) : Prop where
  complete_eq : p.complete = q.complete
  valid_eq : p.valid = q.valid
  verb_eq : p.verb = q.verb
  pathTokens_eq : ∀ i, p.pathTokens i = q.pathTokens i
  header_eq : ∀ name, p.header name = q.header name
  enumerateHeaders_eq : p.enumerateHeaders = q.enumerateHeaders

/-- With this head and a body of so many characters, the characters do not matter. -/
def SeparatesBody (head : RequestHead) (n : Nat) : Prop :=
  ∀ first second : BoundedString, first.length = n → second.length = n →
    SameHead (HttpRequestParser.parse (head.request first)) (HttpRequestParser.parse (head.request second))

/-! ## Enumerating -/

namespace HttpRequestParser

variable {head : RequestHead} {body : BoundedString} {first second : BoundedString} {c : UInt8}
  {n : Nat}

/-- One line of the loop of `EnumerateHeaders`. -/
theorem enumerateIn_line {line rest : BoundedString} (h : OneLine line) : enumerateIn (line ++ (crlf ++ rest)) =
    (token (char ':') 0 line, trimLeft (tokenAndRest (char ':') 1 line)) :: enumerateIn rest := by
  have hne : line ++ (crlf ++ rest) ≠ [] := by simp [crlf]
  rw [enumerateIn, if_neg hne]
  simp only [upToLineBreak_line h, List.cons.injEq, true_and]
  split
  · rename_i hfind
    rw [find_crlf_line h] at hfind
    cases hfind
  · rename_i n hfind
    rw [find_crlf_line h, Option.some.injEq] at hfind
    rw [← hfind]
    exact congrArg enumerateIn (drop_line 0)

/-- A last line without line break. -/
theorem enumerateIn_last {line : BoundedString} (h : OneLine line) (hne : line ≠ []) : enumerateIn line =
    [(token (char ':') 0 line, trimLeft (tokenAndRest (char ':') 1 line))] := by
  have hfind : find crlf line = none := find_eq_none.mpr h
  rw [enumerateIn, if_neg hne]
  simp only [upToLineBreak, hfind, List.cons.injEq, true_and]
  split
  · rfl
  · rename_i n hsome
    rw [hfind] at hsome
    cases hsome

theorem enumerateIn_unlines {lines : List BoundedString} (h : ∀ l ∈ lines, OneLine l) (rest : BoundedString) :
    enumerateIn (unlines lines rest) =
      lines.map (fun l => (token (char ':') 0 l, trimLeft (tokenAndRest (char ':') 1 l))) ++
        enumerateIn rest := by
  induction lines with
  | nil => rfl
  | cons line lines ih =>
      obtain ⟨hline, hlines⟩ := List.forall_mem_cons.mp h
      rw [unlines_cons, enumerateIn_line hline, ih hlines, List.map_cons, List.cons_append]

/-! ## The headers -/

/-- The characters behind the headers are those of the line break. -/
theorem headers_eq_of_short (h : head.lines = [] ∨ head.line.length ≤ 2) :
    (parse (head.request first)).headers = (parse (head.request second)).headers := by
  rw [parse_headers_lines, parse_headers_lines]
  by_cases hlines : head.lines = []
  · rw [if_pos hlines, if_pos hlines]
  · have hshort : head.line.length ≤ crlf.length := h.resolve_left hlines
    rw [if_neg hlines, if_neg hlines, List.take_append_of_le_length hshort, List.take_append_of_le_length hshort]

theorem token_replicate {separator : UInt8} (hne : c ≠ separator) (m : Nat) :
    token separator 0 (List.replicate m c) = List.replicate m c := by
  show ((List.replicate m c).dropWhile (· == separator)).takeWhile (· != separator) = _
  rw [List.dropWhile_replicate, if_neg (by simpa using hne), List.takeWhile_replicate, if_pos (by simpa using hne)]

theorem oneLine_replicate (hne : c ≠ cr) (m : Nat) : OneLine (List.replicate m c) := by
  apply oneLine_of_notMem
  intro hmem
  exact hne (List.eq_of_mem_replicate hmem).symm

/-- A body of one character, repeated, is the name of a header. -/
theorem enumerateHeaders_replicate (hlines : head.lines ≠ []) (hlong : 2 < head.line.length)
    (hn : 0 < n) (hcolon : c ≠ char ':') (hcr : c ≠ cr) :
    ∃ m, 0 < m ∧ m = min (head.line.length - 2) n ∧
      (parse (head.request (List.replicate n c))).enumerateHeaders =
        head.lines.map (fun l => (token (char ':') 0 l, trimLeft (tokenAndRest (char ':') 1 l))) ++
          [([], []), (List.replicate m c, trimLeft (tokenAndRest (char ':') 1 (List.replicate m c)))] := by
  refine ⟨min (head.line.length - 2) n, by omega, rfl, ?_⟩
  have htake : (crlf ++ List.replicate n c).take head.line.length =
      crlf ++ List.replicate (min (head.line.length - 2) n) c := by
    have hsum : head.line.length = crlf.length + (head.line.length - 2) := by
      show head.line.length = 2 + (head.line.length - 2)
      omega
    rw [← List.take_replicate, ← List.take_length_add_append, ← hsum]
  have hne : List.replicate (min (head.line.length - 2) n) c ≠ [] := by
    rw [ne_eq, List.replicate_eq_nil_iff]
    omega
  have hblank : OneLine [] := oneLine_of_notMem (by simp)
  rw [enumerateHeaders, parse_headers_lines, if_neg hlines, htake,
    enumerateIn_unlines (fun l hl => (head.formed l hl).1)]
  have hbreak := @enumerateIn_line [] (List.replicate (min (head.line.length - 2) n) c) hblank
  rw [List.nil_append] at hbreak
  rw [hbreak, enumerateIn_last (oneLine_replicate hcr _) hne, token_replicate hcolon]
  rfl

theorem enumerateHeaders_ne (hlines : head.lines ≠ []) (hlong : 2 < head.line.length) (hn : 0 < n) :
    (parse (head.request (List.replicate n (char 'x')))).enumerateHeaders ≠
      (parse (head.request (List.replicate n (char 'y')))).enumerateHeaders := by
  intro heq
  obtain ⟨m, hm, hmin, hx⟩ := enumerateHeaders_replicate (c := char 'x') hlines hlong hn (by decide) (by decide)
  obtain ⟨k, -, hmin', hy⟩ := enumerateHeaders_replicate (c := char 'y') hlines hlong hn (by decide) (by decide)
  rw [hx, hy, hmin', ← hmin] at heq
  have hpairs := List.append_cancel_left heq
  simp only [List.cons.injEq, Prod.mk.injEq, List.replicate_inj] at hpairs
  rcases hpairs.2.1.1.2 with hzero | hletter
  · omega
  · exact absurd hletter (by decide)

/-! ## The path -/

/-- What follows a text that does not end in a separator. -/
theorem tokenAndRest_append {separator : UInt8} {string : BoundedString} (hlast : string.getLast? = some c)
    (hne : c ≠ separator) (more : BoundedString) :
    tokenAndRest separator 1 (string ++ more) =
      if tokenAndRest separator 1 string = [] then startOfNextToken separator more
      else tokenAndRest separator 1 string ++ more := by
  -- the last character stays, whatever separators are skipped
  have hkeeps {rest : BoundedString} (hrest : rest ≠ []) (hsuffix : rest <:+ string) :
      rest.dropWhile (· == separator) ≠ [] := by
    have hmem : c ∈ rest := by
      obtain ⟨front, rfl⟩ := hsuffix
      rw [List.getLast?_append_of_ne_nil front hrest] at hlast
      exact List.mem_of_getLast? hlast
    intro hnil
    have hall := List.dropWhile_eq_nil_iff.mp hnil c hmem
    exact hne (beq_iff_eq.mp hall)
  have hstring : string ≠ [] := by
    rintro rfl
    cases hlast
  have hskip := hkeeps hstring List.suffix_rfl
  show startOfNextToken separator ((string ++ more).dropWhile (· == separator)) =
    if startOfNextToken separator (string.dropWhile (· == separator)) = [] then _
    else startOfNextToken separator (string.dropWhile (· == separator)) ++ more
  rw [List.dropWhile_append, if_neg (by simpa using hskip)]
  obtain ⟨token, htoken⟩ : ∃ token, token = string.dropWhile (· == separator) := ⟨_, rfl⟩
  have hstart (position : BoundedString) : startOfNextToken separator position =
      (position.dropWhile (· != separator)).dropWhile (· == separator) := rfl
  rw [← htoken, hstart, hstart token]
  by_cases hend : token.dropWhile (· != separator) = []
  · rw [List.dropWhile_append, hend, if_pos List.isEmpty_nil, if_pos List.dropWhile_nil]
    rfl
  · have hsuffix : token.dropWhile (· != separator) <:+ string := by
      rw [htoken]
      exact (List.dropWhile_suffix _).trans (List.dropWhile_suffix _)
    have hbehind := hkeeps hend hsuffix
    rw [if_neg hbehind, List.dropWhile_append, if_neg (by simpa using hend), List.dropWhile_append,
      if_neg (by simpa using hbehind)]

/-- The head from the start of the path on. -/
def pathRest (head : RequestHead) : BoundedString := tokenAndRest (char ' ') 1 head.text

theorem getLast?_text (head : RequestHead) : head.text.getLast? = some lf := by
  have hsplit : head.text = unlines (head.line :: head.lines) [cr] ++ [lf] := by
    rw [unlines_append]
    rfl
  rw [hsplit, List.getLast?_concat]

theorem parse_path_request (head : RequestHead) (body : BoundedString) :
    (parse (head.request body)).path =
      makeToken (char ' ')
        (if pathRest head = [] then startOfNextToken (char ' ') body else pathRest head ++ body) := by
  rw [parse_path, pathRest, ← tokenAndRest_append (getLast?_text head) (by decide)]
  rfl

/-- The path does not have anything of the body: a space follows it, or there is no space in front of the body, and
one character of the body is not enough for a path behind one. -/
structure PathEnds (head : RequestHead) (n : Nat) : Prop where
  ends : char ' ' ∈ pathRest head ∨ (pathRest head = [] ∧ n ≤ 1)

theorem path_eq_of_ends (h : PathEnds head n) (hfirst : first.length = n)
    (hsecond : second.length = n) : (parse (head.request first)).path = (parse (head.request second)).path := by
  rw [parse_path_request, parse_path_request]
  rcases h.ends with hspace | ⟨hnil, hn⟩
  · have hne : pathRest head ≠ [] := List.ne_nil_of_mem hspace
    have hcut (body : BoundedString) :
        makeToken (char ' ') (pathRest head ++ body) = makeToken (char ' ') (pathRest head) := by
      rw [makeToken, List.takeWhile_append, if_neg]
      · rfl
      · intro hall
        have hsame := (List.takeWhile_prefix (· != char ' ')).eq_of_length hall
        rw [← hsame] at hspace
        have hfalse := List.all_eq_true.mp List.all_takeWhile _ hspace
        simp at hfalse
    rw [if_neg hne, if_neg hne, hcut, hcut]
  · have hnone {body : BoundedString} (hbody : body.length = n) :
        makeToken (char ' ') (startOfNextToken (char ' ') body) = [] := by
      rcases body with _ | ⟨c, _ | ⟨_, body⟩⟩
      · rfl
      · by_cases hc : c = char ' '
        · rw [hc]
          decide
        · simp [startOfNextToken, skipConsecutiveSeparators, makeToken, hc]
      · simp only [List.length_cons] at hbody
        omega
    rw [if_pos hnil, if_pos hnil, hnone hfirst, hnone hsecond]

/-- Paths that go on with different characters. -/
theorem pathTokens_ne {p q : HttpRequestParser} {front : BoundedString} {m : Nat} (hm : 0 < m)
    (hp : p.path = front ++ List.replicate m (char 'x')) (hq : q.path = front ++ List.replicate m (char 'y')) :
    p.pathTokens 0 ≠ q.pathTokens 0 := by
  have hrest {c : UInt8} (hc : c ≠ char '/') : tokenAndRest (char '/') 0 (front ++ List.replicate m c) =
      front.dropWhile (· == char '/') ++ List.replicate m c := by
    have hletters : (List.replicate m c).dropWhile (· == char '/') = List.replicate m c := by
      rw [List.dropWhile_replicate, if_neg (by simpa using hc)]
    show (front ++ List.replicate m c).dropWhile (· == char '/') = _
    rw [List.dropWhile_append, hletters]
    split
    · rename_i hempty
      rw [List.isEmpty_iff.mp hempty, List.nil_append]
    · rfl
  intro heq
  have htokens := congrArg Prod.snd heq
  simp only [pathTokens, hp, hq] at htokens
  rw [hrest (by decide), hrest (by decide)] at htokens
  have hletters := List.append_cancel_left htokens
  rw [List.replicate_inj] at hletters
  rcases hletters.2 with hzero | hletter
  · omega
  · exact absurd hletter (by decide)

theorem makeToken_replicate (hc : c ≠ char ' ') {front : BoundedString} (hfront : char ' ' ∉ front) (m : Nat) :
    makeToken (char ' ') (front ++ List.replicate m c) = front ++ List.replicate m c := by
  rw [makeToken, List.takeWhile_append_of_pos, List.takeWhile_replicate, if_pos (by simpa using hc)]
  intro a ha
  simp only [bne_iff_ne, ne_eq]
  rintro rfl
  exact hfront ha

theorem exists_pathTokens_ne (hn : 0 < n) (h : ¬ PathEnds head n) :
    ∃ first second : BoundedString, first.length = n ∧ second.length = n ∧
      (parse (head.request first)).pathTokens 0 ≠ (parse (head.request second)).pathTokens 0 := by
  have hspace : char ' ' ∉ pathRest head := fun hmem => h ⟨Or.inl hmem⟩
  by_cases hnil : pathRest head = []
  · have htwo : 1 < n := by
      by_contra hone
      exact h ⟨Or.inr ⟨hnil, by omega⟩⟩
    -- the path is in the body
    have hpath {c : UInt8} (hc : c ≠ char ' ') :
        (parse (head.request (char ' ' :: List.replicate (n - 1) c))).path = [] ++ List.replicate (n - 1) c := by
      have hskip : startOfNextToken (char ' ') (char ' ' :: List.replicate (n - 1) c) =
          List.replicate (n - 1) c := by
        simp only [startOfNextToken, skipConsecutiveSeparators, bne_self_eq_false,
          Bool.false_eq_true, not_false_eq_true, List.dropWhile_cons_of_neg, beq_self_eq_true,
          List.dropWhile_cons_of_pos]
        rw [List.dropWhile_replicate, if_neg (by simpa using hc)]
      have htoken := @makeToken_replicate _ hc [] (by simp) (n - 1)
      rw [List.nil_append] at htoken
      rw [parse_path_request, if_pos hnil, hskip, htoken, List.nil_append]
    refine ⟨char ' ' :: List.replicate (n - 1) (char 'x'), char ' ' :: List.replicate (n - 1) (char 'y'), ?_, ?_, ?_⟩
    · rw [List.length_cons, List.length_replicate]
      omega
    · rw [List.length_cons, List.length_replicate]
      omega
    · exact pathTokens_ne (by omega) (hpath (by decide)) (hpath (by decide))
  · have hpath {c : UInt8} (hc : c ≠ char ' ') :
        (parse (head.request (List.replicate n c))).path = pathRest head ++ List.replicate n c := by
      rw [parse_path_request, if_neg hnil, makeToken_replicate hc hspace]
    exact ⟨List.replicate n (char 'x'), List.replicate n (char 'y'), List.length_replicate .., List.length_replicate ..,
      pathTokens_ne hn (hpath (by decide)) (hpath (by decide))⟩

/-! ## The announced size -/

/-- A header line announces the size. -/
def Announces (head : RequestHead) : Prop := ∃ l ∈ head.lines, contentLengthStart <+: l

/-- A head that announces the size does so whatever the body is. -/
theorem announcedSize_eq_of_announces (h : Announces head) (first second : BoundedString) :
    announcedSize (head.request first) = announcedSize (head.request second) := by
  obtain ⟨l, hl, hstart⟩ := h
  have hsome : (head.lines.find? (contentLengthStart.isPrefixOf ·)).isSome := by
    rw [List.find?_isSome]
    exact ⟨l, hl, List.isPrefixOf_iff_prefix.mpr hstart⟩
  obtain ⟨found, hfound⟩ := Option.isSome_iff_exists.mp hsome
  rw [announcedSize_request, announcedSize_request, announcedIn, hfound, Option.map_some, Option.some_or, Option.some_or]

theorem announcedSize_of_not_announces (h : ¬ Announces head) (body : BoundedString) :
    announcedSize (head.request body) =
      if contentLengthStart <+: body then
        some (readAsDecimal (upToLineBreak (body.drop contentLengthStart.length)))
      else announcedSize body := by
  have hnone : head.lines.find? (contentLengthStart.isPrefixOf ·) = none := by
    rw [List.find?_eq_none]
    intro l hl hstart
    exact h ⟨l, hl, List.isPrefixOf_iff_prefix.mp hstart⟩
  have hbreak := @announcedSize_line [] body (oneLine_of_notMem (by simp))
  rw [List.nil_append] at hbreak
  rw [announcedSize_request, announcedIn, hnone, Option.map_none, Option.none_or, hbreak, ← contentLengthStart]

/-- At most one digit. -/
theorem readAsDecimal_le_nine {text : BoundedString} (h : text.length ≤ 1) : (readAsDecimal text).toNat ≤ 9 := by
  have hdigits : ((trimLeft text).takeWhile isDigit).length ≤ 1 :=
    ((List.takeWhile_prefix _).length_le.trans (length_trimLeft_le text)).trans h
  rw [readAsDecimal]
  match hdigit : (trimLeft text).takeWhile isDigit, hdigits with
  | [], _ => exact Nat.zero_le 9
  | [c], _ =>
      have hc : isDigit c = true :=
        List.all_eq_true.mp List.all_takeWhile c (by rw [hdigit]; exact List.mem_cons_self)
      have hall : ∀ c : UInt8, isDigit c = true → ((0 : UInt32) * 10 + (c - char '0').toUInt32).toNat ≤ 9 := by
        intro c
        have hbound := c.toNat_lt
        obtain ⟨v, hv⟩ : ∃ v, v = c.toNat := ⟨_, rfl⟩
        have hofNat : c = UInt8.ofNat v := by rw [hv, UInt8.ofNat_toNat]
        rw [hofNat]
        rw [← hv] at hbound
        interval_cases v <;> decide
      exact hall c hc
  | _ :: _ :: _, hlong =>
      simp only [List.length_cons] at hlong
      omega

/-- There is no room in a short body for a size that it does not have itself. -/
theorem complete_of_short (h : ¬ Announces head) {body : BoundedString} (hshort : body.length ≤ 16) :
    (parse (head.request body)).complete = true := by
  rw [complete_iff, announcedSize_of_not_announces h]
  intro size hsize
  split at hsize
  · rename_i hstart
    obtain ⟨value, rfl⟩ := hstart
    have hlength : (contentLengthStart ++ value).length = 15 + value.length := List.length_append
    have hvalue : (upToLineBreak value).length ≤ 1 := by
      have hle : (upToLineBreak value).length ≤ value.length := by
        rw [upToLineBreak]
        split
        · exact List.length_take_le' _ _
        · exact Nat.le_refl _
      omega
    have hnine := readAsDecimal_le_nine hvalue
    rw [List.drop_left, Option.some.injEq] at hsize
    rw [← hsize]
    omega
  · obtain ⟨start, hfind, -⟩ := Option.map_eq_some_iff.mp hsize
    obtain ⟨rest, htext, hle⟩ := find_eq_some hfind
    have hlength := congrArg List.length htext
    have htag : contentLengthTag.length = 17 := by decide
    simp only [List.length_append, htag] at hlength
    omega

/-- A body that starts with a line that announces more than there is, with characters behind it. -/
theorem not_complete_of_larger (h : ¬ Announces head) {digits : BoundedString} {m : Nat}
    (hdigits : ∀ c ∈ digits, isDigit c = true)
    (hsize : contentLengthStart.length + (digits.length + m) <
      (digits.foldl (fun v c => v * 10 + (c - char '0').toUInt32) (0 : UInt32)).toNat) :
    (parse (head.request (contentLengthStart ++ (digits ++ List.replicate m (char 'x'))))).complete = false := by
  have hline : OneLine (digits ++ List.replicate m (char 'x')) := by
    apply oneLine_of_notMem
    rw [List.mem_append]
    rintro (hmem | hmem)
    · exact absurd (hdigits cr hmem) (by decide)
    · exact absurd (List.eq_of_mem_replicate hmem) (by decide)
  have hfind : find crlf (digits ++ List.replicate m (char 'x')) = none := find_eq_none.mpr hline
  have hletters : (List.replicate m (char 'x')).takeWhile isDigit = [] := by
    rw [List.takeWhile_replicate, if_neg (by decide)]
  have htrim : trimLeft (digits ++ List.replicate m (char 'x')) = digits ++ List.replicate m (char 'x') := by
    apply trimLeft_of_head
    intro hspace
    have hmem := List.mem_of_head? hspace
    rw [List.mem_append] at hmem
    rcases hmem with hmem | hmem
    · exact absurd (hdigits _ hmem) (by decide)
    · exact absurd (List.eq_of_mem_replicate hmem) (by decide)
  have hread : readAsDecimal (digits ++ List.replicate m (char 'x')) =
      digits.foldl (fun v c => v * 10 + (c - char '0').toUInt32) 0 := by
    rw [readAsDecimal, htrim, List.takeWhile_append_of_pos hdigits, hletters, List.append_nil]
  rw [Bool.eq_false_iff, ne_eq, complete_iff, announcedSize_of_not_announces h, if_pos (List.prefix_append _ _),
    List.drop_left]
  simp only [upToLineBreak, hfind, hread]
  intro hall
  have hle := hall _ rfl
  simp only [List.length_append, List.length_replicate] at hle
  omega

theorem exists_not_complete (h : ¬ Announces head) (hlong : 16 < n) (hsmall : n < 2 ^ 32 - 1) :
    ∃ body : BoundedString, body.length = n ∧ (parse (head.request body)).complete = false := by
  have hstart : contentLengthStart.length = 15 := by decide
  rcases Nat.lt_or_ge n 25 with hlt | hge
  · have htwo : (literal "99").length = 2 := by decide
    refine ⟨contentLengthStart ++ (literal "99" ++ List.replicate (n - 17) (char 'x')), ?_,
      not_complete_of_larger h (by decide +kernel) ?_⟩
    · simp only [List.length_append, List.length_replicate, hstart, htwo]
      omega
    · rw [hstart, htwo]
      show _ < 99
      omega
  · have hten : (literal "4294967295").length = 10 := by decide
    refine ⟨contentLengthStart ++ (literal "4294967295" ++ List.replicate (n - 25) (char 'x')), ?_,
      not_complete_of_larger h (by decide +kernel) ?_⟩
    · simp only [List.length_append, List.length_replicate, hstart, hten]
      omega
    · rw [hstart, hten]
      show _ < 4294967295
      omega

theorem complete_replicate (h : ¬ Announces head) (n : Nat) :
    (parse (head.request (List.replicate n (char 'x')))).complete = true := by
  rw [complete_iff, announcedSize_of_not_announces h]
  have hcolon : char ':' ∉ List.replicate n (char 'x') := by
    intro hmem
    exact absurd (List.eq_of_mem_replicate hmem) (by decide)
  have hnone : announcedSize (List.replicate n (char 'x')) = none := by
    rw [announcedSize, Option.map_eq_none_iff, find_eq_none]
    intro hin
    exact hcolon (hin.subset (by decide))
  rw [if_neg (fun hpre => hcolon (hpre.subset (by decide))), hnone]
  intro size hsize
  cases hsize

/-! ## The head and the body -/

/-- A request cannot have a valid verb that reaches into its body. -/
theorem verb_request (head : RequestHead) (body : BoundedString) :
    (parse (head.request body)).verb = (parse head.text).verb := by
  have hmem : cr ∈ head.text := by
    rw [RequestHead.text, unlines_cons]
    simp [crlf]
  rw [parse_verb, parse_verb]
  by_cases hcr : cr ∈ token (char ' ') 0 head.text
  · have hlonger : token (char ' ') 0 head.text <+: token (char ' ') 0 (head.request body) := by
      have hne : head.text.dropWhile (· == char ' ') ≠ [] := by
        intro hnil
        have hall := List.dropWhile_eq_nil_iff.mp hnil cr hmem
        exact absurd hall (by decide)
      show ((head.text).dropWhile (· == char ' ')).takeWhile (· != char ' ') <+:
        ((head.text ++ body).dropWhile (· == char ' ')).takeWhile (· != char ' ')
      rw [List.dropWhile_append, if_neg (by simpa using hne), List.takeWhile_append]
      split
      · rename_i hall
        rw [(List.takeWhile_prefix _).eq_of_length hall]
        exact List.prefix_append _ _
      · exact List.prefix_rfl
    have hnone {text : BoundedString} (h : cr ∈ text) : httpVerbFromString text = none := by
      cases hverb : httpVerbFromString text with
      | none => rfl
      | some verb => exact absurd h (cr_notMem_of_verb hverb)
    rw [hnone hcr, hnone (hlonger.subset hcr)]
  · rw [RequestHead.request, token_zero_append hmem (by decide) hcr]

/-- The body is kept apart when there is none; or the headers have no more behind them than their line break, the path
ends in front of the body, and the body cannot announce a size. -/
structure Apart (head : RequestHead) (n : Nat) : Prop where
  headers : head.lines = [] ∨ head.line.length ≤ 2
  path : PathEnds head n
  size : Announces head ∨ n ≤ 16 ∨ 2 ^ 32 - 1 ≤ n

theorem complete_eq_of_apart (h : Announces head ∨ n ≤ 16 ∨ 2 ^ 32 - 1 ≤ n)
    (hfirst : first.length = n) (hsecond : second.length = n) :
    (parse (head.request first)).complete = (parse (head.request second)).complete := by
  by_cases hannounces : Announces head
  · rw [Bool.eq_iff_iff, complete_iff, complete_iff, announcedSize_eq_of_announces hannounces first second, hfirst,
      hsecond]
  · have hcomplete {body : BoundedString} (hbody : body.length = n) : (parse (head.request body)).complete = true := by
      rcases h with hsome | hshort | hlong
      · exact absurd hsome hannounces
      · exact complete_of_short hannounces (by omega)
      · rw [complete_iff]
        intro size _
        have hsize := size.toNat_lt
        omega
    rw [hcomplete hfirst, hcomplete hsecond]

/-- **Exactly then, the body does not show in what the parser says about the head.** -/
theorem separatesBody_iff (head : RequestHead) (n : Nat) : SeparatesBody head n ↔ n = 0 ∨ Apart head n := by
  constructor
  · intro hseparates
    by_cases hn : n = 0
    · exact Or.inl hn
    · have hpos : 0 < n := Nat.pos_of_ne_zero hn
      have hxy := hseparates (List.replicate n (char 'x')) (List.replicate n (char 'y')) (List.length_replicate ..)
        (List.length_replicate ..)
      refine Or.inr ⟨?_, ?_, ?_⟩
      · by_contra hheaders
        rw [not_or] at hheaders
        exact enumerateHeaders_ne hheaders.1 (by omega) hpos hxy.enumerateHeaders_eq
      · by_contra hpath
        obtain ⟨first, second, hfirst, hsecond, hne⟩ := exists_pathTokens_ne hpos hpath
        exact hne ((hseparates first second hfirst hsecond).pathTokens_eq 0)
      · by_contra hsize
        simp only [not_or, not_le] at hsize
        obtain ⟨body, hbody, hfalse⟩ := exists_not_complete hsize.1 hsize.2.1 hsize.2.2
        have hsame := (hseparates body (List.replicate n (char 'x')) hbody (List.length_replicate ..)).complete_eq
        rw [hfalse, complete_replicate hsize.1] at hsame
        cases hsame
  · rintro (rfl | hapart) first second hfirst hsecond
    · rw [List.length_eq_zero_iff.mp hfirst, List.length_eq_zero_iff.mp hsecond]
      exact ⟨rfl, rfl, rfl, fun _ => rfl, fun _ => rfl, rfl⟩
    · have hheaders := @headers_eq_of_short head first second hapart.headers
      have hpath := path_eq_of_ends hapart.path hfirst hsecond
      have hverb : (parse (head.request first)).verb = (parse (head.request second)).verb := by
        rw [verb_request, verb_request]
      constructor
      · exact complete_eq_of_apart hapart.size hfirst hsecond
      · rw [parse_valid, parse_valid, hverb]
      · exact hverb
      · intro i
        rw [pathTokens, pathTokens, hpath]
      · intro name
        rw [header, header, hheaders]
      · rw [enumerateHeaders, enumerateHeaders, hheaders]

/-- `GET / HTTP/1.1` with the header `A:b` -/
def plainHead : RequestHead where
  line := literal "GET / HTTP/1.1"
  lines := [literal "A:b"]
  line_oneLine := by decide
  formed := by decide

/-- With a body, `C:d` or `E:f`, there is a header of that name. -/
theorem not_separatesBody_plain : ¬ SeparatesBody plainHead 3 := by
  intro hseparates
  have hheader := (hseparates (literal "C:d") (literal "E:f") (by decide) (by decide)).header_eq (literal "C")
  rw [header, header, parse_headers_lines, parse_headers_lines] at hheader
  have hfirst : headerIn (literal "C") (unlines [literal "A:b"] (crlf ++ literal "C:d")) = literal "d" := by
    rw [unlines_cons, headerIn_line (by decide), if_neg (by decide), unlines_nil]
    have hblank := @headerIn_line [] (literal "C:d") (literal "C") (by decide)
    rw [List.nil_append] at hblank
    rw [hblank, if_neg (by decide), headerIn, if_neg (by decide)]
    decide
  have hsecond : headerIn (literal "C") (unlines [literal "A:b"] (crlf ++ literal "E:f")) = [] := by
    rw [unlines_cons, headerIn_line (by decide), if_neg (by decide), unlines_nil]
    have hblank := @headerIn_line [] (literal "E:f") (literal "C") (by decide)
    rw [List.nil_append] at hblank
    have hnone : find crlf (literal "E:f") = none := by decide
    rw [hblank, if_neg (by decide), headerIn, if_neg (by decide)]
    simp only [upToLineBreak, hnone]
    decide
  have htake (body : BoundedString) (hbody : body.length = 3) :
      (crlf ++ body).take plainHead.line.length = crlf ++ body := by
    apply List.take_of_length_le
    rw [List.length_append, hbody]
    decide
  rw [if_neg (by decide), if_neg (by decide), htake _ (by decide), htake _ (by decide)] at hheader
  exact absurd (hfirst.symm.trans (hheader.trans hsecond)) (by decide)

end HttpRequestParser

end EmbeddedInfra.Http
