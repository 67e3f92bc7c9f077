import EmbeddedInfra.Infra.Syntax.JsonStreamingParser

set_option autoImplicit false

/-! # The streaming JSON parser does not depend on its chunks

Everything the parser needs of the characters it has read is in its members, so it could be fed one
character at a time. `Tokens.scan` and `Parser.feedCharacter` are the parser in that form;
`feedToken_eq_scan` and `feed_eq_foldlM` say that the loops of the program compute the same.
-/

namespace EmbeddedInfra.JsonStreaming

open EmbeddedInfra.Json (Text byte quote backslash isspace isdigit isalpha)

/-! ## Tokens, character by character -/

variable {c : UInt8} {rest data : Text} {bound : Nat}

namespace Tokens

variable (maxValue : Nat) (saveValue : Bool) {t u : Tokens}

/-- `FeedToken`, one character at a time. A turn on a single character either takes it or, at the end
of a number or an identifier, leaves it. -/
def scan : Tokens → Text → Option (Tokens × Text)
  | t, [] => some (t, [])
  | t, c :: data =>
      if t.tokenState = .done then some (t, c :: data)
      else
        match t.feedTurn maxValue saveValue c [] with
        | none => none
        | some (t, []) => scan t data
        | some (t, _ :: _) => some (t, c :: data)

theorem scan_done (h : t.tokenState = .done) (data : Text) :
    t.scan maxValue saveValue data = some (t, data) := by
  cases data with
  | nil => rfl
  | cons c data => rw [scan, if_pos h]

theorem scan_taken (h : t.tokenState ≠ .done)
    (hu : t.feedTurn maxValue saveValue c [] = some (u, [])) (data : Text) :
    t.scan maxValue saveValue (c :: data) = u.scan maxValue saveValue data := by
  rw [scan, if_neg h, hu]

/-- A turn on a single character leaves it, with a token found, or takes it. -/
theorem feedTurn_single (h : t.feedTurn maxValue saveValue c [] = some (u, rest)) :
    rest = [] ∨ (rest = [c] ∧ u.tokenState = .done) := by
  unfold feedTurn at h
  split at h
  all_goals try simp only [feedString, List.dropWhile_nil] at h
  all_goals try split at h
  all_goals try split at h
  all_goals simp_all [foundToken]
  all_goals grind

/-- Outside strings and white space a turn looks at one character only. -/
theorem feedTurn_append (hs : t.tokenState ≠ .stringOpen)
    (ho : t.tokenState ≠ .stringOverflowOpen) (hw : t.tokenState = .open → isspace c = false)
    (data : Text) :
    t.feedTurn maxValue saveValue c data
      = (t.feedTurn maxValue saveValue c []).map fun r => (r.1, r.2 ++ data) := by
  unfold feedTurn
  split
  all_goals try contradiction
  case h_5 h =>
      rw [hw h, if_neg Bool.false_ne_true, if_neg Bool.false_ne_true, Option.map_map]
      rfl
  all_goals try split
  all_goals try split
  all_goals rfl

theorem scan_feedTurn_of_append (hd : t.tokenState ≠ .done)
    (h : t.feedTurn maxValue saveValue c data
      = (t.feedTurn maxValue saveValue c []).map fun r => (r.1, r.2 ++ data)) :
    t.scan maxValue saveValue (c :: data)
      = (t.feedTurn maxValue saveValue c data).bind fun r => r.1.scan maxValue saveValue r.2 := by
  rw [h, scan, if_neg hd]
  match hf : t.feedTurn maxValue saveValue c [] with
  | none => rfl
  | some (u, []) => rfl
  | some (u, x :: rest) =>
      obtain hr | ⟨hr, hu⟩ := feedTurn_single maxValue saveValue hf
      · cases hr
      · rw [hr]
        exact (scan_done maxValue saveValue hu (c :: data)).symm

/-- White space in front of a token changes nothing. -/
theorem scan_dropWhile (h : t.tokenState = .open) (data : Text) :
    t.scan maxValue saveValue (data.dropWhile isspace) = t.scan maxValue saveValue data := by
  have hd : t.tokenState ≠ .done := by
    rw [h]
    decide
  induction data with
  | nil => rfl
  | cons c data ih =>
      rw [List.dropWhile_cons]
      split
      case isFalse => rfl
      case isTrue hc =>
          rw [ih, scan_taken maxValue saveValue hd]
          simp [feedTurn, h, hc]

theorem feedTurn_string (h : t.tokenState = .stringOpen ∨ t.tokenState = .stringOverflowOpen)
    (c : UInt8) (data : Text) :
    t.feedTurn maxValue saveValue c data = some (feedString maxValue saveValue t c data) := by
  obtain h | h := h <;> simp only [feedTurn, h]

/-- The loop over a string's characters takes as many of them as single turns would. -/
theorem scan_feedString (h : t.tokenState = .stringOpen ∨ t.tokenState = .stringOverflowOpen)
    (c : UInt8) (data : Text) :
    t.scan maxValue saveValue (c :: data)
      = (feedString maxValue saveValue t c data).1.scan maxValue saveValue
          (feedString maxValue saveValue t c data).2 := by
  have taken {t : Tokens} (h : t.tokenState = .stringOpen ∨ t.tokenState = .stringOverflowOpen)
      (c : UInt8) (data : Text) :
      t.scan maxValue saveValue (c :: data)
        = (t.stringCharacter maxValue saveValue c).scan maxValue saveValue data := by
    apply scan_taken
    · obtain h | h := h <;> simp [h]
    · rw [feedTurn_string maxValue saveValue h]
      rfl
  induction data generalizing t c with
  | nil => exact taken h c []
  | cons d data ih =>
      rw [taken h, feedString]
      split
      case isTrue => rfl
      case isFalse hin =>
          apply ih
          by_contra hout
          exact hin (not_or.mp hout)

/-- A turn of the loop, as single turns. -/
theorem scan_feedTurn (hd : t.tokenState ≠ .done) (c : UInt8) (data : Text) :
    t.scan maxValue saveValue (c :: data)
      = (t.feedTurn maxValue saveValue c data).bind fun r => r.1.scan maxValue saveValue r.2 := by
  by_cases hs : t.tokenState = .stringOpen ∨ t.tokenState = .stringOverflowOpen
  · rw [scan_feedString maxValue saveValue hs, feedTurn_string maxValue saveValue hs]
    rfl
  · rw [not_or] at hs
    by_cases hw : t.tokenState = .open ∧ isspace c = true
    · have single : ∀ data, t.feedTurn maxValue saveValue c data = some (t, data.dropWhile isspace) := by
        intro data
        simp [feedTurn, hw]
      rw [single data, scan_taken maxValue saveValue hd (single []), Option.bind_some,
        scan_dropWhile maxValue saveValue hw.1]
    · apply scan_feedTurn_of_append maxValue saveValue hd
      apply feedTurn_append maxValue saveValue hs.1 hs.2
      intro ho
      simpa [ho] using hw

theorem length_feedString (t : Tokens) (c : UInt8) (data : Text) :
    (feedString maxValue saveValue t c data).2.length ≤ data.length := by
  induction data generalizing t c with
  | nil => exact le_refl _
  | cons d data ih =>
      rw [feedString]
      split
      · exact le_refl _
      · exact (ih _ _).trans (Nat.le_succ _)

/-- A turn takes a character or finds a token. -/
theorem feedTurn_shorter (h : t.feedTurn maxValue saveValue c data = some (u, rest)) :
    rest.length ≤ data.length ∨ u.tokenState = .done := by
  by_cases hs : t.tokenState = .stringOpen ∨ t.tokenState = .stringOverflowOpen
  · rw [feedTurn_string maxValue saveValue hs, Option.some.injEq] at h
    have := length_feedString maxValue saveValue t c data
    rw [h] at this
    exact .inl this
  · rw [not_or] at hs
    by_cases hw : t.tokenState = .open ∧ isspace c = true
    · simp only [feedTurn, hw, if_true, Option.some.injEq, Prod.mk.injEq] at h
      left
      rw [← h.2]
      exact (List.dropWhile_sublist _).length_le
    · rw [feedTurn_append maxValue saveValue hs.1 hs.2 (by intro ho; simpa [ho] using hw)] at h
      obtain ⟨⟨v, r⟩, hv, he⟩ := Option.map_eq_some_iff.mp h
      cases he
      obtain rfl | ⟨-, hu⟩ := feedTurn_single maxValue saveValue hv
      · exact .inl (le_refl _)
      · exact .inr hu

theorem feedTokenLoop_done (h : t.tokenState = .done) (bound : Nat) (data : Text) :
    t.feedTokenLoop maxValue saveValue bound data = some (t, data) := by
  cases data with
  | nil => cases bound <;> rfl
  | cons c data =>
      cases bound with
      | zero => rfl
      | succ bound => rw [feedTokenLoop, if_pos h]

theorem feedTokenLoop_eq_scan (h : data.length < bound) :
    t.feedTokenLoop maxValue saveValue bound data = t.scan maxValue saveValue data := by
  induction bound generalizing t data with
  | zero => omega
  | succ bound ih =>
      cases data with
      | nil => rfl
      | cons c data =>
          rw [List.length_cons] at h
          unfold feedTokenLoop
          by_cases hd : t.tokenState = .done
          · rw [if_pos hd, scan_done maxValue saveValue hd]
          · rw [if_neg hd, scan_feedTurn maxValue saveValue hd]
            show Option.bind _ _ = Option.bind _ _
            cases hf : t.feedTurn maxValue saveValue c data with
            | none => rfl
            | some r =>
                obtain ⟨u, rest⟩ := r
                dsimp only [Option.bind_some]
                obtain hr | hu := feedTurn_shorter maxValue saveValue hf
                · exact ih (by omega)
                · rw [scan_done maxValue saveValue hu, feedTokenLoop_done maxValue saveValue hu]

/-- `FeedToken` can be fed one character at a time. -/
theorem feedToken_eq_scan (t : Tokens) (data : Text) :
    t.feedToken maxValue saveValue data = t.scan maxValue saveValue data :=
  feedTokenLoop_eq_scan maxValue saveValue (Nat.lt_succ_self _)

/-- Without a token the data is used up; between tokens, some of it is. -/
theorem scan_shorter (h : t.scan maxValue saveValue data = some (u, rest)) :
    (u.tokenState ≠ .done → rest = []) ∧ rest.length ≤ data.length
      ∧ (t.tokenState = .open → data ≠ [] → rest.length < data.length) := by
  induction data generalizing t with
  | nil =>
      cases h
      exact ⟨fun _ => rfl, le_refl _, fun _ h => absurd rfl h⟩
  | cons c data ih =>
      by_cases hd : t.tokenState = .done
      · rw [scan_done maxValue saveValue hd] at h
        cases h
        exact ⟨fun h => absurd hd h, le_refl _, fun h => by simp [h] at hd⟩
      · rw [scan, if_neg hd] at h
        match hf : t.feedTurn maxValue saveValue c [] with
        | none =>
            rw [hf] at h
            cases h
        | some (v, []) =>
            rw [hf] at h
            obtain ⟨hu, hl, -⟩ := ih h
            exact ⟨hu, hl.trans (Nat.le_succ _), fun _ _ => Nat.lt_succ_of_le hl⟩
        | some (v, x :: r) =>
            rw [hf] at h
            cases h
            obtain hr | ⟨-, hu⟩ := feedTurn_single maxValue saveValue hf
            · cases hr
            · refine ⟨fun h => absurd hu h, le_refl _, fun ho => ?_⟩
              exfalso
              rw [feedTurn, ho] at hf
              dsimp only at hf
              split at hf
              · cases hf
              · obtain ⟨w, -, hw⟩ := Option.map_eq_some_iff.mp hf
                cases hw

end Tokens

/-! ## The stack, character by character -/

section

variable {ν : Type} (respond : List (Callback ν) → Response ν)

namespace Parser

/-- No parser of the stack is inside a token. -/
def allOpen (p : Parser ν) : Bool := p.subObjects.all fun sub => sub.tokens.tokenState = .open

/-- Where a parser can be between two characters: only the parser on top may be inside a token, and it
has dealt with every token it has found. -/
def Ready (p : Parser ν) : Prop :=
  (∀ sub ∈ p.subObjects.head?, sub.tokens.tokenState ≠ .done)
    ∧ ∀ sub ∈ p.subObjects.tail, sub.tokens.tokenState = .open

theorem allOpen_iff (p : Parser ν) :
    p.allOpen = true ↔ ∀ sub ∈ p.subObjects, sub.tokens.tokenState = .open := by
  simp [allOpen]

variable {p : Parser ν}

theorem ready_of_allOpen (h : p.allOpen = true) : p.Ready := by
  rw [allOpen_iff] at h
  constructor
  · intro sub hsub
    simp [h sub (List.mem_of_mem_head? hsub)]
  · intro sub hsub
    exact h sub (List.mem_of_mem_tail hsub)

/-- A call of `SemanticError` leaves everything but the state alone. -/
theorem map_raise {β : Type} {g : SubParser ν → β} (hg : ∀ sub, g sub.semanticError = g sub)
    (subs : List (SubParser ν)) (positions : List Nat) : (raise subs positions).map g = subs.map g := by
  induction positions generalizing subs with
  | nil => rfl
  | cons i positions ih =>
      rw [raise, List.foldl_cons]
      refine (ih _).trans ?_
      split
      · apply List.ext_getElem
        · simp
        · intro j h₁ h₂
          simp only [List.getElem_map, List.getElem_modify]
          split
          · exact hg _
          · rfl
      · rfl

theorem map_tokens_raise (subs : List (SubParser ν)) (positions : List Nat) :
    (raise subs positions).map (·.tokens) = subs.map (·.tokens) := map_raise (fun _ => rfl) _ _

theorem map_tokens_call (p : Parser ν) (visitor : ν) (event : Event) :
    (p.call respond visitor event).1.subObjects.map (·.tokens) = p.subObjects.map (·.tokens) :=
  map_tokens_raise _ _

/-- The tokens of the parsers below the top. -/
def lower (p : Parser ν) : List Tokens := p.subObjects.tail.map (·.tokens)

theorem lower_call (p : Parser ν) (visitor : ν) (event : Event) :
    (p.call respond visitor event).1.lower = p.lower := by
  have h := map_tokens_call respond p visitor event
  unfold lower
  rw [List.map_tail, List.map_tail, h]

theorem lower_of_ready (h : p.Ready) : ∀ t ∈ p.lower, t.tokenState = .open := by
  intro t ht
  obtain ⟨s, hs, rfl⟩ := List.mem_map.mp ht
  exact h.2 s hs

/-- What a token may lead to: `Feed` goes on with the same parsers below the top, or it returns and no
parser is inside a token. -/
def Settles (p : Parser ν) (r : Handled ν) : Prop :=
  (r.2 = false ∧ r.1.lower = p.lower)
    ∨ (r.2 = true ∧ ((∀ t ∈ p.lower, t.tokenState = .open) → r.1.allOpen = true))

theorem settles_become (p : Parser ν) (sub : SubParser ν) (state : State) :
    p.Settles (p.become sub state) :=
  .inl ⟨rfl, rfl⟩

theorem settles_visit (p : Parser ν) (sub : SubParser ν) (event : Event) (clearTag : Bool) :
    p.Settles (p.visit respond sub event clearTag) :=
  .inl ⟨rfl, lower_call respond _ _ _⟩

theorem settles_skip (p : Parser ν) (sub : SubParser ν) (left right : Token) :
    p.Settles (p.skip sub left right) := by
  unfold skip
  split
  · split
    · exact settles_become p sub .closed
    · exact .inl ⟨rfl, rfl⟩
  · split
    · exact .inl ⟨rfl, rfl⟩
    · exact .inl ⟨rfl, rfl⟩

theorem settles_close (p : Parser ν) (sub : SubParser ν) : p.Settles (p.close respond sub) := by
  right
  refine ⟨rfl, fun h => ?_⟩
  rw [allOpen_iff]
  intro s hs
  apply h
  rw [← lower_call respond p sub.visitor .close]
  exact List.mem_map_of_mem hs

theorem clearTag_tokens (sub : SubParser ν) : (enterNested.clearTag sub).tokens = sub.tokens := by
  unfold enterNested.clearTag
  split <;> rfl

/-- The new parser is open and so is its parent, whether the new one stays or not. -/
theorem allOpen_enterNested (h : p.allOpen = true) (nested : Option ν) (skip : State) :
    (p.enterNested nested skip).allOpen = true := by
  rw [allOpen_iff] at h ⊢
  unfold enterNested
  split
  case h_1 child parent outer visitor he =>
      intro s hs
      rw [he] at h
      simp only [List.mem_cons] at hs
      obtain rfl | rfl | hs := hs
      · exact h child (by simp)
      · rw [clearTag_tokens]
        exact h parent (by simp)
      · exact h s (by simp [hs])
  case h_2 child parent outer he =>
      intro s hs
      rw [he] at h
      simp only [List.mem_cons] at hs
      obtain rfl | hs := hs
      · rw [clearTag_tokens]
        exact h parent (by simp)
      · exact h s (by simp [hs])
  case h_3 => exact h

variable {q : Parser ν} {tokens : Tokens} {sub : SubParser ν}

theorem allOpen_of_map_eq
    (h : p.subObjects.map (·.tokens) = q.subObjects.map (·.tokens)) : p.allOpen = q.allOpen := by
  have key : ∀ p : Parser ν, p.allOpen
      = (p.subObjects.map (·.tokens)).all fun t => t.tokenState = .open := by
    intro p
    rw [allOpen, List.all_map]
    rfl
  rw [key, key, h]

theorem settles_nest (p : Parser ν) (sub : SubParser ν) (kind : Kind) (event : Event) (skip : State) :
    p.Settles (p.nest respond sub kind event skip) := by
  unfold nest
  dsimp only
  have below (h : ∀ t ∈ p.lower, t.tokenState = .open) :
      ∀ s ∈ p.subObjects.tail, s.tokens.tokenState = .open :=
    fun s hs => h s.tokens (List.mem_map_of_mem hs)
  right
  split
  · refine ⟨rfl, fun h => ?_⟩
    rw [allOpen_iff]
    intro s hs
    simp only [setBack, List.mem_cons] at hs
    obtain rfl | hs := hs
    · rw [clearTag_tokens]
    · exact below h s hs
  · refine ⟨rfl, fun h => ?_⟩
    apply allOpen_enterNested
    rw [allOpen_of_map_eq (map_tokens_call respond _ _ _), allOpen_iff]
    intro s hs
    simp only [setBack, List.mem_cons] at hs
    obtain rfl | rfl | hs := hs
    · rfl
    · rfl
    · exact below h s hs

theorem ite_cases {motive : Handled ν → Prop} {c : Prop} [Decidable c] {r q : Handled ν}
    (hr : c → motive r) (hq : motive q) : motive (if c then r else q) := by
  split
  case isTrue h => exact hr h
  case isFalse => exact hq

/-- What a token leads to: the two functions end in one of five ways. -/
theorem handleToken_cases (p : Parser ν) (sub : SubParser ν) {motive : Handled ν → Prop}
    (become : ∀ s state, s.tokens = sub.tokens → motive (p.become s state))
    (visit : ∀ event clearTag, motive (p.visit respond sub event clearTag))
    (nest : sub.tokens.token = .leftBrace ∨ sub.tokens.token = .leftBracket →
      ∀ kind event skip, motive (p.nest respond sub kind event skip))
    (close : ∀ q : Parser ν, q.lower = p.lower → motive (q.close respond sub))
    (skip : ∀ left right, motive (p.skip sub left right)) :
    motive (p.handleToken respond sub) := by
  unfold handleToken
  split
  · unfold handleObjectToken
    repeat' first
      | exact become _ _ rfl | exact visit _ _ | exact close _ rfl | exact skip _ _
      | exact nest (.inl h.2) _ _ _ | exact nest (.inr h.2) _ _ _
      | refine ite_cases (fun h => ?_) ?_
  · unfold handleArrayToken
    repeat' first
      | exact become _ _ rfl | exact visit _ _ | exact close _ rfl | exact skip _ _
      | exact nest (.inl h.2) _ _ _ | exact nest (.inr h.2) _ _ _
      | refine ite_cases (fun h => ?_) ?_

theorem settles_handleToken (p : Parser ν) (sub : SubParser ν) :
    p.Settles (p.handleToken respond sub) := by
  apply handleToken_cases
  case become => exact fun s state _ => settles_become p s state
  case visit => exact settles_visit respond p sub
  case nest => exact fun _ => settles_nest respond p sub
  case close =>
      intro q hq
      rw [Settles, ← hq]
      exact settles_close respond q sub
  case skip => exact settles_skip p sub

/-- The report of the error that the parser on top is in, if it is. -/
def settle (p : Parser ν) : Result ν (Parser ν) := do return (← p.exitFeed respond []).1

/-- The parser on top has read some characters, after which these are its tokens. -/
def finish (p : Parser ν) (sub : SubParser ν) (tokens : Tokens) : Result ν (Parser ν) :=
  let sub := { sub with tokens := tokens }
  let p := p.setBack sub
  if tokens.tokenState ≠ .done then return p
  else
    let (p, returned) := p.handleToken respond sub
    if returned then return p else p.nextToken.settle respond

/-- The parser on top is given a character. The second part of the result says whether it took it. -/
def turn (p : Parser ν) (c : UInt8) : Result ν (Parser ν × Bool) :=
  match p.subObjects with
  | [] => return (p, true)
  | sub :: _ =>
      if sub.failed then do return (← p.settle respond, true)
      else
        match sub.tokens.scan p.maxValue sub.saveValue [c] with
        | none => throw p.history
        | some (tokens, rest) => do return (← p.finish respond sub tokens, rest = [])

/-- `Feed` of a single character: one that ends a number or an identifier is given twice. -/
def feedCharacter (p : Parser ν) (c : UInt8) : Result ν (Parser ν) := do
  let (p, taken) ← p.turn respond c
  if taken then return p else return (← p.turn respond c).1

theorem exitFeed_of_not_failed (h : ∀ sub ∈ p.subObjects.head?, sub.failed = false)
    (data : Text) : p.exitFeed respond data = .ok (p, data) := by
  unfold exitFeed
  split
  case h_1 he | h_2 he =>
      rw [he] at h
      simp [SubParser.failed] at h
  case h_3 => rfl

theorem settle_of_not_failed (h : ∀ sub ∈ p.subObjects.head?, sub.failed = false) :
    p.settle respond = .ok p := by
  rw [settle, exitFeed_of_not_failed respond h]
  rfl

theorem reportParseError_subObjects (h : p.reportParseError respond = .ok q) :
    q.subObjects = [] := by
  unfold reportParseError at h
  dsimp only at h
  split at h
  · cases h
  · cases h
    rfl

theorem settle_subObjects (h : p.settle respond = .ok q) : q = p ∨ q.subObjects = [] := by
  unfold settle exitFeed at h
  split at h
  · cases hr : p.reportParseError respond with
    | error e =>
        rw [hr] at h
        cases h
    | ok r =>
        rw [hr] at h
        cases h
        exact .inr (reportParseError_subObjects respond hr)
  · cases h
    exact .inr rfl
  · cases h
    exact .inl rfl

theorem feedCharacter_of_nil (h : p.subObjects = []) (c : UInt8) :
    p.feedCharacter respond c = .ok p := by
  unfold feedCharacter turn
  rw [h]
  rfl

/-- After an error, and after the end of the document, the rest of the data is ignored. -/
theorem foldlM_of_nil (h : p.subObjects = []) (data : Text) :
    data.foldlM (feedCharacter respond) p = .ok p := by
  induction data with
  | nil => rfl
  | cons c data ih =>
      rw [List.foldlM_cons, feedCharacter_of_nil respond h]
      exact ih

theorem exitFeed_bind (p : Parser ν) (data : Text) :
    (p.exitFeed respond data >>= fun r => r.2.foldlM (feedCharacter respond) r.1)
      = p.settle respond >>= data.foldlM (feedCharacter respond) := by
  unfold settle exitFeed
  split
  · cases hr : p.reportParseError respond with
    | error e => rfl
    | ok q => exact (foldlM_of_nil respond (reportParseError_subObjects respond hr) data).symm
  · exact (foldlM_of_nil respond rfl data).symm
  · rfl

/-- A parser with an error reports it as soon as there is more data. -/
theorem settle_bind (hd : data ≠ []) :
    (p.settle respond >>= data.foldlM (feedCharacter respond))
      = data.foldlM (feedCharacter respond) p := by
  match data, hd with
  | c :: data, _ =>
      by_cases hf : ∀ sub ∈ p.subObjects.head?, sub.failed = false
      · rw [settle_of_not_failed respond hf]
        rfl
      · match hp : p.subObjects with
        | [] => simp [hp] at hf
        | sub :: outer =>
            have hsub : sub.failed = true := by simpa [hp] using hf
            have hc : p.feedCharacter respond c = p.settle respond := by
              unfold feedCharacter turn
              rw [hp]
              dsimp only
              rw [if_pos hsub]
              cases p.settle respond <;> rfl
            rw [List.foldlM_cons, hc]
            cases hs : p.settle respond with
            | error e => rfl
            | ok q =>
                obtain rfl | hq := settle_subObjects respond hs
                · show List.foldlM (feedCharacter respond) q (c :: data) = _
                  rw [List.foldlM_cons, hc, hs]
                · show List.foldlM (feedCharacter respond) q (c :: data)
                    = List.foldlM (feedCharacter respond) q data
                  rw [foldlM_of_nil respond hq, foldlM_of_nil respond hq]

theorem allOpen_nextToken (h : ∀ t ∈ p.lower, t.tokenState = .open) :
    p.nextToken.allOpen = true := by
  rw [allOpen_iff]
  unfold nextToken
  split
  case h_1 hp => simp [hp]
  case h_2 sub outer hp =>
      intro s hs
      simp only [List.mem_cons] at hs
      obtain rfl | hs := hs
      · rfl
      · apply h
        rw [lower, hp]
        exact List.mem_map_of_mem hs

theorem allOpen_settle (h : p.allOpen = true) (hq : p.settle respond = .ok q) :
    q.allOpen = true := by
  obtain rfl | hq := settle_subObjects respond hq
  · exact h
  · rw [allOpen, hq]
    rfl

/-- A token that was found is dealt with: no parser is inside a token then. -/
theorem allOpen_handled (h : ∀ t ∈ p.lower, t.tokenState = .open) (sub : SubParser ν) :
    (if (p.handleToken respond sub).2 then (p.handleToken respond sub).1
      else (p.handleToken respond sub).1.nextToken).allOpen = true := by
  obtain ⟨hr, hl⟩ | ⟨hr, ho⟩ := settles_handleToken respond p sub
  · rw [hr, if_neg Bool.false_ne_true]
    apply allOpen_nextToken
    rw [hl]
    exact h
  · rw [hr, if_pos rfl]
    exact ho h

theorem allOpen_finish (h : ∀ t ∈ p.lower, t.tokenState = .open) (hd : tokens.tokenState = .done)
    (hq : p.finish respond sub tokens = .ok q) : q.allOpen = true := by
  have key := allOpen_handled respond (p := p.setBack { sub with tokens := tokens }) h
    { sub with tokens := tokens }
  unfold finish at hq
  simp only [hd, ne_eq, not_true_eq_false, if_false] at hq
  split at hq
  case isTrue hr =>
      cases hq
      rw [if_pos hr] at key
      exact key
  case isFalse hr =>
      rw [if_neg hr] at key
      exact allOpen_settle respond key hq

/-- Between tokens a character is always taken. -/
theorem turn_taken {r : Parser ν × Bool} (h : p.allOpen = true)
    (hr : p.turn respond c = .ok r) : r.2 = true := by
  unfold turn at hr
  split at hr
  case h_1 =>
      cases hr
      rfl
  case h_2 sub outer hp =>
      have hopen : sub.tokens.tokenState = .open := by
        rw [allOpen_iff, hp] at h
        exact h sub (by simp)
      split at hr
      · cases hs : p.settle respond with
        | error e =>
            rw [hs] at hr
            cases hr
        | ok q =>
            rw [hs] at hr
            cases hr
            rfl
      · split at hr
        · cases hr
        case h_2 tokens rest hscan =>
            obtain ⟨-, -, hl⟩ := Tokens.scan_shorter _ _ hscan
            have hrest : rest = [] :=
              List.length_eq_zero_iff.mp (Nat.lt_one_iff.mp (hl hopen (List.cons_ne_nil _ _)))
            cases hf : p.finish respond sub tokens with
            | error e =>
                rw [hf] at hr
                cases hr
            | ok q =>
                rw [hf] at hr
                cases hr
                simp [hrest]

theorem feedCharacter_of_allOpen (h : p.allOpen = true) (c : UInt8) :
    p.feedCharacter respond c = p.turn respond c >>= fun r => pure r.1 := by
  unfold feedCharacter
  cases hr : p.turn respond c with
  | error e => rfl
  | ok r =>
      have ht := turn_taken respond h hr
      show (if r.2 then _ else _) = _
      rw [if_pos ht]
      rfl

/-- What follows from the tokens that the parser on top has read and the data that is left. -/
def resume (p : Parser ν) (sub : SubParser ν) : Option (Tokens × Text) → Result ν (Parser ν)
  | none => throw p.history
  | some (tokens, rest) => p.finish respond sub tokens >>= rest.foldlM (feedCharacter respond)

section

variable {p : Parser ν} {sub : SubParser ν} {outer : List (SubParser ν)}

theorem resume_setBack (r : Option (Tokens × Text)) :
    (p.setBack { sub with tokens := tokens }).resume respond { sub with tokens := tokens } r
      = p.resume respond sub r := by
  cases r <;> rfl

section

variable (hp : p.subObjects = sub :: outer)
include hp

theorem turn_eq (hf : sub.failed = false) (c : UInt8) :
    p.turn respond c = match sub.tokens.scan p.maxValue sub.saveValue [c] with
      | none => throw p.history
      | some (tokens, rest) => do return (← p.finish respond sub tokens, rest = []) := by
  unfold turn
  rw [hp]
  simp only [hf, Bool.false_eq_true, if_false]

theorem feedCharacter_abort (hf : sub.failed = false)
    (hs : sub.tokens.scan p.maxValue sub.saveValue [c] = none) :
    p.feedCharacter respond c = throw p.history := by
  rw [feedCharacter, turn_eq respond hp hf, hs]
  rfl

theorem feedCharacter_taken (hf : sub.failed = false)
    (hs : sub.tokens.scan p.maxValue sub.saveValue [c] = some (tokens, [])) :
    p.feedCharacter respond c = p.finish respond sub tokens := by
  rw [feedCharacter, turn_eq respond hp hf, hs]
  dsimp only
  cases p.finish respond sub tokens <;> rfl

/-- The character after a number or an identifier is given to the parser once more. -/
theorem feedCharacter_left (hready : p.Ready)
    (hf : sub.failed = false) (hd : tokens.tokenState = .done)
    (hs : sub.tokens.scan p.maxValue sub.saveValue [c] = some (tokens, [c])) :
    p.feedCharacter respond c = p.finish respond sub tokens >>= fun q => q.feedCharacter respond c := by
  rw [feedCharacter, turn_eq respond hp hf, hs]
  dsimp only
  cases hq : p.finish respond sub tokens with
  | error e => rfl
  | ok q =>
      have hopen := allOpen_finish respond (lower_of_ready hready) hd hq
      show (do return (← q.turn respond c).1) = q.feedCharacter respond c
      rw [feedCharacter_of_allOpen respond hopen]

end

theorem finish_of_not_done (h : tokens.tokenState ≠ .done) :
    p.finish respond sub tokens = .ok (p.setBack { sub with tokens := tokens }) := by
  rw [finish]
  simp only [ne_eq, h, not_false_eq_true, if_true]
  rfl

theorem ready_setBack (hready : p.Ready) (s : SubParser ν) (h : s.tokens.tokenState ≠ .done) :
    (p.setBack s).Ready := by
  refine ⟨?_, hready.2⟩
  intro t ht
  cases ht
  exact h

/-- The parser on top reads as long as it can, and deals with what it has found. -/
theorem foldlM_feedCharacter (hp : p.subObjects = sub :: outer) (hready : p.Ready)
    (hf : sub.failed = false) (hd : data ≠ []) :
    data.foldlM (feedCharacter respond) p
      = p.resume respond sub (sub.tokens.scan p.maxValue sub.saveValue data) := by
  induction data generalizing p sub with
  | nil => exact absurd rfl hd
  | cons c data ih =>
      have hnd : sub.tokens.tokenState ≠ .done := hready.1 sub (by rw [hp]; rfl)
      rw [List.foldlM_cons]
      match hft : sub.tokens.feedTurn p.maxValue sub.saveValue c [] with
      | none =>
          have hs (data : Text) : sub.tokens.scan p.maxValue sub.saveValue (c :: data) = none := by
            rw [Tokens.scan, if_neg hnd, hft]
          rw [feedCharacter_abort respond hp hf (hs []), hs]
          rfl
      | some (u, []) =>
          have hs := Tokens.scan_taken _ _ hnd hft
          rw [feedCharacter_taken respond hp hf (hs []), hs]
          by_cases hu : u.tokenState = .done
          · rw [Tokens.scan_done _ _ hu]
            rfl
          · rw [finish_of_not_done respond hu]
            cases data with
            | nil =>
                show _ = p.finish respond sub u >>= _
                rw [finish_of_not_done respond hu]
            | cons d data =>
                have hback : (p.setBack { sub with tokens := u }).subObjects
                    = { sub with tokens := u } :: outer := by
                  rw [setBack, hp]
                  rfl
                exact (ih hback (ready_setBack hready _ hu) hf (List.cons_ne_nil _ _)).trans
                  (resume_setBack respond _)
      | some (u, x :: rest) =>
          obtain hr | ⟨-, hu⟩ := Tokens.feedTurn_single _ _ hft
          · cases hr
          · have hs (data : Text) : sub.tokens.scan p.maxValue sub.saveValue (c :: data)
                = some (u, c :: data) := by
              rw [Tokens.scan, if_neg hnd, hft]
            rw [feedCharacter_left respond hp hready hf hu (hs []), hs]
            show _ = p.finish respond sub u >>= _
            cases p.finish respond sub u <;> rfl

end

/-! ## The loops of the program -/

/-- `Feed` of the parser on top, and the characters it leaves, given one by one. -/
theorem subFeed_bind (bound : Nat) (hready : p.Ready) (data : Text) :
    (p.subFeed respond bound data >>= fun r => r.2.foldlM (feedCharacter respond) r.1)
      = p.settle respond >>= data.foldlM (feedCharacter respond) := by
  induction bound generalizing p data with
  | zero => exact exitFeed_bind respond p data
  | succ bound ih =>
      unfold subFeed
      match hp : p.subObjects with
      | [] =>
          rw [settle_of_not_failed respond (by simp [hp])]
          rfl
      | sub :: outer =>
          dsimp only
          split
          case isTrue => exact exitFeed_bind respond p data
          case isFalse hgo =>
              rw [not_or, Bool.not_eq_true] at hgo
              have hf : ∀ s ∈ p.subObjects.head?, s.failed = false := by
                rw [hp]
                intro s hs
                cases hs
                exact hgo.2
              rw [settle_of_not_failed respond hf, Tokens.feedToken_eq_scan]
              refine Eq.trans ?_ (foldlM_feedCharacter respond hp hready hgo.2 hgo.1).symm
              match sub.tokens.scan p.maxValue sub.saveValue data with
              | none => rfl
              | some (tokens, rest) =>
                  dsimp only [resume]
                  by_cases hd : tokens.tokenState = .done
                  · have hopen := allOpen_handled respond
                      (p := p.setBack { sub with tokens := tokens }) (lower_of_ready (p := p) hready)
                      { sub with tokens := tokens }
                    unfold finish
                    simp only [hd, ne_eq, not_true_eq_false, if_false]
                    split
                    case isTrue => rfl
                    case isFalse hr =>
                        rw [if_neg hr] at hopen
                        exact ih (ready_of_allOpen hopen) rest
                  · rw [if_pos hd, finish_of_not_done respond hd, exitFeed_of_not_failed]
                    · rfl
                    · intro s hs
                      cases hs
                      exact hgo.2

/-- How many turns the loop of `Feed` may still take. -/
def turnsLeft (p : Parser ν) (data : Text) : Nat := 2 * data.length + if p.allOpen then 0 else 1

theorem turnsLeft_of_allOpen (h : p.allOpen = true) (data : Text) :
    p.turnsLeft data = 2 * data.length := by
  rw [turnsLeft, if_pos h]
  rfl

theorem two_mul_length_le_turnsLeft (p : Parser ν) (data : Text) : 2 * data.length ≤ p.turnsLeft data :=
  Nat.le_add_right _ _

variable {r : Parser ν × Text}

/-- The report of an error empties the stack, and takes the rest of the data. -/
theorem exitFeed_of_failed {outer : List (SubParser ν)}
    (hp : p.subObjects = sub :: outer) (hf : sub.failed = true)
    (h : p.exitFeed respond data = .ok r) : r.1.subObjects = [] ∧ r.2 = [] := by
  obtain ⟨kind, visitor, state, tagBuffer, skipSubObjects, tokens⟩ := sub
  simp only [SubParser.failed, decide_eq_true_eq] at hf
  unfold exitFeed at h
  rw [hp] at h
  obtain rfl | rfl := hf
  · dsimp only at h
    cases hr : p.reportParseError respond with
    | error e =>
        rw [hr] at h
        cases h
    | ok q =>
        rw [hr] at h
        cases h
        exact ⟨reportParseError_subObjects respond hr, rfl⟩
  · cases h
    exact ⟨rfl, rfl⟩

theorem ready_of_nil (h : p.subObjects = []) : p.Ready ∧ p.turnsLeft [] = 0 := by
  have ho : p.allOpen = true := by
    rw [allOpen, h]
    rfl
  exact ⟨ready_of_allOpen ho, turnsLeft_of_allOpen ho []⟩

/-- After the loop of a sub-parser's `Feed`, everything is as it was or nothing is left to do. -/
theorem exitFeed_ready (hready : p.Ready) (h : p.exitFeed respond data = .ok r) :
    r.1.Ready ∧ (r = (p, data) ∨ r.1.turnsLeft r.2 = 0) := by
  by_cases hf : ∀ sub ∈ p.subObjects.head?, sub.failed = false
  · rw [exitFeed_of_not_failed respond hf] at h
    cases h
    exact ⟨hready, .inl rfl⟩
  · match hp : p.subObjects with
    | [] => simp [hp] at hf
    | sub :: outer =>
        have hsub : sub.failed = true := by simpa [hp] using hf
        obtain ⟨hr, hd⟩ := exitFeed_of_failed respond hp hsub h
        rw [hd]
        exact ⟨(ready_of_nil hr).1, .inr (ready_of_nil hr).2⟩

/-- One turn of a sub-parser's loop that found a token. -/
theorem turnsLeft_handled {outer : List (SubParser ν)}
    (hp : p.subObjects = sub :: outer) (hd : data ≠ [])
    (hs : sub.tokens.scan p.maxValue sub.saveValue data = some (tokens, rest)) :
    2 * rest.length < p.turnsLeft data := by
  obtain ⟨-, hle, hlt⟩ := Tokens.scan_shorter _ _ hs
  unfold turnsLeft
  split
  case isTrue ho =>
      rw [allOpen_iff, hp] at ho
      have := hlt (ho sub (by simp)) hd
      omega
  case isFalse => omega

/-- `Feed` of the parser on top leaves the loop around it no more to do than before. -/
theorem subFeed_le (hready : p.Ready) (h : p.subFeed respond bound data = .ok r) :
    r.1.Ready ∧ r.1.turnsLeft r.2 ≤ p.turnsLeft data
      ∧ (0 < bound → data ≠ [] → p.subObjects ≠ [] → r.1.turnsLeft r.2 < p.turnsLeft data) := by
  induction bound generalizing p data with
  | zero =>
      obtain ⟨hr, rfl | h0⟩ := exitFeed_ready respond hready h
      · exact ⟨hr, le_refl _, fun h => absurd h (lt_irrefl 0)⟩
      · exact ⟨hr, by omega, fun h => absurd h (lt_irrefl 0)⟩
  | succ bound ih =>
      have many (hd : data ≠ []) : 2 ≤ p.turnsLeft data := by
        have := two_mul_length_le_turnsLeft p data
        have := List.length_pos_iff.mpr hd
        omega
      unfold subFeed at h
      match hp : p.subObjects with
      | [] =>
          rw [hp] at h
          cases h
          exact ⟨hready, le_refl _, fun _ _ h => absurd rfl h⟩
      | sub :: outer =>
          rw [hp] at h
          dsimp only at h
          split at h
          case isTrue hstop =>
              obtain ⟨hr, he⟩ := exitFeed_ready respond hready h
              refine ⟨hr, ?_, fun _ hd _ => ?_⟩
              · obtain rfl | h0 := he
                · exact le_refl _
                · omega
              · obtain ⟨hq, hrest⟩ :=
                  exitFeed_of_failed respond hp (hstop.resolve_left hd) h
                have := (ready_of_nil hq).2
                have := many hd
                rw [hrest]
                omega
          case isFalse hgo =>
              rw [not_or] at hgo
              rw [Tokens.feedToken_eq_scan] at h
              match hscan : sub.tokens.scan p.maxValue sub.saveValue data with
              | none =>
                  rw [hscan] at h
                  cases h
              | some (tokens, rest) =>
                  rw [hscan] at h
                  dsimp only at h
                  have hlt := turnsLeft_handled hp hgo.1 hscan
                  suffices hw : r.1.Ready ∧ r.1.turnsLeft r.2 < p.turnsLeft data from
                    ⟨hw.1, hw.2.le, fun _ _ _ => hw.2⟩
                  by_cases hd : tokens.tokenState = .done
                  · have hopen := allOpen_handled respond
                      (p := p.setBack { sub with tokens := tokens }) (lower_of_ready (p := p) hready)
                      { sub with tokens := tokens }
                    simp only [hd, ne_eq, not_true_eq_false, if_false] at h
                    split at h
                    case isTrue hr =>
                        rw [if_pos hr] at hopen
                        cases h
                        refine ⟨ready_of_allOpen hopen, ?_⟩
                        rw [turnsLeft_of_allOpen hopen]
                        exact hlt
                    case isFalse hr =>
                        rw [if_neg hr] at hopen
                        obtain ⟨hready', hle, -⟩ := ih (ready_of_allOpen hopen) h
                        rw [turnsLeft_of_allOpen hopen] at hle
                        exact ⟨hready', hle.trans_lt hlt⟩
                  · rw [if_pos hd] at h
                    obtain ⟨hr, he⟩ := exitFeed_ready respond
                      (ready_setBack hready { sub with tokens := tokens } hd) h
                    refine ⟨hr, ?_⟩
                    have hempty := (Tokens.scan_shorter _ _ hscan).1 hd
                    have := many hgo.1
                    obtain rfl | h0 := he
                    · rw [hempty, turnsLeft]
                      split <;> simp <;> omega
                    · omega

/-- The loop of `Feed` is the parser fed one character at a time. -/
theorem feedLoop_eq_foldlM (hready : p.Ready) (hb : p.turnsLeft data ≤ bound) :
    feedLoop respond bound p data = data.foldlM (feedCharacter respond) p
      ∧ ∀ q, feedLoop respond bound p data = .ok q → q.Ready := by
  induction bound generalizing p data with
  | zero =>
      have hd : data = [] := by
        have := two_mul_length_le_turnsLeft p data
        apply List.length_eq_zero_iff.mp
        omega
      subst hd
      refine ⟨rfl, fun q hq => ?_⟩
      cases hq
      exact hready
  | succ bound ih =>
      unfold feedLoop
      split
      case isTrue hstop =>
          refine ⟨?_, fun q hq => ?_⟩
          · obtain rfl | hp := hstop
            · rfl
            · exact (foldlM_of_nil respond hp data).symm
          · cases hq
            exact hready
      case isFalse hgo =>
          rw [not_or] at hgo
          rw [← settle_bind respond hgo.1, ← subFeed_bind respond (2 * data.length + 2) hready]
          cases hr : p.subFeed respond (2 * data.length + 2) data with
          | error e => exact ⟨rfl, fun q hq => by cases hq⟩
          | ok r =>
              obtain ⟨hready', -, hlt⟩ := subFeed_le respond hready hr
              have hlt := hlt (by omega) hgo.1 hgo.2
              exact ih hready' (by omega)

/-- `JsonStreamingObjectParser::Feed` is the parser fed one character at a time. -/
theorem feed_eq_foldlM (hready : p.Ready) (data : Text) :
    p.feed respond data = data.foldlM (feedCharacter respond) p
      ∧ ∀ q, p.feed respond data = .ok q → q.Ready := by
  apply feedLoop_eq_foldlM respond hready
  unfold turnsLeft
  split <;> omega

/-- Chunks, fed one by one. -/
theorem foldlM_feed (hready : p.Ready) (chunks : List Text) :
    chunks.foldlM (feed respond) p = chunks.flatten.foldlM (feedCharacter respond) p := by
  induction chunks generalizing p with
  | nil => rfl
  | cons chunk chunks ih =>
      obtain ⟨heq, hkeep⟩ := feed_eq_foldlM respond hready chunk
      rw [List.foldlM_cons, List.flatten_cons, List.foldlM_append, ← heq]
      cases hq : p.feed respond chunk with
      | error e => rfl
      | ok q => exact ih (hkeep q hq)

end Parser

/-- For all visitors and limits, the callbacks do not depend on how the text is cut into chunks. -/
theorem callbacks_flatten (maxTag maxValue maxNesting : Nat) (visitor : ν) (chunks : List Text) :
    callbacks respond maxTag maxValue maxNesting visitor chunks
      = callbacks respond maxTag maxValue maxNesting visitor [chunks.flatten] := by
  have step : ∀ p, Parser.create maxTag maxValue maxNesting visitor = .ok p →
      chunks.foldlM (Parser.feed respond) p = [chunks.flatten].foldlM (Parser.feed respond) p := by
    intro p hp
    have hready : p.Ready := by
      unfold Parser.create at hp
      split at hp
      · cases hp
      · cases hp
        exact Parser.ready_of_allOpen rfl
    rw [Parser.foldlM_feed respond hready, Parser.foldlM_feed respond hready, List.flatten_singleton]
  unfold callbacks
  cases hp : Parser.create maxTag maxValue maxNesting visitor with
  | error e => rfl
  | ok p =>
      show historyOf (chunks.foldlM (Parser.feed respond) p)
        = historyOf ([chunks.flatten].foldlM (Parser.feed respond) p)
      rw [step p hp]

end

end EmbeddedInfra.JsonStreaming
