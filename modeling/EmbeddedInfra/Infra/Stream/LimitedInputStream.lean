import EmbeddedInfra.Lib.EventSystem

set_option autoImplicit false

/-! # Reading no more than a given number of bytes

`infra::LimitedStreamReader` makes at most a given number of bytes of another reader available. The other reader
is any `infra::StreamReader`: it may hand out its bytes in contiguous pieces of any size.
-/

namespace EmbeddedInfra.LimitedInput

variable {σ : Type}

/-- `StreamReader`, with the states `σ`. `extract` returns what was written to the range, and it and `peek` return
what was reported to the error policy. -/
structure StreamReader (σ : Type) where
  extract : Nat → σ → (List UInt8 × Bool) × σ
  peek : σ → (UInt8 × Bool) × σ
  extractContiguousRange : Nat → σ → List UInt8 × σ
  peekContiguousRange : Nat → σ → List UInt8 × σ
  empty : σ → Bool
  available : σ → Nat

/-- What the users of a reader rely on, where `remaining` are the bytes that it has not delivered: what it delivers
comes next, and peeking leaves the bytes where they are. An extraction that fails may deliver a part of what was
asked for. -/
structure Lawful (reader : StreamReader σ) (remaining : σ → List UInt8) : Prop where
  extract : ∀ n s, ∃ k ≤ n, remaining (reader.extract n s).2 = (remaining s).drop k ∧
    (reader.extract n s).1.1 <+: (remaining s).take k
  peek : ∀ s, remaining (reader.peek s).2 = remaining s ∧
    ((reader.peek s).1.2 = true → (remaining s).head? = some (reader.peek s).1.1)
  extractContiguousRange : ∀ max s, (reader.extractContiguousRange max s).1.length ≤ max ∧
    (reader.extractContiguousRange max s).1 <+: remaining s ∧
    remaining (reader.extractContiguousRange max s).2 =
      (remaining s).drop (reader.extractContiguousRange max s).1.length
  peekContiguousRange : ∀ start s, (reader.peekContiguousRange start s).1 <+: (remaining s).drop start ∧
    remaining (reader.peekContiguousRange start s).2 = remaining s

/-- An extraction of more bytes than there are takes those that are there. -/
def Exhaustive (reader : StreamReader σ) (remaining : σ → List UInt8) : Prop :=
  ∀ n s, remaining (reader.extract n s).2 = (remaining s).drop n

structure LimitedStreamReader (σ : Type) where
  input : σ
  length : Nat
deriving DecidableEq, Repr

namespace LimitedStreamReader

variable (reader : StreamReader σ)

def extract (size : Nat) (r : LimitedStreamReader σ) : (List UInt8 × Bool) × LimitedStreamReader σ :=
  let ok := decide (r.length ≥ size)
  let size := min size r.length
  let extracted := reader.extract size r.input
  ((extracted.1.1, ok && extracted.1.2), { input := extracted.2, length := r.length - size })

def peek (r : LimitedStreamReader σ) : (UInt8 × Bool) × LimitedStreamReader σ :=
  if r.length ≠ 0 then
    let peeked := reader.peek r.input
    (peeked.1, { r with input := peeked.2 })
  else ((0, false), r)

def extractContiguousRange (max : Nat) (r : LimitedStreamReader σ) : List UInt8 × LimitedStreamReader σ :=
  let result := reader.extractContiguousRange (min r.length max) r.input
  (result.1, { input := result.2, length := r.length - result.1.length })

def peekContiguousRange (start : Nat) (r : LimitedStreamReader σ) : List UInt8 × LimitedStreamReader σ :=
  let result := reader.peekContiguousRange start r.input
  (result.1, { r with input := result.2 })

end LimitedStreamReader

/-! ## What the user gets -/

inductive Call
  | extract (size : Nat)
  | peek
  | extractContiguousRange (max : Nat)
  | peekContiguousRange (start : Nat)
  | empty
  | available
deriving DecidableEq, Repr

/-- The bytes that a call returns, and the reader after it. A peek that fails returns none. -/
def call (reader : StreamReader σ) (r : LimitedStreamReader σ) : Call → List UInt8 × LimitedStreamReader σ
  | Call.extract size =>
      let extracted := r.extract reader size
      (extracted.1.1, extracted.2)
  | Call.peek =>
      let peeked := r.peek reader
      (if peeked.1.2 then [peeked.1.1] else [], peeked.2)
  | Call.extractContiguousRange max => r.extractContiguousRange reader max
  | Call.peekContiguousRange start => r.peekContiguousRange reader start
  | Call.empty | Call.available => ([], r)

/-- Where the bytes are that a call returns, counted from the next byte of the underlying reader. -/
def Call.start : Call → Nat
  | Call.peekContiguousRange start => start
  | _ => 0

/-- A limited reader, and what it has returned: the position in the underlying reader, as it was at construction,
and the bytes. -/
structure Session (σ : Type) where
  reader : LimitedStreamReader σ
  returned : List (Nat × List UInt8) := []

/-- A limited reader that is constructed for `length` bytes. -/
def construct (input : σ) (length : Nat) : Session σ := { reader := ⟨input, length⟩ }

section Session

variable (reader : StreamReader σ) (remaining : σ → List UInt8) (content : List UInt8)

/-- How many of the bytes have been consumed. -/
def consumed (s : Session σ) : Nat := content.length - (remaining s.reader.input).length

def step (s : Session σ) (c : Call) : Option (Session σ) :=
  let result := call reader s.reader c
  some {
    reader := result.2
    returned := s.returned ++ [(consumed remaining content s + c.start, result.1)] }

/-- The user has seen nothing but the first `length` bytes, and consumed no others. -/
structure Confined (length : Nat) (s : Session σ) : Prop where
  returned : ∀ r ∈ s.returned, r.2 <+: (content.take length).drop r.1
  consumed : consumed remaining content s ≤ length

/-- A range that the underlying reader shows from `start` on ends before the limit. -/
def Within (s : Session σ) (c : Call) : Prop :=
  ∀ start, c = Call.peekContiguousRange start →
    (reader.peekContiguousRange start s.reader.input).1 = [] ∨
      start + (reader.peekContiguousRange start s.reader.input).1.length ≤ s.reader.length

end Session

/-! ## Positions and the limit -/

section Positions

variable {content bytes : List UInt8} {position length : Nat}

theorem confined_of_le (hbytes : bytes <+: content.drop position)
    (hle : bytes = [] ∨ position + bytes.length ≤ length) : bytes <+: (content.take length).drop position := by
  rcases hle with rfl | hle
  · exact List.nil_prefix
  · rw [List.drop_take]
    exact List.prefix_take_iff.mpr ⟨hbytes, by omega⟩

theorem le_of_confined (h : bytes <+: (content.take length).drop position) :
    bytes = [] ∨ position + bytes.length ≤ length := by
  have hle := h.length_le
  rw [List.length_drop, List.length_take] at hle
  rw [← List.length_eq_zero_iff]
  omega

end Positions

/-- The reader is `position` bytes behind where it was, and its length reaches no further than the limit. -/
structure Holds (remaining : σ → List UInt8) (content : List UInt8) (limit position : Nat)
    (r : LimitedStreamReader σ) : Prop where
  inContent : position ≤ content.length
  bytes : remaining r.input = content.drop position
  limited : position + r.length ≤ limit

/-- The length reaches the limit, or there is nothing left to read. -/
def Tight (content : List UInt8) (limit position : Nat) (r : LimitedStreamReader σ) : Prop :=
  position + r.length = limit ∨ position = content.length

variable {reader : StreamReader σ} {remaining : σ → List UInt8} {content : List UInt8} {limit position : Nat}
  {r : LimitedStreamReader σ} {c : Call}

/-- The underlying reader goes on by `k` bytes, no more than the length allows. -/
theorem Holds.advance (h : Holds remaining content limit position r) {k : Nat} {input : σ} (length : Nat)
    (hinput : remaining input = (remaining r.input).drop k) (hk : k + length ≤ r.length) :
    ∃ position', Holds remaining content limit position' ⟨input, length⟩ ∧
      (k + length = r.length → Tight content limit position r → Tight content limit position' ⟨input, length⟩) := by
  have hposition := h.inContent
  have hlimited := h.limited
  unfold Tight
  rw [h.bytes, List.drop_drop] at hinput
  by_cases hend : position + k ≤ content.length
  · refine ⟨position + k, ⟨hend, hinput, ?_⟩, ?_⟩
    · dsimp only
      omega
    · dsimp only
      omega
  · refine ⟨content.length, ⟨Nat.le_refl _, ?_, ?_⟩, fun _ _ => Or.inr rfl⟩
    · rw [hinput, List.drop_of_length_le (by omega), List.drop_length]
    · dsimp only
      omega

/-- What one call returns, and where the reader is after it. -/
theorem Holds.call (hreader : Lawful reader remaining) (h : Holds remaining content limit position r)
    (hwithin : ∀ start, c = Call.peekContiguousRange start →
      (reader.peekContiguousRange start r.input).1 = [] ∨
        start + (reader.peekContiguousRange start r.input).1.length ≤ r.length) :
    (call reader r c).1 <+: (content.take limit).drop (position + c.start) ∧
      ∃ position', Holds remaining content limit position' (call reader r c).2 ∧
        (Exhaustive reader remaining → Tight content limit position r →
          Tight content limit position' (call reader r c).2) := by
  have hlimited := h.limited
  cases c with
  | extract size =>
      obtain ⟨k, hk, hinput, hbytes⟩ := hreader.extract (min size r.length) r.input
      constructor
      · rw [h.bytes] at hbytes
        refine confined_of_le (hbytes.trans (List.take_prefix k _)) (Or.inr ?_)
        have hle := hbytes.length_le
        rw [List.length_take] at hle
        show position + 0 + (reader.extract (min size r.length) r.input).1.1.length ≤ limit
        omega
      · by_cases hexhaustive : Exhaustive reader remaining
        · obtain ⟨position', h', htight⟩ := h.advance (r.length - min size r.length)
            (hexhaustive (min size r.length) r.input) (by omega)
          exact ⟨position', h', fun _ => htight (by omega)⟩
        · obtain ⟨position', h', -⟩ := h.advance (r.length - min size r.length) hinput (by omega)
          exact ⟨position', h', fun hex => absurd hex hexhaustive⟩
  | peek =>
      obtain ⟨hinput, hhead⟩ := hreader.peek r.input
      have hcall : LimitedInput.call reader r Call.peek =
          (if (r.peek reader).1.2 then [(r.peek reader).1.1] else [], (r.peek reader).2) := rfl
      rw [hcall]
      unfold LimitedStreamReader.peek
      by_cases hzero : r.length = 0
      · rw [if_neg (not_not.mpr hzero)]
        exact ⟨List.nil_prefix, position, h, fun _ htight => htight⟩
      · rw [if_pos hzero]
        constructor
        · split
          · next hok =>
              obtain ⟨rest, hrest⟩ := List.head?_eq_some_iff.mp (hhead hok)
              refine confined_of_le ?_ (Or.inr ?_)
              · show _ <+: content.drop (position + 0)
                rw [Nat.add_zero, ← h.bytes, hrest]
                exact List.prefix_append [_] rest
              · show position + 0 + 1 ≤ limit
                omega
          · exact List.nil_prefix
        · exact ⟨position, ⟨h.inContent, hinput.trans h.bytes, hlimited⟩, fun _ htight => htight⟩
  | extractContiguousRange max =>
      obtain ⟨hmax, hbytes, hinput⟩ := hreader.extractContiguousRange (min r.length max) r.input
      constructor
      · rw [h.bytes] at hbytes
        refine confined_of_le hbytes (Or.inr ?_)
        show position + 0 + _ ≤ _
        unfold LimitedInput.call LimitedStreamReader.extractContiguousRange
        dsimp only
        omega
      · obtain ⟨position', h', htight⟩ := h.advance
          (r.length - (reader.extractContiguousRange (min r.length max) r.input).1.length) hinput (by omega)
        exact ⟨position', h', fun _ => htight (by omega)⟩
  | peekContiguousRange start =>
      obtain ⟨hbytes, hinput⟩ := hreader.peekContiguousRange start r.input
      constructor
      · rw [h.bytes, List.drop_drop] at hbytes
        refine confined_of_le hbytes ?_
        rcases hwithin start rfl with hnil | hle
        · exact Or.inl hnil
        · right
          show position + start + (reader.peekContiguousRange start r.input).1.length ≤ limit
          omega
      · exact ⟨position, ⟨h.inContent, hinput.trans h.bytes, hlimited⟩, fun _ htight => htight⟩
  | empty => exact ⟨List.nil_prefix, position, h, fun _ htight => htight⟩
  | available => exact ⟨List.nil_prefix, position, h, fun _ htight => htight⟩

/-! ## Whole runs -/

variable {s s' : Session σ}

theorem Holds.consumed (h : Holds remaining content limit position s.reader) :
    consumed remaining content s = position := by
  have hposition := h.inContent
  rw [LimitedInput.consumed, h.bytes, List.length_drop]
  omega

/-- What holds in every state of a run whose calls stay within the limit. -/
structure Inv (remaining : σ → List UInt8) (content : List UInt8) (limit : Nat) (s : Session σ) : Prop where
  returned : ∀ r ∈ s.returned, r.2 <+: (content.take limit).drop r.1
  holds : ∃ position, Holds remaining content limit position s.reader

theorem Inv.confined (h : Inv remaining content limit s) : Confined remaining content limit s := by
  obtain ⟨position, hholds⟩ := h.holds
  have hlimited := hholds.limited
  refine ⟨h.returned, ?_⟩
  rw [hholds.consumed]
  omega

/-- The invariant for readers whose extractions are exhaustive. -/
structure TightInv (remaining : σ → List UInt8) (content : List UInt8) (limit : Nat) (s : Session σ) : Prop where
  returned : ∀ r ∈ s.returned, r.2 <+: (content.take limit).drop r.1
  holds : ∃ position, Holds remaining content limit position s.reader ∧ Tight content limit position s.reader

section

variable (hreader : Lawful reader remaining)
include hreader

theorem step_returned (h : Holds remaining content limit position s.reader)
    (hreturned : ∀ r ∈ s.returned, r.2 <+: (content.take limit).drop r.1) (hwithin : Within reader s c)
    (hstep : step reader remaining content s c = some s') :
    (∀ r ∈ s'.returned, r.2 <+: (content.take limit).drop r.1) ∧
      ∃ position', Holds remaining content limit position' s'.reader ∧
        (Exhaustive reader remaining → Tight content limit position s.reader →
          Tight content limit position' s'.reader) := by
  cases hstep
  obtain ⟨hbytes, position', h', htight⟩ := h.call hreader hwithin
  refine ⟨?_, position', h', htight⟩
  intro r hr
  rcases List.mem_append.mp hr with hr | hr
  · exact hreturned r hr
  · cases List.mem_singleton.mp hr
    rw [h.consumed]
    exact hbytes

theorem inv_step (h : Inv remaining content limit s)
    (hwithin : Within reader s c) (hstep : step reader remaining content s c = some s') :
    Inv remaining content limit s' := by
  obtain ⟨position, hholds⟩ := h.holds
  obtain ⟨hreturned, position', h', -⟩ := step_returned hreader hholds h.returned hwithin hstep
  exact ⟨hreturned, position', h'⟩

theorem tightInv_step (hexhaustive : Exhaustive reader remaining)
    (h : TightInv remaining content limit s) (hwithin : Within reader s c)
    (hstep : step reader remaining content s c = some s') : TightInv remaining content limit s' := by
  obtain ⟨position, hholds, htight⟩ := h.holds
  obtain ⟨hreturned, position', h', htight'⟩ := step_returned hreader hholds h.returned hwithin hstep
  exact ⟨hreturned, position', h', htight' hexhaustive htight⟩

/-- A range that goes beyond the limit is seen. -/
theorem not_confined_of_not_within (h : TightInv remaining content limit s)
    (hwithin : ¬ Within reader s c) (hstep : step reader remaining content s c = some s') :
    ¬ Confined remaining content limit s' := by
  obtain ⟨position, hholds, htight⟩ := h.holds
  unfold Within at hwithin
  push Not at hwithin
  obtain ⟨start, rfl, hne, hlt⟩ := hwithin
  cases hstep
  intro hconfined
  have hbytes := hconfined.returned (consumed remaining content s + start,
    (reader.peekContiguousRange start s.reader.input).1) (List.mem_append_right _ (List.mem_singleton_self _))
  rw [hholds.consumed] at hbytes
  have hpeek := (hreader.peekContiguousRange start s.reader.input).1
  rcases le_of_confined hbytes with hnil | hle
  · exact hne hnil
  · dsimp only at hle
    rcases htight with hlimit | hend
    · omega
    · rw [hholds.bytes, hend, List.drop_length, List.drop_nil] at hpeek
      exact hne (List.prefix_nil.mp hpeek)

end

theorem holds_construct {input : σ} {length : Nat} :
    Holds remaining (remaining input) length 0 (construct input length).reader ∧
      Tight (remaining input) length 0 (construct input length).reader := by
  refine ⟨⟨Nat.zero_le _, List.drop_zero.symm, ?_⟩, Or.inl ?_⟩
  · exact Nat.le_of_eq (Nat.zero_add length)
  · exact Nat.zero_add length

theorem run_exists (s : Session σ) (calls : List Call) :
    ∃ s', EventSystem.run (step reader remaining content) s calls = some s' := by
  induction calls generalizing s with
  | nil => exact ⟨s, rfl⟩
  | cons c calls ih =>
      obtain ⟨s', hs'⟩ := ih _
      exact ⟨s', EventSystem.run_cons.mpr ⟨_, rfl, hs'⟩⟩

/-- **A limited reader confines its user** as long as no call of `PeekContiguousRange` is for a range that the
underlying reader shows beyond the limit: in every state of a run of such calls, all bytes that were returned lie
within the first `length` bytes of the underlying reader, and no more have been consumed. When an extraction takes
all bytes that there are, this is also necessary. -/
theorem limitedReader_confines (hreader : Lawful reader remaining) (input : σ) (length : Nat) (calls : List Call) :
    (EventSystem.Along (step reader remaining (remaining input)) (Within reader) (construct input length) calls →
      EventSystem.Always (step reader remaining (remaining input)) (Confined remaining (remaining input) length)
        (construct input length) calls) ∧
    (Exhaustive reader remaining →
      EventSystem.Always (step reader remaining (remaining input)) (Confined remaining (remaining input) length)
        (construct input length) calls →
      EventSystem.Along (step reader remaining (remaining input)) (Within reader) (construct input length) calls) := by
  obtain ⟨hholds, htight⟩ := @holds_construct σ remaining input length
  have hnone : ∀ r ∈ (construct input length).returned, r.2 <+: ((remaining input).take length).drop r.1 := by
    intro r hr
    cases hr
  constructor
  · intro halong earlier hearlier s hrun
    have hinv : Inv remaining (remaining input) length s :=
      EventSystem.run_invariant_along _ (fun s c s' hs hc hstep => inv_step hreader hs hc hstep)
        (EventSystem.along_of_earlier halong hearlier) hrun ⟨hnone, 0, hholds⟩
    exact hinv.confined
  · intro hexhaustive
    obtain ⟨s, hrun⟩ := run_exists (construct input length) calls
    refine (EventSystem.always_iff_along (TightInv remaining (remaining input) length) ?_ ?_ ?_
      ⟨hnone, 0, hholds, htight⟩ hrun).mp
    · rintro s ⟨hreturned, position, hholds, -⟩
      exact Inv.confined ⟨hreturned, position, hholds⟩
    · intro s c s' hs hc hstep
      exact tightInv_step hreader hexhaustive hs hc hstep
    · intro s c s' hs hc hstep
      exact not_confined_of_not_within hreader hs hc hstep

/-- `ByteInputStreamReader`, with the bytes that it has not read yet. -/
def byteInputStreamReader : StreamReader (List UInt8) where
  extract n bytes := ((bytes.take n, decide (n ≤ bytes.length)), bytes.drop n)
  peek bytes := ((bytes.headD 0, decide (1 ≤ bytes.length)), bytes)
  extractContiguousRange max bytes := (bytes.take max, bytes.drop max)
  peekContiguousRange start bytes := (bytes.drop start, bytes)
  empty bytes := bytes.isEmpty
  available bytes := bytes.length

theorem lawful_byteInputStreamReader : Lawful byteInputStreamReader id where
  extract n bytes := ⟨n, Nat.le_refl n, rfl, List.prefix_rfl⟩
  peek bytes := by
    refine ⟨rfl, fun hok => ?_⟩
    cases bytes with
    | nil => cases hok
    | cons byte bytes => rfl
  extractContiguousRange max bytes := by
    refine ⟨List.length_take_le max bytes, List.take_prefix max bytes, ?_⟩
    show bytes.drop max = bytes.drop (bytes.take max).length
    rw [List.length_take]
    by_cases hle : max ≤ bytes.length
    · rw [Nat.min_eq_left hle]
    · rw [Nat.min_eq_right (by omega), List.drop_length, List.drop_of_length_le (by omega)]
  peekContiguousRange start bytes := ⟨List.prefix_rfl, rfl⟩

/-- A limit of one byte, and a peek at the range behind it. -/
theorem limitedReader_shows : ¬ ∀ (reader : StreamReader (List UInt8)) (remaining : List UInt8 → List UInt8),
    Lawful reader remaining → ∀ (input : List UInt8) (length : Nat) (calls : List Call),
    EventSystem.Always (step reader remaining (remaining input)) (Confined remaining (remaining input) length)
      (construct input length) calls := by
  intro hall
  have h := hall byteInputStreamReader id lawful_byteInputStreamReader [1, 2, 3] 1 [Call.peekContiguousRange 0]
    [Call.peekContiguousRange 0] List.prefix_rfl _ rfl
  have hbytes := h.returned (0, [1, 2, 3]) (List.mem_singleton_self _)
  revert hbytes
  decide

/-- A reader that shows one byte at a time. -/
def bytewiseReader : StreamReader (List UInt8) :=
  { byteInputStreamReader with peekContiguousRange := fun start bytes => ((bytes.drop start).take 1, bytes) }

theorem lawful_bytewiseReader : Lawful bytewiseReader id :=
  { lawful_byteInputStreamReader with peekContiguousRange := fun _ _ => ⟨List.take_prefix _ _, rfl⟩ }

/-- A limited reader of two of three bytes: the second one is shown, and both are read as a range. -/
theorem limitedReader_confines_ranges :
    EventSystem.Always (step bytewiseReader id [1, 2, 3]) (Confined id [1, 2, 3] 2) (construct [1, 2, 3] 2)
      [Call.peek, Call.peekContiguousRange 1, Call.extractContiguousRange 5] := by
  refine (limitedReader_confines lawful_bytewiseReader [1, 2, 3] 2 _).1 ?_
  refine EventSystem.along_cons rfl (fun start h => by cases h) ?_
  refine EventSystem.along_cons rfl (fun start h => ?_) ?_
  · cases h
    exact Or.inr (by decide)
  · exact EventSystem.along_cons rfl (fun start h => by cases h) trivial

end EmbeddedInfra.LimitedInput
