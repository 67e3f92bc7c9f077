import EmbeddedInfra.Infra.Event.QueueForOneReaderOneIrqWriter
import EmbeddedInfra.Lib.EventSystem
import EmbeddedInfra.Lib.InterruptedPrograms

set_option autoImplicit false

/-! # The queue between its reader and an interrupt

The reader's operations are programs: each load and each store of a pointer is an action, and the interrupt may
add elements between any two of them. The queue is a first-in first-out queue for every such run, and its
`DataAvailable` is scheduled for every element that is added.
-/

namespace EmbeddedInfra

namespace QueueForOneReaderOneIrqWriter

open InterruptedPrograms Relation

variable {T : Type}

/-- The queue, and all elements that were ever added to it. -/
structure Shared (T : Type) where
  queue : QueueForOneReaderOneIrqWriter T
  added : List T

/-! ## The operations of the reader -/

/-- Code of the reader. -/
abbrev Code (T ρ : Type) := Program (Shared T) ρ

section Code

variable {ρ : Type}

def loadBegin (next : Nat → Code T ρ) : Code T ρ := Program.look fun s => next s.queue.contentsBegin

def loadEnd (next : Nat → Code T ρ) : Code T ρ := Program.look fun s => next s.queue.contentsEnd

/-- What a pointer points to; there is nothing outside of the buffer. -/
def loadElement (position : Nat) (next : T → Code T ρ) : Code T ρ :=
  Program.look fun s => (s.queue.buffer[position]?).elim Program.fail next

def storeBegin (position : Nat) (next : Code T ρ) : Code T ρ :=
  Program.act (fun s => { s with queue := { s.queue with contentsBegin := position } }) fun _ => next

def addToBegin (amount : Nat) (next : Code T ρ) : Code T ρ :=
  Program.act (fun s => { s with queue := { s.queue with contentsBegin := s.queue.contentsBegin + amount } })
    fun _ => next

end Code

def get (bufferSize : Nat) : Code T T :=
  loadBegin fun first => loadEnd fun last => Program.assert (first ≠ last) <|
    loadBegin fun first => loadElement first fun result =>
      loadBegin fun first =>
        if first = bufferSize - 1 then storeBegin 0 (Program.done result) else addToBegin 1 (Program.done result)

/-- `Size`, as the reader runs it -/
def loadSize (bufferSize : Nat) : Code T Nat :=
  loadBegin fun first => loadEnd fun last => Program.done (sizeBetween bufferSize first last)

/-- `operator[]` -/
def elementAt (bufferSize position : Nat) : Code T T :=
  (loadSize bufferSize).bind fun size => Program.assert (size > 0) <| Program.assert (position < size) <|
    loadBegin fun first =>
      loadElement (if first + position ≥ bufferSize then position - (bufferSize - first) else first + position)
        Program.done

/-- `ContiguousRange`: the pointers to the first element and behind the last one -/
def contiguousRange (bufferSize offset : Nat) : Code T (Nat × Nat) :=
  loadEnd fun last => loadBegin fun first =>
    let first := if first + offset ≥ bufferSize then offset - (bufferSize - first) else first + offset
    Program.done (if last < first then (first, bufferSize) else (first, last))

def consume (bufferSize amount : Nat) : Code T Unit :=
  loadBegin fun first =>
    if first + amount ≥ bufferSize then
      loadBegin fun first => storeBegin 0 (addToBegin (amount - (bufferSize - first)) (Program.done ()))
    else addToBegin amount (Program.done ())

/-- `DataAvailable`, up to the call of `onDataAvailable` -/
def dataAvailable : Code T Unit :=
  Program.act (fun s => { s with queue := { s.queue with notificationScheduled := false } }) fun _ => Program.done ()

/-! ## Runs -/

/-- What the reader does. `read` loads an element through a pointer into a range that `ContiguousRange` returned;
`number` says which of all added elements this should be. -/
inductive Operation where
  | get
  | elementAt (position : Nat)
  | contiguousRange (offset : Nat)
  | read (position number : Nat)
  | consume (amount : Nat)
  | size
  | dataAvailable
deriving DecidableEq, Repr

inductive Result (T : Type) where
  | element (x : T)
  | range (first last : Nat)
  | number (n : Nat)
  | nothing
deriving DecidableEq, Repr

def Operation.code (bufferSize : Nat) : Operation → Code T (Result T)
  | get => (QueueForOneReaderOneIrqWriter.get bufferSize).map Result.element
  | elementAt position => (QueueForOneReaderOneIrqWriter.elementAt bufferSize position).map Result.element
  | contiguousRange offset =>
      (QueueForOneReaderOneIrqWriter.contiguousRange bufferSize offset).map fun range => Result.range range.1 range.2
  | read position _ => (loadElement position Program.done).map Result.element
  | consume amount => (QueueForOneReaderOneIrqWriter.consume bufferSize amount).map fun _ => Result.nothing
  | size => (loadSize bufferSize).map Result.number
  | dataAvailable => QueueForOneReaderOneIrqWriter.dataAvailable.map fun _ => Result.nothing

/-- How many elements the operation takes out of the queue. -/
def Operation.amount : Operation → Nat
  | get => 1
  | consume amount => amount
  | elementAt _ | contiguousRange _ | read _ _ | size | dataAvailable => 0

/-- An operation that has returned, with the number of elements that had been added when it was called and when
it returned. -/
structure Entry (T : Type) where
  operation : Operation
  result : Result T
  atCall : Nat
  atReturn : Nat

structure Running (T : Type) where
  operation : Operation
  code : Code T (Result T)
  atCall : Nat

/-- `started` is the number of elements that had been added at the last start of `onDataAvailable`. -/
structure System (T : Type) where
  shared : Shared T
  running : Option (Running T) := none
  log : List (Entry T) := []
  started : Nat := 0

/-- The queue as it is constructed. -/
def start (storage : List T) : System T := { shared := ⟨{ buffer := storage }, []⟩ }

inductive Event (T : Type) where
  /-- the interrupt adds an element -/
  | interrupt (element : T)
  /-- the reader calls an operation, or the dispatcher takes an event for `DataAvailable` -/
  | call (operation : Operation)
  /-- the reader's next action -/
  | step

def callOperation (s : System T) (operation : Operation) : Option (System T) :=
  let running : Running T := ⟨operation, operation.code s.shared.queue.buffer.length, s.shared.added.length⟩
  if s.running.isSome then none
  else if operation = Operation.dataAvailable then
    if s.shared.queue.scheduled = 0 then none
    else some { s with
      shared := { s.shared with queue := { s.shared.queue with scheduled := s.shared.queue.scheduled - 1 } }
      running := some running }
  else some { s with running := some running }

def stepCode (s : System T) (operation : Operation) (atCall : Nat) : Code T (Result T) → Option (System T)
  | Program.done result =>
      some { s with
        running := none
        log := s.log ++ [⟨operation, result, atCall, s.shared.added.length⟩]
        started := if operation = Operation.dataAvailable then s.shared.added.length else s.started }
  | Program.fail => none
  | Program.act update next =>
      some { s with shared := update s.shared, running := some ⟨operation, next s.shared, atCall⟩ }

def step (s : System T) : Event T → Option (System T)
  | Event.interrupt element =>
      (s.shared.queue.addFromInterrupt element).map fun queue =>
        { s with shared := ⟨queue, s.shared.added ++ [element]⟩ }
  | Event.call operation => callOperation s operation
  | Event.step => s.running.bind fun running => stepCode s running.operation running.atCall running.code

/-! ## What the reader may do, and what it should see -/

/-- How many elements the operations took out of the queue. -/
def consumedBy (log : List (Entry T)) : Nat := (log.map fun entry => entry.operation.amount).sum

/-- The pointer points into a range that `ContiguousRange` returned, at the element with this number. -/
def Viewed (log : List (Entry T)) (position number : Nat) : Prop :=
  ∃ before entry after offset first last, log = before ++ entry :: after ∧
    entry.operation = Operation.contiguousRange offset ∧ entry.result = Result.range first last ∧
    first ≤ position ∧ position < last ∧ number = consumedBy before + offset + (position - first)

/-- `Get` and `operator[]` of an element that is there, `ContiguousRange` and `Consume` of at most `Size` elements,
a range that is read before its elements are consumed, `DataAvailable` when it is scheduled. -/
def Operation.Allowed (s : System T) : Operation → Prop
  | get => 0 < s.shared.queue.size
  | elementAt position => position < s.shared.queue.size
  | contiguousRange offset => offset ≤ s.shared.queue.size
  | read position number => Viewed s.log position number ∧ consumedBy s.log ≤ number
  | consume amount => amount ≤ s.shared.queue.size
  | size => True
  | dataAvailable => 0 < s.shared.queue.scheduled

/-- The interrupt adds to a queue that is not full. The reader does one operation after the other. -/
def Possible (s : System T) : Event T → Prop
  | Event.interrupt _ => s.shared.queue.full = false
  | Event.call operation => s.running = none ∧ operation.Allowed s
  | Event.step => s.running ≠ none

/-- The result is what a first-in first-out queue returns, after `consumed` of the elements were taken out. -/
def Entry.Right (added : List T) (consumed : Nat) (entry : Entry T) : Prop :=
  match entry.operation, entry.result with
  | Operation.get, Result.element x => added[consumed]? = some x
  | Operation.elementAt position, Result.element x => added[consumed + position]? = some x
  | Operation.contiguousRange offset, Result.range first last =>
      first ≤ last ∧ consumed + offset + (last - first) ≤ added.length ∧
        (consumed + offset < entry.atCall → first < last)
  | Operation.read _ number, Result.element x => added[number]? = some x
  | Operation.consume _, Result.nothing => True
  | Operation.size, Result.number size => entry.atCall ≤ consumed + size ∧ consumed + size ≤ entry.atReturn
  | Operation.dataAvailable, Result.nothing => True
  | _, _ => False

/-- `DataAvailable` has been taken from the dispatcher, and has not called `onDataAvailable` yet. -/
def System.notifying (s : System T) : Prop := ∃ running ∈ s.running, running.operation = Operation.dataAvailable

structure Fifo (s : System T) : Prop where
  entries : ∀ before entry after, s.log = before ++ entry :: after →
    entry.Right s.shared.added (consumedBy before)
  size : s.running = none →
    consumedBy s.log ≤ s.shared.added.length ∧ s.shared.queue.size = s.shared.added.length - consumedBy s.log
  notified : s.started < s.shared.added.length → 0 < s.shared.queue.scheduled ∨ s.notifying

variable {s s' : Shared T} {c n m started : Nat} {known : List T} {x : T} {ρ : Type}
  {i position : Nat} {q : QueueForOneReaderOneIrqWriter T}

/-! ## Positions by number

The element with the number `n` of all added elements stands at the position `n` modulo the size of the buffer. -/

/-- `c` elements have been taken out of the queue. -/
structure Tracks (s : Shared T) (c : Nat) : Prop where
  consumed : c ≤ s.added.length
  room : s.added.length < c + s.queue.buffer.length
  contentsBegin : s.queue.contentsBegin = c % s.queue.buffer.length
  contentsEnd : s.queue.contentsEnd = s.added.length % s.queue.buffer.length
  elements : ∀ n, c ≤ n → n < s.added.length → s.queue.buffer[n % s.queue.buffer.length]? = s.added[n]?

theorem Tracks.buffer_pos (h : Tracks s c) : 0 < s.queue.buffer.length := by
  have hroom := h.room
  have hconsumed := h.consumed
  omega

/-- One wrap is enough for less than a whole buffer. -/
theorem add_mod_eq {n : Nat} (hi : i < n) :
    (c + i) % n = if c % n + i < n then c % n + i else c % n + i - n := by
  have hlt := Nat.mod_lt c (Nat.zero_lt_of_lt hi)
  rw [Nat.add_mod, Nat.mod_eq_of_lt hi]
  split
  · next h => exact Nat.mod_eq_of_lt h
  · next h => rw [Nat.mod_eq_sub_mod (Nat.le_of_not_lt h), Nat.mod_eq_of_lt (by omega)]

theorem mod_ne_mod {size : Nat} (hnm : n < m) (hsize : m < n + size) : n % size ≠ m % size := by
  intro h
  obtain ⟨i, rfl⟩ := Nat.exists_eq_add_of_lt hnm
  rw [Nat.add_assoc, add_mod_eq (by omega)] at h
  have hlt := Nat.mod_lt n (show 0 < size by omega)
  split at h
  all_goals omega

theorem Tracks.index_eq (h : Tracks s c) (hi : i < s.queue.buffer.length) :
    s.queue.index i = (c + i) % s.queue.buffer.length := by
  rw [index, h.contentsBegin, add_mod_eq hi]

/-- What the queue holds are the elements that have not been taken out. -/
theorem Tracks.holds (h : Tracks s c) : Holds s.queue (s.added.drop c) := by
  have hconsumed := h.consumed
  have hroom := h.room
  have hlength : (s.added.drop c).length = s.added.length - c := List.length_drop
  refine ⟨?_, by omega, ?_, ?_⟩
  · rw [h.contentsBegin]
    exact Nat.mod_lt _ h.buffer_pos
  · rw [h.index_eq (by omega), hlength, h.contentsEnd]
    congr 1
    omega
  · intro i hi
    rw [h.index_eq (by omega), h.elements (c + i) (by omega) (by omega), List.getElem?_drop]

theorem Tracks.size (h : Tracks s c) : s.queue.size = s.added.length - c := by
  rw [h.holds.size, List.length_drop]

/-- The pointer of the reader moves. -/
theorem Tracks.advance (h : Tracks s c) (hm : c + m ≤ s.added.length)
    (hposition : position = (c + m) % s.queue.buffer.length) :
    Tracks { s with queue := { s.queue with contentsBegin := position } } (c + m) where
  consumed := hm
  room := by
    have hroom := h.room
    dsimp only
    omega
  contentsBegin := hposition
  contentsEnd := h.contentsEnd
  elements := fun n hn hlt => h.elements n (by omega) hlt

/-! ## The interrupt -/

/-- The interrupt adds an element. -/
def Interrupt (s s' : Shared T) : Prop :=
  ∃ element queue, s.queue.addFromInterrupt element = some queue ∧ s' = ⟨queue, s.added ++ [element]⟩

theorem addFromInterrupt_eq_some {q' : QueueForOneReaderOneIrqWriter T} (h : q.addFromInterrupt x = some q') :
    q.full = false ∧ q' = notifyDataAvailable { q with
      buffer := q.buffer.set q.contentsEnd x
      contentsEnd := if q.contentsEnd = q.buffer.length - 1 then 0 else q.contentsEnd + 1 } := by
  unfold addFromInterrupt at h
  split at h
  · cases h
  · next hfull =>
      cases h
      exact ⟨Bool.eq_false_iff.mpr hfull, rfl⟩

theorem Tracks.congr (h : Tracks s c) (hbuffer : q.buffer = s.queue.buffer)
    (hbegin : q.contentsBegin = s.queue.contentsBegin) (hend : q.contentsEnd = s.queue.contentsEnd) :
    Tracks ⟨q, s.added⟩ c where
  consumed := h.consumed
  room := by rw [hbuffer]; exact h.room
  contentsBegin := by rw [hbegin, hbuffer]; exact h.contentsBegin
  contentsEnd := by rw [hend, hbuffer]; exact h.contentsEnd
  elements := by rw [hbuffer]; exact h.elements

/-- An element that is added behind the others. -/
theorem Tracks.push (h : Tracks s c) (hfull : s.queue.full = false) :
    Tracks ⟨{ s.queue with
      buffer := s.queue.buffer.set s.queue.contentsEnd x
      contentsEnd := if s.queue.contentsEnd = s.queue.buffer.length - 1 then 0 else s.queue.contentsEnd + 1 },
      s.added ++ [x]⟩ c := by
  have hconsumed := h.consumed
  have hroom := h.room
  have hpos := h.buffer_pos
  have hnotFull : s.added.length + 1 < c + s.queue.buffer.length := by
    have := h.holds.full_iff.not.mp (Bool.eq_false_iff.mp hfull)
    rw [List.length_drop] at this
    omega
  have hlt : s.added.length % s.queue.buffer.length < s.queue.buffer.length := Nat.mod_lt _ hpos
  refine ⟨?_, ?_, ?_, ?_, ?_⟩
  · dsimp only
    rw [List.length_append]
    omega
  · dsimp only
    rw [List.length_append, List.length_set]
    exact hnotFull
  · dsimp only
    rw [List.length_set]
    exact h.contentsBegin
  · dsimp only
    rw [List.length_set, List.length_append, List.length_singleton, h.contentsEnd]
    by_cases hone : s.queue.buffer.length = 1
    · rw [hone, Nat.mod_one, Nat.mod_one, if_pos rfl]
    · rw [add_mod_eq (by omega)]
      split
      · rw [if_neg (by omega)]
        omega
      · rw [if_pos (by omega)]
  · intro n hn hadded
    dsimp only at hadded ⊢
    rw [List.length_append, List.length_singleton] at hadded
    rw [List.length_set, h.contentsEnd]
    by_cases hlast : n = s.added.length
    · rw [hlast, List.getElem?_set_self hlt, List.getElem?_concat_length]
    · rw [List.getElem?_set_ne (mod_ne_mod (by omega) (by omega)).symm, h.elements n hn (by omega),
        List.getElem?_append_left (by omega)]

theorem Tracks.interrupt (h : Tracks s c) (hi : Interrupt s s') : Tracks s' c := by
  obtain ⟨element, queue, hadd, rfl⟩ := hi
  obtain ⟨hfull, rfl⟩ := addFromInterrupt_eq_some hadd
  obtain ⟨hbuffer, hbegin, hend⟩ := notifyDataAvailable_pointers { s.queue with
    buffer := s.queue.buffer.set s.queue.contentsEnd element
    contentsEnd := if s.queue.contentsEnd = s.queue.buffer.length - 1 then 0 else s.queue.contentsEnd + 1 }
  exact (h.push hfull).congr hbuffer hbegin hend

/-- `notificationScheduled` says that `DataAvailable` is scheduled, once. -/
def Armed (s : Shared T) : Prop :=
  s.queue.scheduled ≤ 1 ∧ (s.queue.notificationScheduled = true ↔ s.queue.scheduled = 1)

/-- `DataAvailable` is scheduled when elements were added after the first `started` ones. -/
def Notified (started : Nat) (s : Shared T) : Prop :=
  Armed s ∧ (started < s.added.length → s.queue.scheduled = 1)

theorem notifyDataAvailable_schedules (h : ¬ q.empty = true) :
    q.notifyDataAvailable.notificationScheduled = true ∧
      q.notifyDataAvailable.scheduled = if q.notificationScheduled then q.scheduled else q.scheduled + 1 := by
  unfold QueueForOneReaderOneIrqWriter.notifyDataAvailable
  rw [if_neg h]
  split
  · next hset => exact ⟨hset, rfl⟩
  · exact ⟨rfl, rfl⟩

/-- The interrupt leaves `notificationScheduled` set. -/
theorem notificationScheduled_of_interrupt (h : Tracks s c) (hi : Interrupt s s') :
    s'.queue.notificationScheduled = true ∧
      s'.queue.scheduled = if s.queue.notificationScheduled then s.queue.scheduled else s.queue.scheduled + 1 := by
  have htracks := h.interrupt hi
  obtain ⟨element, queue, hadd, rfl⟩ := hi
  obtain ⟨hfull, rfl⟩ := addFromInterrupt_eq_some hadd
  have hpush := (h.push (x := element) hfull).holds
  have hempty := hpush.empty_iff.not.mpr (by
    have hconsumed := h.consumed
    rw [← List.length_eq_zero_iff, List.length_drop, List.length_append, List.length_singleton]
    omega)
  exact notifyDataAvailable_schedules hempty

theorem Armed.interrupt (harmed : Armed s) (h : Tracks s c) (hi : Interrupt s s') :
    Armed s' ∧ s'.queue.scheduled = 1 := by
  obtain ⟨hset, hscheduled⟩ := notificationScheduled_of_interrupt h hi
  obtain ⟨hle, hiff⟩ := harmed
  have hone : s'.queue.scheduled = 1 := by
    rw [hscheduled]
    split
    · next hflag => exact hiff.mp hflag
    · next hflag =>
        have := hiff.not.mp hflag
        omega
  exact ⟨⟨Nat.le_of_eq hone, iff_of_true hset hone⟩, hone⟩

theorem Interrupt.added (hi : Interrupt s s') : s.added <+: s'.added := by
  obtain ⟨element, queue, -, rfl⟩ := hi
  exact List.prefix_append s.added [element]

theorem Interrupt.buffer_length (hi : Interrupt s s') : s'.queue.buffer.length = s.queue.buffer.length := by
  obtain ⟨element, queue, hadd, rfl⟩ := hi
  obtain ⟨-, rfl⟩ := addFromInterrupt_eq_some hadd
  rw [(notifyDataAvailable_pointers _).1, List.length_set]

/-- What holds while the reader runs an operation: `c` elements were taken out, the elements in `known` had been
added some time ago, and `DataAvailable` is scheduled for those after the first `started` ones. -/
structure Steady (bufferSize started : Nat) (kept : List T) (c : Nat) (known : List T) (s : Shared T) : Prop where
  bufferSize : s.queue.buffer.length = bufferSize
  tracks : Tracks s c
  notified : Notified started s
  kept : kept <+: known
  known : known <+: s.added

variable {bufferSize : Nat} {kept : List T}

theorem stable_steady : Stable Interrupt (Steady bufferSize started kept c known) := by
  rintro s s' hi ⟨hsize, htracks, ⟨harmed, -⟩, hkept, hknown⟩
  obtain ⟨harmed', hscheduled⟩ := harmed.interrupt htracks hi
  exact ⟨hi.buffer_length.trans hsize, htracks.interrupt hi, ⟨harmed', fun _ => hscheduled⟩, hkept,
    hknown.trans hi.added⟩

/-! ## Rules for the reader's actions -/

/-- The state of the shared data at any time while the reader runs an operation other than `DataAvailable`. -/
def Inv (bufferSize started : Nat) (kept : List T) (s : Shared T) : Prop :=
  s.queue.buffer.length = bufferSize ∧ (∃ c, Tracks s c) ∧ Notified started s ∧ kept <+: s.added

theorem Steady.invariant (h : Steady bufferSize started kept c known s) : Inv bufferSize started kept s :=
  ⟨h.bufferSize, ⟨c, h.tracks⟩, h.notified, h.kept.trans h.known⟩

theorem Steady.weaken {known' : List T} (h : Steady bufferSize started kept c known' s) (hkept : kept <+: known)
    (hknown : known <+: known') : Steady bufferSize started kept c known s :=
  { h with kept := hkept, known := hknown.trans h.known }

theorem getElem?_of_isPrefix {known' : List T} (h : known <+: known') (hx : known[n]? = some x) : known'[n]? = some x := by
  obtain ⟨rest, rfl⟩ := h
  obtain ⟨hn, -⟩ := List.getElem?_eq_some_iff.mp hx
  rw [List.getElem?_append_left hn, hx]

section Rules

variable {post : Shared T → ρ → Prop} {next : Nat → Code T ρ}

/-- What the reader's code is verified for. -/
abbrev Sound (bufferSize started : Nat) (kept : List T) (post : Shared T → ρ → Prop) : Code T ρ → Shared T → Prop :=
  Verified Interrupt (Inv bufferSize started kept) post

theorem sound_done {result : ρ} (hpost : ∀ s, Steady bufferSize started kept c known s → post s result)
    (hs : Steady bufferSize started kept c known s) : Sound bufferSize started kept post (Program.done result) s :=
  verified_done stable_steady (fun s h => ⟨h.invariant, hpost s h⟩) hs

theorem sound_loadBegin
    (hnext : ∀ s, Steady bufferSize started kept c known s → Sound bufferSize started kept post (next (c % bufferSize)) s)
    (hs : Steady bufferSize started kept c known s) : Sound bufferSize started kept post (loadBegin next) s := by
  refine verified_look stable_steady (fun s h => h.invariant) ?_ hs
  intro s h
  rw [h.tracks.contentsBegin, h.bufferSize]
  exact hnext s h

/-- What the reader knows after it loaded `contentsEnd`. -/
theorem sound_loadEnd
    (hnext : ∀ known' s, known <+: known' → c ≤ known'.length → Steady bufferSize started kept c known' s →
      Sound bufferSize started kept post (next (known'.length % bufferSize)) s)
    (hs : Steady bufferSize started kept c known s) : Sound bufferSize started kept post (loadEnd next) s := by
  refine verified_look stable_steady (fun s h => h.invariant) ?_ hs
  intro s h
  rw [h.tracks.contentsEnd, h.bufferSize]
  exact hnext s.added s h.known h.tracks.consumed { h with kept := h.kept.trans h.known, known := List.prefix_rfl }

theorem sound_loadElement {next : T → Code T ρ} (hn : c ≤ n) (hx : known[n]? = some x)
    (hposition : position = n % bufferSize)
    (hnext : ∀ s, Steady bufferSize started kept c known s → Sound bufferSize started kept post (next x) s)
    (hs : Steady bufferSize started kept c known s) : Sound bufferSize started kept post (loadElement position next) s := by
  refine verified_look stable_steady (fun s h => h.invariant) ?_ hs
  intro s h
  have hadded := getElem?_of_isPrefix h.known hx
  obtain ⟨hlt, -⟩ := List.getElem?_eq_some_iff.mp hadded
  have helement := h.tracks.elements n hn hlt
  rw [h.bufferSize] at helement
  rw [hposition, helement, hadded, Option.elim_some]
  exact hnext s h

theorem Steady.advance (h : Steady bufferSize started kept c known s) (hm : c + m ≤ known.length)
    (hposition : position = (c + m) % bufferSize) :
    Steady bufferSize started kept (c + m) known { s with queue := { s.queue with contentsBegin := position } } := by
  have hadded : c + m ≤ s.added.length := hm.trans h.known.length_le
  exact { h with tracks := h.tracks.advance hadded (by rw [h.bufferSize, hposition]) }

theorem sound_storeBegin {next : Code T ρ} (m : Nat) (hm : c + m ≤ known.length)
    (hposition : position = (c + m) % bufferSize)
    (hnext : ∀ s, Steady bufferSize started kept (c + m) known s → Sound bufferSize started kept post next s)
    (hs : Steady bufferSize started kept c known s) : Sound bufferSize started kept post (storeBegin position next) s :=
  verified_act stable_steady (fun _ h => h.invariant) (fun _ h => hnext _ (h.advance hm hposition)) hs

theorem sound_addToBegin {next : Code T ρ} {amount : Nat} (m : Nat) (hm : c + m ≤ known.length)
    (hamount : c % bufferSize + amount = (c + m) % bufferSize)
    (hnext : ∀ s, Steady bufferSize started kept (c + m) known s → Sound bufferSize started kept post next s)
    (hs : Steady bufferSize started kept c known s) : Sound bufferSize started kept post (addToBegin amount next) s := by
  refine verified_act stable_steady (fun s h => h.invariant) ?_ hs
  intro s h
  refine hnext _ (h.advance hm ?_)
  rw [h.tracks.contentsBegin, h.bufferSize, hamount]

end Rules

/-! ## The operations -/

/-- The pointers of a range, by the numbers of its elements. -/
def Positions (bufferSize c : Nat) (operation : Operation) (result : Result T) : Prop :=
  ∀ offset first last, operation = Operation.contiguousRange offset → result = Result.range first last →
    ∀ position, first ≤ position → position < last → position = (c + offset + (position - first)) % bufferSize

/-- What holds when an operation returns. -/
structure Returned (bufferSize started c : Nat) (operation : Operation) (atCall : Nat) (s : Shared T)
    (result : Result T) : Prop where
  length : s.queue.buffer.length = bufferSize
  tracks : Tracks s (c + operation.amount)
  armed : Armed s
  notified : operation ≠ Operation.dataAvailable → Notified started s
  right : Entry.Right s.added c ⟨operation, result, atCall, s.added.length⟩
  positions : Positions bufferSize c operation result

theorem Steady.room (h : Steady bufferSize started kept c known s) : known.length < c + bufferSize := by
  calc known.length ≤ s.added.length := h.known.length_le
    _ < c + s.queue.buffer.length := h.tracks.room
    _ = c + bufferSize := by rw [h.bufferSize]

theorem sound_get (hs : Steady bufferSize started kept c known s) (hc : known[c]? = some x) :
    Sound bufferSize started kept (fun s result => Steady bufferSize started kept (c + 1) known s ∧ result = x)
      (QueueForOneReaderOneIrqWriter.get bufferSize) s := by
  have hkept := hs.kept
  obtain ⟨hlt, -⟩ := List.getElem?_eq_some_iff.mp hc
  have hroom := hs.room
  have hnext := add_mod_eq (c := c) (n := bufferSize) (i := 1) (by omega)
  have hmod := Nat.mod_lt c (show 0 < bufferSize by omega)
  refine sound_loadBegin (fun s hs => ?_) hs
  refine sound_loadEnd (fun known' s hknown _ hs => ?_) hs
  have hlength := hknown.length_le
  have hx := getElem?_of_isPrefix hknown hc
  refine verified_assert (mod_ne_mod (by omega) (by have := hs.room; omega)) ?_
  refine sound_loadBegin (fun s hs => ?_) hs
  refine sound_loadElement (Nat.le_refl c) hx rfl (fun s hs => ?_) hs
  refine sound_loadBegin (fun s hs => ?_) hs
  have hdone : ∀ s, Steady bufferSize started kept (c + 1) known' s →
      Sound bufferSize started kept (fun s result => Steady bufferSize started kept (c + 1) known s ∧ result = x)
        (Program.done x) s := by
    intro s hs
    refine sound_done (fun s hs => ⟨hs.weaken hkept hknown, rfl⟩) hs
  split
  · next hlast =>
      refine sound_storeBegin 1 (by omega) ?_ hdone hs
      rw [hnext, if_neg (by omega)]
      omega
  · next hlast =>
      refine sound_addToBegin 1 (by omega) ?_ hdone hs
      rw [hnext, if_pos (by omega)]

/-- The size between two pointers that were loaded. -/
theorem sizeBetween_mod (hc : c ≤ n) (hn : n < c + bufferSize) :
    sizeBetween bufferSize (c % bufferSize) (n % bufferSize) = n - c := by
  obtain ⟨i, rfl⟩ := Nat.exists_eq_add_of_le hc
  have hmod := Nat.mod_lt c (show 0 < bufferSize by omega)
  rw [sizeBetween_eq hmod (Nat.mod_lt _ (by omega)), add_mod_eq (by omega)]
  split
  · rw [if_pos (by omega)]
    omega
  · split
    all_goals omega

theorem sound_loadSize (hs : Steady bufferSize started kept c known s) :
    Sound bufferSize started kept
      (fun s result => ∃ known', known <+: known' ∧ c ≤ known'.length ∧ Steady bufferSize started kept c known' s ∧
        result = known'.length - c)
      (loadSize bufferSize) s := by
  refine sound_loadBegin (fun s hs => ?_) hs
  refine sound_loadEnd (fun known' s hknown hc hs => ?_) hs
  rw [sizeBetween_mod hc hs.room]
  exact sound_done (fun s hs => ⟨known', hknown, hc, hs, rfl⟩) hs

/-- The reader's way around the end of the buffer. -/
theorem position_eq (hi : i < bufferSize) :
    (if c % bufferSize + i ≥ bufferSize then i - (bufferSize - c % bufferSize) else c % bufferSize + i) =
      (c + i) % bufferSize := by
  have hmod := Nat.mod_lt c (show 0 < bufferSize by omega)
  rw [add_mod_eq hi]
  split
  · rw [if_neg (by omega)]
    omega
  · rw [if_pos (by omega)]

theorem sound_elementAt (hs : Steady bufferSize started kept c known s)
    (hc : known[c + position]? = some x) :
    Sound bufferSize started kept (fun s result => Steady bufferSize started kept c known s ∧ result = x)
      (QueueForOneReaderOneIrqWriter.elementAt bufferSize position) s := by
  have hkept := hs.kept
  obtain ⟨hlt, -⟩ := List.getElem?_eq_some_iff.mp hc
  refine verified_bind (sound_loadSize hs) ?_
  rintro s size ⟨known', hknown, hle, hs, rfl⟩
  have hlength := hknown.length_le
  have hroom := hs.room
  refine verified_assert (by omega) (verified_assert (by omega) ?_)
  refine sound_loadBegin (fun s hs => ?_) hs
  refine sound_loadElement (Nat.le_add_right c position) (getElem?_of_isPrefix hknown hc) (position_eq (by omega))
    (fun s hs => ?_) hs
  exact sound_done (fun s hs => ⟨hs.weaken hkept hknown, rfl⟩) hs

/-- A contiguous range of the elements from the number `c + offset` on. -/
theorem sound_contiguousRange {offset : Nat} (hs : Steady bufferSize started kept c known s)
    (hoffset : c + offset ≤ known.length) :
    Sound bufferSize started kept
      (fun s range => Steady bufferSize started kept c known s ∧ range.1 ≤ range.2 ∧
        c + offset + (range.2 - range.1) ≤ s.added.length ∧
        (c + offset < known.length → range.1 < range.2) ∧
        ∀ position, range.1 ≤ position → position < range.2 →
          position = (c + offset + (position - range.1)) % bufferSize)
      (QueueForOneReaderOneIrqWriter.contiguousRange bufferSize offset) s := by
  have hkept := hs.kept
  refine sound_loadEnd (fun known' s hknown hc hs => ?_) hs
  refine sound_loadBegin (fun s hs => ?_) hs
  have hlength := hknown.length_le
  have hroom := hs.room
  rw [position_eq (by omega)]
  obtain ⟨i, hi⟩ := Nat.exists_eq_add_of_le (hoffset.trans hlength)
  have hlast := add_mod_eq (c := c + offset) (n := bufferSize) (i := i) (by omega)
  have hmod := Nat.mod_lt (c + offset) (show 0 < bufferSize by omega)
  refine sound_done (fun s hs => ?_) hs
  have hadded := hs.known.length_le
  refine ⟨hs.weaken hkept hknown, ?_⟩
  have hposition : ∀ position, (c + offset) % bufferSize ≤ position → position < bufferSize →
      position = (c + offset + (position - (c + offset) % bufferSize)) % bufferSize := by
    intro position hge hlt
    rw [add_mod_eq (by omega), if_pos (by omega)]
    omega
  rw [hi, hlast]
  by_cases hwrap : (c + offset) % bufferSize + i < bufferSize
  · rw [if_pos hwrap, if_neg (by omega)]
    refine ⟨by omega, by omega, by omega, ?_⟩
    intro position hge hlt
    exact hposition position hge (by omega)
  · rw [if_neg hwrap, if_pos (by omega)]
    exact ⟨by omega, by omega, by omega, hposition⟩

theorem sound_consume {amount : Nat} (hs : Steady bufferSize started kept c known s) (hc : c + amount ≤ known.length) :
    Sound bufferSize started kept (fun s _ => Steady bufferSize started kept (c + amount) known s)
      (QueueForOneReaderOneIrqWriter.consume bufferSize amount) s := by
  have hroom := hs.room
  have hmod := Nat.mod_lt c (show 0 < bufferSize by omega)
  refine sound_loadBegin (fun s hs => ?_) hs
  split
  · next hwrap =>
      -- the first store takes out the elements up to the end of the buffer
      have hstart : 0 = (c + (bufferSize - c % bufferSize)) % bufferSize := by
        have hdiv := Nat.mod_add_div c bufferSize
        have hsum : c + (bufferSize - c % bufferSize) = bufferSize + bufferSize * (c / bufferSize) := by omega
        rw [hsum, Nat.add_mul_mod_self_left, Nat.mod_self]
      refine sound_loadBegin (fun s hs => ?_) hs
      refine sound_storeBegin (bufferSize - c % bufferSize) (by omega) hstart (fun s hs => ?_) hs
      refine sound_addToBegin (amount - (bufferSize - c % bufferSize)) (by omega) ?_ (fun s hs => ?_) hs
      · rw [add_mod_eq (c := c + (bufferSize - c % bufferSize)) (by omega), ← hstart, if_pos (by omega)]
      · have hsum : c + (bufferSize - c % bufferSize) + (amount - (bufferSize - c % bufferSize)) = c + amount := by
          omega
        rw [hsum] at hs
        exact sound_done (fun s hs => hs) hs
  · next hwrap =>
      refine sound_addToBegin amount hc ?_ (fun s hs => sound_done (fun s hs => hs) hs) hs
      rw [add_mod_eq (by omega), if_pos (by omega)]

/-- The state of the shared data while an operation runs. `DataAvailable` clears `notificationScheduled` for elements
that have been added and that `onDataAvailable` will see. -/
def Operation.Inv (bufferSize started : Nat) (kept : List T) (operation : Operation) (s : Shared T) : Prop :=
  s.queue.buffer.length = bufferSize ∧ (∃ c, Tracks s c) ∧ (operation ≠ dataAvailable → Notified started s) ∧
    kept <+: s.added

/-- An operation can be called when this number of elements was taken out, and this number was added. -/
def Operation.Fits (bufferSize c added : Nat) : Operation → Prop
  | get => c < added
  | elementAt position => c + position < added
  | contiguousRange offset => c + offset ≤ added
  | read position number => c ≤ number ∧ number < added ∧ position = number % bufferSize
  | consume amount => c + amount ≤ added
  | size => True
  | dataAvailable => False

/-- What an operation of the reader is verified for. -/
abbrev Works (bufferSize started : Nat) (kept : List T) (c : Nat) (operation : Operation) (atCall : Nat) :
    Code T (Result T) → Shared T → Prop :=
  Verified Interrupt (operation.Inv bufferSize started kept) (Returned bufferSize started c operation atCall)

variable {operation : Operation} {result : Result T} {atCall : Nat}

/-- What was right stays right when elements are added. -/
theorem Entry.Right.mono {added added' : List T} {k k' : Nat}
    (h : Entry.Right added c ⟨operation, result, n, k⟩) (hadded : added <+: added') (hk : k ≤ k') :
    Entry.Right added' c ⟨operation, result, n, k'⟩ := by
  have hlength := hadded.length_le
  cases operation with
  | get =>
      cases result with
      | element x => exact getElem?_of_isPrefix hadded h
      | _ => exact h.elim
  | elementAt position =>
      cases result with
      | element x => exact getElem?_of_isPrefix hadded h
      | _ => exact h.elim
  | contiguousRange offset =>
      cases result with
      | range first last => exact ⟨h.1, h.2.1.trans hlength, h.2.2⟩
      | _ => exact h.elim
  | read position number =>
      cases result with
      | element x => exact getElem?_of_isPrefix hadded h
      | _ => exact h.elim
  | consume amount =>
      cases result with
      | nothing => trivial
      | _ => exact h.elim
  | size =>
      cases result with
      | number size => exact ⟨h.1, h.2.trans hk⟩
      | _ => exact h.elim
  | dataAvailable =>
      cases result with
      | nothing => trivial
      | _ => exact h.elim

/-- An operation of the reader returns what it should. -/
theorem works_done (hright : Entry.Right s.added c ⟨operation, result, atCall, s.added.length⟩)
    (hpositions : Positions bufferSize c operation result)
    (hs : Steady bufferSize started kept (c + operation.amount) known s) :
    Works bufferSize started kept c operation atCall (Program.done result) s := by
  refine verified_done (p := fun s => Steady bufferSize started kept (c + operation.amount) known s ∧
    Entry.Right s.added c ⟨operation, result, atCall, s.added.length⟩) ?_ ?_ ⟨hs, hright⟩
  · rintro s s' hi ⟨hs, hright⟩
    exact ⟨stable_steady s s' hi hs, hright.mono hi.added hi.added.length_le⟩
  · rintro s ⟨hs, hright⟩
    constructor
    · exact ⟨hs.bufferSize, ⟨_, hs.tracks⟩, fun _ => hs.notified, hs.kept.trans hs.known⟩
    · exact ⟨hs.bufferSize, hs.tracks, hs.notified.1, fun _ => hs.notified, hright, hpositions⟩

theorem works_of_sound (known : List T) {code : Code T ρ} {f : ρ → Result T} {post : Shared T → ρ → Prop}
    (hsound : Sound bufferSize started kept post code s)
    (hpost : ∀ s result, post s result → Steady bufferSize started kept (c + operation.amount) known s ∧
      Entry.Right s.added c ⟨operation, f result, atCall, s.added.length⟩ ∧
      Positions bufferSize c operation (f result)) :
    Works bufferSize started kept c operation atCall (code.map f) s := by
  refine verified_bind (hsound.mono (fun s hs => ⟨hs.1, hs.2.1, fun _ => hs.2.2.1, hs.2.2.2⟩) fun s result h => h) ?_
  intro s result hresult
  obtain ⟨hs, hright, hpositions⟩ := hpost s result hresult
  exact works_done hright hpositions hs

/-- Every operation of the reader, called when it may be, returns what it should. -/
theorem works_code (hs : Steady bufferSize started kept c s.added s)
    (hfits : operation.Fits bufferSize c s.added.length) :
    Works bufferSize started kept c operation s.added.length (operation.code bufferSize) s := by
  have hnone : ∀ (operation : Operation) (result : Result T), (∀ offset, operation ≠ Operation.contiguousRange offset) →
      Positions bufferSize c operation result := by
    intro operation result hne offset first last heq
    exact absurd heq (hne offset)
  cases operation with
  | get =>
      have hx : s.added[c]? = some (s.added.get ⟨c, hfits⟩) := List.getElem?_eq_getElem hfits
      refine works_of_sound s.added (sound_get hs hx) ?_
      rintro s' result ⟨hs', rfl⟩
      exact ⟨hs', getElem?_of_isPrefix hs'.known hx, hnone _ _ (by simp)⟩
  | elementAt position =>
      have hx : s.added[c + position]? = some (s.added.get ⟨c + position, hfits⟩) := List.getElem?_eq_getElem hfits
      refine works_of_sound s.added (sound_elementAt hs hx) ?_
      rintro s' result ⟨hs', rfl⟩
      exact ⟨hs', getElem?_of_isPrefix hs'.known hx, hnone _ _ (by simp)⟩
  | contiguousRange offset =>
      refine works_of_sound s.added (sound_contiguousRange hs hfits) ?_
      rintro s' ⟨first, last⟩ ⟨hs', hle, hadded, hsome, hposition⟩
      refine ⟨hs', ⟨hle, hadded, hsome⟩, ?_⟩
      intro offset' first' last' heq hrange
      cases heq
      cases hrange
      exact hposition
  | read position number =>
      obtain ⟨hc, hlt, hposition⟩ := hfits
      have hx : s.added[number]? = some (s.added.get ⟨number, hlt⟩) := List.getElem?_eq_getElem hlt
      have hsound : Sound bufferSize started kept
          (fun s' result => Steady bufferSize started kept c s.added s' ∧ result = s.added.get ⟨number, hlt⟩)
          (loadElement position Program.done) s :=
        sound_loadElement hc hx hposition (fun s' hs' => sound_done (fun s' hs' => ⟨hs', rfl⟩) hs') hs
      refine works_of_sound s.added hsound ?_
      rintro s' result ⟨hs', rfl⟩
      exact ⟨hs', getElem?_of_isPrefix hs'.known hx, hnone _ _ (by simp)⟩
  | consume amount =>
      refine works_of_sound s.added (sound_consume hs hfits) ?_
      intro s' result hs'
      exact ⟨hs', trivial, hnone _ _ (by simp)⟩
  | size =>
      refine works_of_sound s.added (sound_loadSize hs) ?_
      rintro s' result ⟨known', hknown, hc, hs', rfl⟩
      have hatCall := hknown.length_le
      have hatReturn := hs'.known.length_le
      refine ⟨hs'.weaken hs.kept hknown, ⟨?_, ?_⟩, hnone _ _ (by simp)⟩
      · dsimp only
        omega
      · dsimp only
        omega
  | dataAvailable => exact hfits.elim

/-- `DataAvailable` clears the flag; what is added from then on is scheduled again. -/
theorem works_dataAvailable (hsize : s.queue.buffer.length = bufferSize) (htracks : Tracks s c)
    (hkept : kept <+: s.added) (hscheduled : s.queue.scheduled = 0) (hflag : s.queue.notificationScheduled = true) :
    Works bufferSize started kept c Operation.dataAvailable atCall (Operation.dataAvailable.code bufferSize) s := by
  refine verified_act (p := fun s => (s.queue.buffer.length = bufferSize ∧ Tracks s c ∧ kept <+: s.added) ∧
    s.queue.scheduled = 0 ∧ s.queue.notificationScheduled = true) ?_ ?_ ?_
    ⟨⟨hsize, htracks, hkept⟩, hscheduled, hflag⟩
  · rintro s s' hi ⟨⟨hsize, htracks, hkept⟩, hscheduled, hflag⟩
    obtain ⟨hset, hone⟩ := notificationScheduled_of_interrupt htracks hi
    rw [if_pos hflag] at hone
    exact ⟨⟨hi.buffer_length.trans hsize, htracks.interrupt hi, hkept.trans hi.added⟩, hone.trans hscheduled, hset⟩
  · rintro s ⟨⟨hsize, htracks, hkept⟩, -⟩
    exact ⟨hsize, ⟨c, htracks⟩, fun hne => absurd rfl hne, hkept⟩
  · rintro s ⟨⟨hsize, htracks, hkept⟩, hscheduled, -⟩
    have harmed : Armed { s with queue := { s.queue with notificationScheduled := false } } := by
      refine ⟨?_, ?_⟩
      · dsimp only
        omega
      · dsimp only
        rw [hscheduled]
        decide
    refine verified_done (p := fun s => (s.queue.buffer.length = bufferSize ∧ Tracks s c ∧ kept <+: s.added) ∧
      Armed s) ?_ ?_ ⟨⟨hsize, htracks.congr rfl rfl rfl, hkept⟩, harmed⟩
    · rintro s s' hi ⟨⟨hsize, htracks, hkept⟩, harmed⟩
      exact ⟨⟨hi.buffer_length.trans hsize, htracks.interrupt hi, hkept.trans hi.added⟩,
        (harmed.interrupt htracks hi).1⟩
    · rintro s ⟨⟨hsize, htracks, hkept⟩, harmed⟩
      refine ⟨⟨hsize, ⟨c, htracks⟩, fun hne => absurd rfl hne, hkept⟩, ?_⟩
      exact ⟨hsize, htracks, harmed, fun hne => absurd rfl hne, trivial, fun offset first last heq => by cases heq⟩

/-! ## The whole system -/

variable {t t' : System T}

/-- What holds in every state of a run, `kept` being the elements that had been added when the last operation
returned. -/
structure Reachable (bufferSize : Nat) (kept : List T) (t : System T) : Prop where
  entries : ∀ before entry after, t.log = before ++ entry :: after → entry.Right kept (consumedBy before)
  viewed : ∀ position number, Viewed t.log position number → number < kept.length ∧ position = number % bufferSize
  idle : t.running = none → Steady bufferSize t.started kept (consumedBy t.log) kept t.shared
  running : ∀ r, t.running = some r →
    Works bufferSize t.started kept (consumedBy t.log) r.operation r.atCall r.code t.shared

theorem consumedBy_concat (log : List (Entry T)) (entry : Entry T) :
    consumedBy (log ++ [entry]) = consumedBy log + entry.operation.amount := by
  simp only [consumedBy, List.map_append, List.sum_append, List.map_cons, List.map_nil, List.sum_cons, List.sum_nil,
    Nat.add_zero]

theorem reachable_start {storage : List T} (h : storage ≠ []) : Reachable storage.length [] (start storage) where
  entries := fun before entry after heq => by simp [start] at heq
  viewed := fun position number hviewed => by
    obtain ⟨before, entry, after, offset, first, last, heq, -⟩ := hviewed
    simp [start] at heq
  idle := fun _ => by
    have harmed : Armed (start storage).shared := ⟨Nat.zero_le 1, by simp [start]⟩
    refine ⟨rfl, ⟨Nat.zero_le _, ?_, ?_, ?_, ?_⟩, ⟨harmed, fun hlt => absurd hlt (Nat.lt_irrefl 0)⟩,
      List.nil_prefix, List.nil_prefix⟩
    · exact (Nat.zero_add storage.length).symm ▸ List.length_pos_iff.mpr h
    · exact (Nat.zero_mod _).symm
    · exact (Nat.zero_mod _).symm
    · intro n _ hn
      cases hn
  running := fun r heq => by cases heq

/-- The interrupt adds an element to a queue that is not full. -/
theorem Reachable.interrupt (element : T) (h : Reachable bufferSize kept t) (hfull : t.shared.queue.full = false) :
    ∃ t', step t (Event.interrupt element) = some t' ∧ Reachable bufferSize kept t' := by
  obtain ⟨queue, hadd⟩ : ∃ queue, t.shared.queue.addFromInterrupt element = some queue := by
    unfold addFromInterrupt
    rw [if_neg (Bool.eq_false_iff.mp hfull)]
    exact ⟨_, rfl⟩
  have hi : Interrupt t.shared ⟨queue, t.shared.added ++ [element]⟩ := ⟨element, queue, hadd, rfl⟩
  refine ⟨{ t with shared := ⟨queue, t.shared.added ++ [element]⟩ }, by rw [step, hadd, Option.map_some], ?_⟩
  refine ⟨h.entries, h.viewed, ?_, ?_⟩
  · intro hidle
    exact stable_steady _ _ hi (h.idle hidle)
  · intro r hr
    exact (h.running r hr).interrupted hi

/-- What may be called, by the numbers of elements. -/
theorem Operation.fits_of_allowed (h : Reachable bufferSize kept t) (hidle : t.running = none)
    (hne : operation ≠ Operation.dataAvailable) (hallowed : operation.Allowed t) :
    operation.Fits bufferSize (consumedBy t.log) t.shared.added.length := by
  have htracks := (h.idle hidle).tracks
  have hsize := htracks.size
  have hconsumed := htracks.consumed
  cases operation with
  | get =>
      have hlt : 0 < t.shared.queue.size := hallowed
      unfold Operation.Fits
      omega
  | elementAt position =>
      have hlt : position < t.shared.queue.size := hallowed
      unfold Operation.Fits
      omega
  | contiguousRange offset =>
      have hle : offset ≤ t.shared.queue.size := hallowed
      unfold Operation.Fits
      omega
  | read position number =>
      obtain ⟨hviewed, hle⟩ := hallowed
      obtain ⟨hlt, hposition⟩ := h.viewed position number hviewed
      exact ⟨hle, hlt.trans_le (h.idle hidle).known.length_le, hposition⟩
  | consume amount =>
      have hle : amount ≤ t.shared.queue.size := hallowed
      unfold Operation.Fits
      omega
  | size => trivial
  | dataAvailable => exact absurd rfl hne

theorem callOperation_eq (hidle : t.running = none) (hne : operation ≠ Operation.dataAvailable) :
    callOperation t operation = some { t with
      running := some ⟨operation, operation.code t.shared.queue.buffer.length, t.shared.added.length⟩ } := by
  unfold callOperation
  dsimp only
  rw [hidle, if_neg (by simp), if_neg hne]

theorem callOperation_dataAvailable (hidle : t.running = none) (hscheduled : t.shared.queue.scheduled ≠ 0) :
    callOperation t Operation.dataAvailable = some { t with
      shared := { t.shared with queue := { t.shared.queue with scheduled := t.shared.queue.scheduled - 1 } }
      running := some ⟨Operation.dataAvailable, Operation.dataAvailable.code t.shared.queue.buffer.length,
        t.shared.added.length⟩ } := by
  unfold callOperation
  dsimp only
  rw [hidle, if_neg (by simp), if_pos rfl, if_neg hscheduled]

/-- A call of an operation. -/
theorem Reachable.call (h : Reachable bufferSize kept t) (hidle : t.running = none)
    (hallowed : operation.Allowed t) :
    ∃ t', step t (Event.call operation) = some t' ∧ Reachable bufferSize kept t' := by
  have hs := h.idle hidle
  by_cases hda : operation = Operation.dataAvailable
  · subst hda
    have hscheduled : 0 < t.shared.queue.scheduled := hallowed
    obtain ⟨hle, hflag⟩ := hs.notified.1
    refine ⟨_, callOperation_dataAvailable hidle (by omega), h.entries, h.viewed, (fun hnone => by cases hnone), ?_⟩
    intro r hr
    cases hr
    dsimp only
    rw [hs.bufferSize]
    refine works_dataAvailable hs.bufferSize (hs.tracks.congr rfl rfl rfl) hs.known ?_ (hflag.mpr (by omega))
    dsimp only
    omega
  · refine ⟨_, callOperation_eq hidle hda, h.entries, h.viewed, (fun hnone => by cases hnone), ?_⟩
    intro r hr
    cases hr
    dsimp only
    rw [hs.bufferSize]
    exact works_code { hs with kept := hs.known, known := List.prefix_rfl }
      (Operation.fits_of_allowed h hidle hda hallowed)

theorem split_concat {log before after : List (Entry T)} {entry entry' : Entry T}
    (h : log ++ [entry] = before ++ entry' :: after) :
    before = log ∧ entry' = entry ∨ ∃ after', log = before ++ entry' :: after' := by
  rcases List.eq_nil_or_concat after with rfl | ⟨after', last, rfl⟩
  · obtain ⟨hlog, hentry⟩ := List.append_inj' h rfl
    exact Or.inl ⟨hlog.symm, (List.singleton_inj.mp hentry).symm⟩
  · rw [List.concat_eq_append, ← List.cons_append, ← List.append_assoc] at h
    exact Or.inr ⟨after', (List.append_inj' h rfl).1⟩

section

variable (h : Reachable bufferSize kept t)
include h

/-- An operation returns. -/
theorem Reachable.returned (hkept : kept <+: t.shared.added)
    (hresult : Returned bufferSize t.started (consumedBy t.log) operation atCall t.shared result) :
    Reachable bufferSize t.shared.added { t with
      running := none
      log := t.log ++ [⟨operation, result, atCall, t.shared.added.length⟩]
      started := if operation = Operation.dataAvailable then t.shared.added.length else t.started } where
  entries := fun before entry after heq => by
    rcases split_concat heq with ⟨rfl, rfl⟩ | ⟨after', hlog⟩
    · exact hresult.right
    · exact (h.entries before entry after' hlog).mono hkept (Nat.le_refl _)
  viewed := fun position number hviewed => by
    obtain ⟨before, entry, after, offset, first, last, heq, hoperation, hrange, hge, hlt, hnumber⟩ := hviewed
    rcases split_concat heq with ⟨rfl, rfl⟩ | ⟨after', hlog⟩
    · dsimp only at hoperation hrange ⊢
      subst hoperation hrange hnumber
      obtain ⟨-, hadded, -⟩ := hresult.right
      exact ⟨by omega, hresult.positions offset first last rfl rfl position hge hlt⟩
    · obtain ⟨hnumber, hposition⟩ := h.viewed position number
        ⟨before, entry, after', offset, first, last, hlog, hoperation, hrange, hge, hlt, hnumber⟩
      exact ⟨hnumber.trans_le hkept.length_le, hposition⟩
  idle := fun _ => by
    refine ⟨hresult.length, ?_, ⟨hresult.armed, ?_⟩, List.prefix_rfl, List.prefix_rfl⟩
    · rw [consumedBy_concat]
      exact hresult.tracks
    · dsimp only
      split
      · exact fun hlt => absurd hlt (Nat.lt_irrefl _)
      · next hne => exact (hresult.notified hne).2
  running := fun r heq => by cases heq

/-- An action of the reader. -/
theorem Reachable.step (hrunning : t.running ≠ none) :
    ∃ t' kept', QueueForOneReaderOneIrqWriter.step t Event.step = some t' ∧ Reachable bufferSize kept' t' := by
  obtain ⟨⟨operation, code, atCall⟩, hr⟩ := Option.ne_none_iff_exists'.mp hrunning
  have hworks := h.running _ hr
  unfold QueueForOneReaderOneIrqWriter.step
  rw [hr, Option.bind_some]
  cases code with
  | done result => exact ⟨_, _, rfl, h.returned hworks.invariant.2.2.2 hworks.result⟩
  | fail => exact hworks.elim
  | act update next =>
      refine ⟨_, kept, rfl, h.entries, h.viewed, (fun hnone => by cases hnone), ?_⟩
      intro r hr
      cases hr
      exact hworks.next

theorem Reachable.event {e : Event T} (hpossible : Possible t e) :
    ∃ t' kept', QueueForOneReaderOneIrqWriter.step t e = some t' ∧ Reachable bufferSize kept' t' := by
  cases e with
  | interrupt element =>
      obtain ⟨t', hstep, ht'⟩ := h.interrupt element hpossible
      exact ⟨t', kept, hstep, ht'⟩
  | call operation =>
      obtain ⟨t', hstep, ht'⟩ := h.call hpossible.1 hpossible.2
      exact ⟨t', kept, hstep, ht'⟩
  | step => exact h.step hpossible

/-- What the invariant says to the users of the queue. -/
theorem Reachable.fifo : Fifo t := by
  have hshared : kept <+: t.shared.added ∧
      (t.started < t.shared.added.length → 0 < t.shared.queue.scheduled ∨ t.notifying) := by
    cases hr : t.running with
    | none =>
        have hs := h.idle hr
        refine ⟨hs.known, fun hlt => Or.inl ?_⟩
        rw [hs.notified.2 hlt]
        exact Nat.one_pos
    | some r =>
        obtain ⟨-, -, hnotified, hkept⟩ := (h.running r hr).invariant
        refine ⟨hkept, fun hlt => ?_⟩
        by_cases hda : r.operation = Operation.dataAvailable
        · exact Or.inr ⟨r, hr, hda⟩
        · left
          rw [(hnotified hda).2 hlt]
          exact Nat.one_pos
  refine ⟨?_, ?_, hshared.2⟩
  · intro before entry after heq
    exact (h.entries before entry after heq).mono hshared.1 (Nat.le_refl _)
  · intro hidle
    have hs := h.idle hidle
    exact ⟨hs.tracks.consumed, hs.tracks.size⟩

end

/-- **The queue is a first-in first-out queue** between its reader and the interrupt: whenever the interrupt adds an
element between the actions of the reader, no assertion fails, every operation returns the elements that were
added, in their order and each of them once, `Size` is the number of elements that were added and not consumed, and
`DataAvailable` is scheduled for elements that were added since `onDataAvailable` was started. -/
theorem queue_fifo {storage : List T} (hstorage : storage ≠ []) {events : List (Event T)}
    (hpossible : EventSystem.Along step Possible (start storage) events) :
    ∃ t, EventSystem.run step (start storage) events = some t ∧ Fifo t := by
  have hstep : ∀ (t : System T) (e : Event T), (∃ kept, Reachable storage.length kept t) → Possible t e →
      ∃ t', step t e = some t' ∧ ∃ kept, Reachable storage.length kept t' := by
    rintro t e ⟨kept, ht⟩ he
    obtain ⟨t', kept', hstep, ht'⟩ := ht.event he
    exact ⟨t', hstep, kept', ht'⟩
  obtain ⟨t, hrun, kept, ht⟩ := EventSystem.run_along _ hstep hpossible ⟨[], reachable_start hstorage⟩
  exact ⟨t, hrun, ht.fifo⟩

/-- The interrupt adds a second element while `Get` takes the first one. -/
theorem queue_fifo_interrupted : ∃ t, EventSystem.run step (start [0, 0, 0])
    ([Event.interrupt 7, Event.call Operation.get, Event.step, Event.interrupt 8] ++ List.replicate 6 Event.step) =
      some t ∧ Fifo t := by
  have hstep : ∀ (t t' : System Nat) (rest : List (Event Nat)), step t Event.step = some t' → t.running ≠ none →
      EventSystem.Along step Possible t' rest → EventSystem.Along step Possible t (Event.step :: rest) :=
    fun t t' rest ht hrunning hrest => EventSystem.along_cons ht hrunning hrest
  refine queue_fifo (by decide) ?_
  refine EventSystem.along_cons rfl rfl ?_
  refine EventSystem.along_cons rfl ⟨rfl, Nat.one_pos⟩ ?_
  refine hstep _ _ _ rfl (Option.some_ne_none _) ?_
  refine EventSystem.along_cons rfl rfl ?_
  refine hstep _ _ _ rfl (Option.some_ne_none _) ?_
  refine hstep _ _ _ rfl (Option.some_ne_none _) ?_
  refine hstep _ _ _ rfl (Option.some_ne_none _) ?_
  refine hstep _ _ _ rfl (Option.some_ne_none _) ?_
  refine hstep _ _ _ rfl (Option.some_ne_none _) ?_
  exact hstep _ _ _ rfl (Option.some_ne_none _) trivial

end QueueForOneReaderOneIrqWriter

end EmbeddedInfra
