import EmbeddedInfra.Infra.Util.IntrusiveList
import EmbeddedInfra.Lib.EventSystem

set_option autoImplicit false

/-! # A subject with several observers

`infra::Subject` keeps its observers in an intrusive list. `NotifyObservers` goes through this list with an
iterator that it advances before each callback, so that a callback may detach the observer that it is called
for. What the callbacks do between two turns of the loop is a list of events; a callback that notifies again
starts a notification inside the one that called it.
-/

namespace EmbeddedInfra.Observer

/-! ## The model -/

/-- One run of `NotifyObservers`. What it has to do is told by the fields from `start` on, which the code does
not have: the observers that were attached at its start, those called, and those detached before their turn. -/
structure Notification (α : Type) where
  /-- the iterator -/
  next : NodePointer α
  /-- the variant whose callback has a result -/
  withResult : Bool
  start : List α
  called : List α := []
  missed : List α := []
  attaches : Nat := 0
  /-- the results of the callbacks that have returned; `false` for those without a result -/
  results : List Bool := []
  stopped : Bool := false

/-- A subject, its observers, and the runs of `NotifyObservers`: those in progress, innermost first, and those
that have ended. -/
structure Subject (α : Type) where
  observers : IntrusiveList α := {}
  /-- `subject != nullptr` of each observer -/
  subject : α → Bool := fun _ => false
  running : List (Notification α) := []
  ended : List (Notification α) := []
  /-- the observers that are attached, in order of attachment -/
  order : List α := []
  calledDetached : Bool := false
  undefined : Bool := false

variable {α : Type} [DecidableEq α]

/-- The observers attached at the start that were not detached before their turn. -/
def Notification.due (f : Notification α) : List α := f.start.filter (· ∉ f.missed)

def Notification.detached (f : Notification α) (o : α) : Notification α :=
  if o ∈ f.called then f else { f with missed := o :: f.missed }

namespace Subject

def unregisterObserver (s : Subject α) (o : α) : Subject α :=
  match s.observers.erase o with
  | none => { s with undefined := true }
  | some observers => { s with
      observers := observers
      order := s.order.erase o
      running := s.running.map (·.detached o) }

def registerObserver (s : Subject α) (o : α) : Subject α :=
  match s.observers.pushBack o with
  | none => { s with undefined := true }
  | some observers => { s with
      observers := observers
      order := s.order ++ [o]
      running := s.running.map fun f => { f with attaches := f.attaches + 1 } }

def detach (s : Subject α) (o : α) : Subject α :=
  let s := if s.subject o then s.unregisterObserver o else s
  { s with subject := Function.update s.subject o false }

def attach (s : Subject α) (o : α) : Subject α :=
  let s := s.detach o
  registerObserver { s with subject := Function.update s.subject o true } o

/-- The loop of `NotifyObservers` up to the next callback, or to its end. -/
def turn (s : Subject α) : Subject α :=
  match s.running with
  | [] => s
  | f :: outer =>
      match f.next with
      | .endNode => { s with running := outer, ended := f :: s.ended }
      | .null => { s with undefined := true }
      | .node o =>
          match s.observers.nodes o with
          | none => { s with undefined := true }
          | some node => { s with
              running := { f with next := node.next, called := f.called ++ [o] } :: outer
              calledDetached := s.calledDetached || decide (o ∉ s.order) }

def notifyObservers (s : Subject α) (withResult : Bool) : Subject α :=
  turn { s with running := ⟨s.observers.beginNode, withResult, s.order, [], [], 0, [], false⟩ :: s.running }

/-- The callback of the innermost notification returns. -/
def callbackReturns (s : Subject α) (f : Notification α) (outer : List (Notification α)) (result : Bool) :
    Subject α :=
  if f.withResult && result then
    { s with running := outer, ended := { f with results := f.results ++ [true], stopped := true } :: s.ended }
  else
    turn { s with running := { f with results := f.results ++ [false] } :: outer }

end Subject

inductive Event (α : Type)
  | construct (o : α)
  | destroy (o : α)
  | attach (o : α)
  | detach (o : α)
  | notifyObservers (withResult : Bool)
  | returns (result : Bool)

/-- One event; none is possible on an observer that does not exist, or after undefined behaviour. -/
def step (s : Subject α) (e : Event α) : Option (Subject α) :=
  if s.undefined then none
  else
    match e with
    | .construct o =>
        if s.observers.nodes o = none then some { s with observers := s.observers.construct o } else none
    | .destroy o =>
        if (s.observers.nodes o).isSome then
          let s := s.detach o
          some { s with observers := s.observers.destruct o }
        else none
    | .attach o => if (s.observers.nodes o).isSome then some (s.attach o) else none
    | .detach o => if (s.observers.nodes o).isSome then some (s.detach o) else none
    | .notifyObservers withResult => some (s.notifyObservers withResult)
    | .returns result =>
        match s.running with
        | [] => none
        | f :: outer => some (s.callbackReturns f outer result)

/-! ## What is promised -/

/-- What a run of `NotifyObservers` has done: it called the observers that are due in their order, all of them
when it came to its end, and stopped at the first result that was true. No more callbacks are made than
observers were attached, so that it comes to an end when only finitely many are. -/
structure Notification.Kept (f : Notification α) (ended : Bool) : Prop where
  distinct : f.due.Nodup
  inOrder : f.called.filter (· ∈ f.due) <+: f.due
  complete : ended = true → f.stopped = false → f.called.filter (· ∈ f.due) = f.due
  bounded : f.called.length ≤ f.start.length + f.attaches
  returned : f.called.length = f.results.length + if ended then 0 else 1
  firstTrue : true ∉ f.results.dropLast
  stops : true ∈ f.results ↔ ended = true ∧ f.stopped = true

structure Subject.Kept (s : Subject α) : Prop where
  defined : s.undefined = false
  attached : ∀ o, s.subject o = true ↔ o ∈ s.order
  noneDetached : s.calledDetached = false
  running : ∀ f ∈ s.running, f.Kept false
  ended : ∀ f ∈ s.ended, f.Kept true

/-- An observer that some notification is to call next is not detached, destroyed or attached again; and one
that a notification was to call once is not attached again behind the observers that it has still to call. -/
def Careful (s : Subject α) : Event α → Prop
  | .destroy o => ∀ f ∈ s.running, f.next ≠ .node o
  | .detach o => ∀ f ∈ s.running, f.next ≠ .node o
  | .attach o => ∀ f ∈ s.running, f.next ≠ .node o ∧ (f.next ≠ .endNode → o ∈ f.called → o ∉ f.due)
  | _ => True

/-! ## The position of a notification in the list -/

/-- The observers that a notification has still to call are those from its iterator on. -/
structure Notification.At (f : Notification α) (order : List α) : Prop where
  distinct : f.start.Nodup
  rest : ∃ before rest, order = before ++ rest ∧ f.next = IntrusiveList.first rest ∧
    (f.called ++ rest).filter (· ∈ f.due) = f.due ∧ f.called.length + rest.length ≤ f.start.length + f.attaches

/-- A notification whose last callback has not returned. -/
structure Notification.Calling (f : Notification α) : Prop where
  returned : f.called.length = f.results.length + 1
  noneTrue : true ∉ f.results
  notStopped : f.stopped = false

/-- A notification between two callbacks. -/
structure Notification.Between (f : Notification α) : Prop where
  returned : f.called.length = f.results.length
  noneTrue : true ∉ f.results
  notStopped : f.stopped = false

namespace Notification

variable {f : Notification α} {order : List α} {o : α}

theorem due_detached : (f.detached o).due = if o ∈ f.called then f.due else f.due.filter (· ≠ o) := by
  unfold detached
  split
  · rfl
  · rw [due, due, List.filter_filter]
    apply List.filter_congr
    intro x _
    simp [not_or]

@[simp] theorem next_detached : (f.detached o).next = f.next := by
  unfold detached
  split <;> rfl

@[simp] theorem called_detached : (f.detached o).called = f.called := by
  unfold detached
  split <;> rfl

theorem mem_due_of_detached {x : α} (h : x ∈ (f.detached o).due) : x ∈ f.due := by
  rw [due_detached] at h
  split at h
  · exact h
  · exact List.mem_of_mem_filter h

theorem first_filter {rest : List α} (h : IntrusiveList.first rest ≠ .node o) :
    IntrusiveList.first (rest.filter (· ≠ o)) = IntrusiveList.first rest := by
  cases rest with
  | nil => rfl
  | cons a rest =>
      have hne : a ≠ o := fun hc => h (by rw [hc]; rfl)
      simp [hne]

/-- An observer that has been called, and was to be called once, is not among those still to be called. -/
theorem At.not_mem_rest {rest : List α} (hdistinct : f.start.Nodup)
    (hdue : (f.called ++ rest).filter (· ∈ f.due) = f.due) (ho : o ∈ f.due) (hcalled : o ∈ f.called) : o ∉ rest := by
  have hnodup : ((f.called ++ rest).filter (· ∈ f.due)).Nodup := by
    rw [hdue]
    exact hdistinct.filter _
  rw [List.filter_append] at hnodup
  intro hrest
  have hleft : o ∈ f.called.filter (· ∈ f.due) := List.mem_filter.mpr ⟨hcalled, by simpa using ho⟩
  have hright : o ∈ rest.filter (· ∈ f.due) := List.mem_filter.mpr ⟨hrest, by simpa using ho⟩
  exact (List.nodup_append.mp hnodup).2.2 o hleft o hright rfl

/-- **An observer that is not the next one leaves the list.** -/
theorem At.detached (h : f.At order) (horder : order.Nodup) (hnext : f.next ≠ .node o) :
    (f.detached o).At (order.erase o) := by
  rcases h.rest with ⟨before, rest, rfl, hfirst, hdue, hlength⟩
  have hstart : (f.detached o).start = f.start := by
    unfold Notification.detached
    split <;> rfl
  have hattaches : (f.detached o).attaches = f.attaches := by
    unfold Notification.detached
    split <;> rfl
  refine ⟨by rw [hstart]; exact h.distinct, before.filter (· ≠ o), rest.filter (· ≠ o), ?_, ?_, ?_, ?_⟩
  · rw [horder.erase_eq_filter, ← List.filter_append]
    apply List.filter_congr
    intro x _
    by_cases hxo : x = o
    · simp [hxo]
    · simp [hxo]
  · rw [next_detached, hfirst, first_filter (hfirst ▸ hnext)]
  · rw [called_detached, due_detached]
    split
    · next hcalled =>
        -- whoever is due and still to be called is not the one that leaves
        have hsame : (rest.filter (· ≠ o)).filter (· ∈ f.due) = rest.filter (· ∈ f.due) := by
          rw [List.filter_filter]
          apply List.filter_congr
          intro x hx
          by_cases hxo : x = o
          · have : o ∉ f.due := fun ho => At.not_mem_rest h.distinct hdue ho hcalled (hxo ▸ hx)
            simp [hxo, this]
          · simp [hxo]
        rw [List.filter_append, hsame, ← List.filter_append]
        exact hdue
    · next hcalled =>
        have hcalled' : f.called.filter (· ≠ o) = f.called := by
          apply List.filter_eq_self.mpr
          intro x hx
          have : x ≠ o := fun hc => hcalled (hc ▸ hx)
          simpa using this
        calc (f.called ++ rest.filter (· ≠ o)).filter (· ∈ f.due.filter (· ≠ o))
            = ((f.called ++ rest).filter (· ≠ o)).filter (· ∈ f.due.filter (· ≠ o)) := by
              rw [List.filter_append f.called rest, hcalled']
          _ = ((f.called ++ rest).filter (· ∈ f.due)).filter (· ≠ o) := by
              rw [List.filter_filter, List.filter_filter]
              apply List.filter_congr
              intro x _
              by_cases hxo : x = o
              · simp [hxo]
              · simp [hxo]
          _ = f.due.filter (· ≠ o) := by rw [hdue]
  · rw [called_detached, hstart, hattaches]
    have := List.length_filter_le (· ≠ o) rest
    omega

/-- **An observer that is not in the list joins it.** -/
theorem At.attached (h : f.At order) (ho : o ∉ order) (hcalled : f.next ≠ .endNode → o ∈ f.called → o ∉ f.due) :
    At { f with attaches := f.attaches + 1 } (order ++ [o]) := by
  rcases h.rest with ⟨before, rest, rfl, hfirst, hdue, hlength⟩
  refine ⟨h.distinct, ?_⟩
  cases rest with
  | nil =>
      -- the iterator is at the end already
      exact ⟨before ++ [o], [], by simp, hfirst, hdue, Nat.le_succ_of_le hlength⟩
  | cons a rest =>
      have hnotDue : o ∉ f.due := by
        intro hmem
        have hcover : o ∈ (f.called ++ a :: rest).filter (· ∈ f.due) := by
          rw [hdue]
          exact hmem
        rcases List.mem_append.mp (List.mem_of_mem_filter hcover) with hc | hr
        · exact hcalled (by rw [hfirst]; simp) hc hmem
        · exact ho (List.mem_append_right before hr)
      refine ⟨before, (a :: rest) ++ [o], by simp, hfirst, ?_, ?_⟩
      · calc (f.called ++ ((a :: rest) ++ [o])).filter (· ∈ f.due)
            = (f.called ++ a :: rest).filter (· ∈ f.due) ++ [o].filter (· ∈ f.due) := by
              rw [← List.append_assoc, List.filter_append]
          _ = f.due := by simp [hdue, hnotDue]
      · simp only [List.length_append, List.length_cons, List.length_nil] at hlength ⊢
        omega

theorem Calling.detached (h : f.Calling) : (f.detached o).Calling := by
  unfold Notification.detached
  split
  · exact h
  · exact { h with }

/-- What the position says of a notification in progress. -/
theorem At.kept (h : f.At order) (hcalling : f.Calling) : f.Kept false := by
  rcases h.rest with ⟨before, rest, -, -, hdue, hlength⟩
  refine ⟨h.distinct.filter _, ?_, by simp, by omega, by simpa using hcalling.returned, ?_, ?_⟩
  · rw [List.filter_append] at hdue
    exact ⟨_, hdue⟩
  · exact fun hmem => hcalling.noneTrue (List.mem_of_mem_dropLast hmem)
  · simp [hcalling.noneTrue]

/-- The iterator is at the end. -/
theorem At.kept_of_end (h : f.At order) (hbetween : f.Between) (hnext : f.next = .endNode) : f.Kept true := by
  rcases h.rest with ⟨before, rest, -, hfirst, hdue, hlength⟩
  have hrest : rest = [] := by
    cases rest with
    | nil => rfl
    | cons a rest =>
        rw [hnext] at hfirst
        cases hfirst
  subst hrest
  rw [List.append_nil] at hdue
  refine ⟨h.distinct.filter _, ?_, fun _ _ => hdue, by omega, by simpa using hbetween.returned, ?_, ?_⟩
  · rw [hdue]
  · exact fun hmem => hbetween.noneTrue (List.mem_of_mem_dropLast hmem)
  · simp [hbetween.noneTrue, hbetween.notStopped]

/-- The callback has returned true. -/
theorem At.kept_of_stopped (h : f.At order) (hcalling : f.Calling) :
    Kept { f with results := f.results ++ [true], stopped := true } true := by
  have hkept := h.kept hcalling
  refine ⟨hkept.distinct, hkept.inOrder, by simp, hkept.bounded, ?_, ?_, ?_⟩
  · simpa using hcalling.returned
  · simpa using hcalling.noneTrue
  · simp

end Notification

/-! ## The invariant -/

/-- What holds between two events. -/
structure Subject.Inv (s : Subject α) : Prop where
  defined : s.undefined = false
  list : s.observers.Contains s.order
  attached : ∀ o, s.subject o = true ↔ o ∈ s.order
  noneDetached : s.calledDetached = false
  position : ∀ f ∈ s.running, f.At s.order
  calling : ∀ f ∈ s.running, f.Calling
  ended : ∀ f ∈ s.ended, f.Kept true

namespace Subject

variable {s : Subject α} {o : α}

theorem Inv.kept (h : s.Inv) : s.Kept :=
  { h with running := fun f hf => (h.position f hf).kept (h.calling f hf) }

theorem inv_create : Inv ({} : Subject α) where
  defined := rfl
  list := IntrusiveList.contains_nil _ (by simp)
  attached := by simp
  noneDetached := rfl
  position := by simp
  calling := by simp
  ended := by simp

/-- **One turn of the loop.** The iterator is at an observer of the list, or at its end. -/
theorem Inv.turn {f : Notification α} {outer : List (Notification α)} (h : Inv { s with running := outer })
    (hat : f.At s.order) (hbetween : f.Between) : Inv (turn { s with running := f :: outer }) := by
  rcases hat.rest with ⟨before, rest, horder, hfirst, hdue, hlength⟩
  cases rest with
  | nil =>
      have hturn : Subject.turn { s with running := f :: outer } =
          { s with running := outer, ended := f :: s.ended } := by
        simp [Subject.turn, hfirst]
      rw [hturn]
      refine { h with ended := ?_ }
      exact List.forall_mem_cons.mpr ⟨hat.kept_of_end hbetween hfirst, h.ended⟩
  | cons o rest =>
      have hnode := h.list.linked before o rest horder
      have ho : o ∈ s.order := by simp [horder]
      have hturn : Subject.turn { s with running := f :: outer } = { s with
          running := { f with next := IntrusiveList.first rest, called := f.called ++ [o] } :: outer } := by
        dsimp only at hnode
        simp [Subject.turn, hfirst, hnode, ho]
      rw [hturn]
      refine { h with position := ?_, calling := ?_ }
      · refine List.forall_mem_cons.mpr ⟨⟨hat.distinct, before ++ [o], rest, ?_, rfl, ?_, ?_⟩, h.position⟩
        · simp [horder]
        · rw [List.append_assoc]
          exact hdue
        · simp only [List.length_append, List.length_cons, List.length_nil] at hlength ⊢
          omega
      · refine List.forall_mem_cons.mpr ⟨{ hbetween with returned := ?_ }, h.calling⟩
        simp [hbetween.returned]

/-- **An observer leaves** that no notification is to call next. -/
theorem Inv.detach (h : s.Inv) (ho : (s.observers.nodes o).isSome) (hnext : ∀ f ∈ s.running, f.next ≠ .node o) :
    Inv (s.detach o) ∧ o ∉ (s.detach o).order ∧
      (∀ x, ((s.detach o).observers.nodes x).isSome = (s.observers.nodes x).isSome) ∧
      ∀ f ∈ (s.detach o).running, ∃ f' ∈ s.running,
        f.next = f'.next ∧ f.called = f'.called ∧ ∀ x ∈ f.due, x ∈ f'.due := by
  by_cases hsubject : s.subject o = true
  · obtain ⟨l, herase, hcontains, hnodes⟩ := h.list.erase_spec ho
    have hdetach : s.detach o = { s with
        observers := l
        order := s.order.erase o
        running := s.running.map (·.detached o)
        subject := Function.update s.subject o false } := by
      simp [Subject.detach, hsubject, unregisterObserver, herase]
    rw [hdetach]
    refine ⟨⟨h.defined, hcontains, ?_, h.noneDetached, ?_, ?_, h.ended⟩, ?_, hnodes, ?_⟩
    · intro x
      by_cases hx : x = o
      · simp [hx, h.list.nodup.not_mem_erase]
      · simp [hx, Function.update_of_ne, h.attached, List.mem_erase_of_ne hx]
    · exact List.forall_mem_map.mpr fun f hf => (h.position f hf).detached h.list.nodup (hnext f hf)
    · exact List.forall_mem_map.mpr fun f hf => (h.calling f hf).detached
    · exact h.list.nodup.not_mem_erase
    · refine List.forall_mem_map.mpr fun f hf => ⟨f, hf, ?_, ?_, ?_⟩
      · exact Notification.next_detached
      · exact Notification.called_detached
      · exact fun _ => Notification.mem_due_of_detached
  · -- the observer is not attached
    have hdetach : s.detach o = s := by
      have hsame : Function.update s.subject o false = s.subject := by
        rw [Function.update_eq_self_iff]
        simpa using hsubject
      simp [Subject.detach, hsubject, hsame]
    rw [hdetach]
    refine ⟨h, ?_, fun _ => rfl, fun f hf => ⟨f, hf, rfl, rfl, fun _ hx => hx⟩⟩
    exact fun hmem => hsubject ((h.attached o).mpr hmem)

/-- **An observer joins** that is not attached. -/
theorem Inv.registerObserver (h : s.Inv) (ho : (s.observers.nodes o).isSome) (hmem : o ∉ s.order)
    (hcalled : ∀ f ∈ s.running, f.next ≠ .endNode → o ∈ f.called → o ∉ f.due) :
    Inv (registerObserver { s with subject := Function.update s.subject o true } o) := by
  obtain ⟨l, hpush, hcontains, -⟩ := h.list.pushBack_spec ho hmem
  simp only [Subject.registerObserver, hpush]
  refine ⟨h.defined, hcontains, ?_, h.noneDetached, ?_, ?_, h.ended⟩
  · intro x
    by_cases hx : x = o
    · simp [hx]
    · simp [hx, Function.update_of_ne, h.attached]
  · exact List.forall_mem_map.mpr fun f hf => (h.position f hf).attached hmem (hcalled f hf)
  · refine List.forall_mem_map.mpr fun f hf => ?_
    have hf := h.calling f hf
    exact { hf with }

theorem Inv.attach (h : s.Inv) (ho : (s.observers.nodes o).isSome) (hcareful : Careful s (.attach o)) :
    Inv (s.attach o) := by
  obtain ⟨hdetached, hmem, hnodes, hrunning⟩ := h.detach ho fun f hf => (hcareful f hf).1
  apply hdetached.registerObserver
  · rw [hnodes]
    exact ho
  · exact hmem
  · intro f hf hnext hcalled hdue
    rcases hrunning f hf with ⟨f', hf', hnext', hcalled', hdue'⟩
    exact (hcareful f' hf').2 (hnext' ▸ hnext) (hcalled' ▸ hcalled) (hdue' o hdue)

theorem Inv.destroy (h : s.Inv) (ho : (s.observers.nodes o).isSome) (hnext : ∀ f ∈ s.running, f.next ≠ .node o) :
    Inv { s.detach o with observers := (s.detach o).observers.destruct o } := by
  obtain ⟨hdetached, hmem, -, -⟩ := h.detach ho hnext
  exact { hdetached with list := hdetached.list.destruct hmem }

/-- A notification starts at the first observer. -/
theorem Inv.notifyObservers (h : s.Inv) (withResult : Bool) : Inv (s.notifyObservers withResult) := by
  apply Inv.turn h
  · refine ⟨h.list.nodup, [], s.order, rfl, h.list.begins, ?_, ?_⟩
    · simp [Notification.due]
    · simp
  · exact ⟨rfl, by simp, rfl⟩

theorem Inv.callbackReturns {f : Notification α} {outer : List (Notification α)} (h : s.Inv)
    (hrunning : s.running = f :: outer) (result : Bool) : Inv (s.callbackReturns f outer result) := by
  have hposition := h.position
  have hcalling := h.calling
  rw [hrunning] at hposition hcalling
  rcases List.forall_mem_cons.mp hposition with ⟨hat, hpositions⟩
  rcases List.forall_mem_cons.mp hcalling with ⟨hf, hcallings⟩
  unfold Subject.callbackReturns
  split
  · refine { h with position := hpositions, calling := hcallings, ended := ?_ }
    exact List.forall_mem_cons.mpr ⟨hat.kept_of_stopped hf, h.ended⟩
  · apply Inv.turn
    · exact { h with position := hpositions, calling := hcallings }
    · exact { hat with }
    · refine ⟨?_, ?_, hf.notStopped⟩
      · simp [hf.returned]
      · simpa using hf.noneTrue

/-- **A careful event keeps the invariant.** -/
theorem Inv.step {s' : Subject α} {e : Event α} (h : s.Inv) (hcareful : Careful s e)
    (hstep : step s e = some s') : s'.Inv := by
  unfold Observer.step at hstep
  rw [if_neg (by simp [h.defined])] at hstep
  cases e with
  | construct o =>
      dsimp only at hstep
      split at hstep
      · next hnone =>
          cases hstep
          exact { h with list := h.list.construct hnone }
      · cases hstep
  | destroy o =>
      dsimp only at hstep
      split at hstep
      · next ho =>
          cases hstep
          exact h.destroy ho hcareful
      · cases hstep
  | attach o =>
      dsimp only at hstep
      split at hstep
      · next ho =>
          cases hstep
          exact h.attach ho hcareful
      · cases hstep
  | detach o =>
      dsimp only at hstep
      split at hstep
      · next ho =>
          cases hstep
          exact (h.detach ho hcareful).1
      · cases hstep
  | notifyObservers withResult =>
      cases hstep
      exact h.notifyObservers withResult
  | returns result =>
      dsimp only at hstep
      split at hstep
      · cases hstep
      · next f outer hrunning =>
          cases hstep
          exact h.callbackReturns hrunning result

end Subject

/-! ## Every run -/

/-- **In a run of careful events every notification calls the observers that are due once and in their order**,
calls none that is detached, and stops at the first result that is true. -/
theorem notifyObservers_kept {events : List (Event α)} {s : Subject α}
    (hcareful : EventSystem.Along step Careful {} events) (hrun : EventSystem.run step {} events = some s) : s.Kept :=
  (EventSystem.run_invariant_along Subject.Inv (fun _ _ _ h hc hstep => h.step hc hstep) hcareful hrun
    Subject.inv_create).kept

/-- The first of two observers detaches itself when it is called. -/
theorem notifyObservers_kept_two : ∃ s : Subject Bool, s.Kept ∧ EventSystem.run step {} [.construct false,
    .construct true, .attach false, .attach true, .notifyObservers false, .detach false, .returns false,
    .returns false] = some s ∧ s.ended.map (·.called) = [[false, true]] := by
  have hrun : EventSystem.run step ({} : Subject Bool) [.construct false, .construct true, .attach false,
      .attach true, .notifyObservers false, .detach false, .returns false, .returns false] = some _ := rfl
  refine ⟨_, notifyObservers_kept ?_ hrun, hrun, rfl⟩
  apply EventSystem.along_cons rfl trivial
  apply EventSystem.along_cons rfl trivial
  apply EventSystem.along_cons rfl (by rintro f ⟨⟩)
  apply EventSystem.along_cons rfl (by rintro f ⟨⟩)
  apply EventSystem.along_cons rfl trivial
  apply EventSystem.along_cons rfl (List.forall_mem_singleton.mpr (by decide))
  apply EventSystem.along_cons rfl trivial
  exact EventSystem.along_cons rfl trivial trivial

/-- The first of two observers detaches the second when it is called, and the second is called nevertheless. -/
theorem notifyObservers_not_kept : ¬ ∀ (events : List (Event Bool)) (s : Subject Bool),
    EventSystem.run step {} events = some s → s.Kept := by
  intro hall
  have h := hall [.construct false, .construct true, .attach false, .attach true, .notifyObservers false,
    .detach true, .returns false] _ rfl
  have hdetached : true = false := h.noneDetached
  cases hdetached

end EmbeddedInfra.Observer
