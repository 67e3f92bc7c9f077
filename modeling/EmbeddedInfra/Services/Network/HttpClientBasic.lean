import EmbeddedInfra.Lib.EventSystem

set_option autoImplicit false

/-! # The basic HTTP client

`services::HttpClientBasic` is the observer of an HTTP client that a connector makes for it. It reports
the outcome of an attempt when the last pointer to it is released; what it reports then is an action
that it may replace until that happens. The same object is used for the next attempt.
-/

namespace EmbeddedInfra.HttpClientBasic

open EventSystem

inductive State
  | idle
  | connecting
  | connected
  | closing
  deriving DecidableEq, Repr

/-- The action for the release of the last pointer: `Expire`, `ReportError(true)`, or the callback of a
`Cancel`. -/
inductive OnUnReferenced (κ : Type)
  | expire
  | reportError
  | onDone (callback : κ)
  deriving DecidableEq, Repr

/-- The ways in which an attempt ends. -/
inductive Report (κ : Type)
  | done
  | error (intermittentFailure : Bool)
  | cancelled (callback : κ)
  deriving DecidableEq, Repr

/-- What happens to an attempt before it ends. A failure is a failed connection, a timeout or a close by
the other side. -/
structure Attempt (κ : Type) where
  bodyCompleted : Bool
  contentError : Bool
  failed : Bool
  cancels : List κ
  deriving DecidableEq, Repr

/-- `attached` tells that the client knows its observer, `pending` that the connector is to give a
result, `held` that there is a pointer to the observer. The last members record what has happened:
whether an assertion of `Close` has failed, the attempt that is going on, those that have come to an end
with what was reported, and the reports that belong to no attempt. -/
structure Client (κ : Type) where
  state : State
  sharedAccess : OnUnReferenced κ
  timeoutTimer : Bool
  contentError : Bool
  attached : Bool
  pending : Bool
  held : Bool
  assertionFailed : Bool
  attempt : Option (Attempt κ)
  ended : List (Attempt κ × Report κ)
  stray : List (Report κ)

variable {κ : Type}

namespace Client

/-- The members before the constructor calls `Connect`. -/
def create : Client κ where
  state := .idle
  sharedAccess := .expire
  timeoutTimer := false
  contentError := false
  attached := false
  pending := false
  held := false
  assertionFailed := false
  attempt := none
  ended := []
  stray := []

/-! ## The record -/

def note (c : Client κ) (f : Attempt κ → Attempt κ) : Client κ := { c with attempt := c.attempt.map f }

def report (c : Client κ) (r : Report κ) : Client κ :=
  match c.attempt with
  | some attempt => { c with attempt := none, ended := (attempt, r) :: c.ended }
  | none => { c with stray := r :: c.stray }

/-! ## The functions of the client -/

def connect (c : Client κ) : Client κ :=
  { c with
    state := .connecting
    pending := true
    attempt := some { bodyCompleted := false, contentError := false, failed := false, cancels := [] } }

/-- `Close`, with its assertions. -/
def close (c : Client κ) : Client κ :=
  let assertionFailed := c.assertionFailed || !(c.attached && c.state = .connected)
  { c with state := .closing, timeoutTimer := false, assertionFailed := assertionFailed }

/-- `Cancel`. While nothing is going on the callback is called, and ends no attempt. -/
def cancel (c : Client κ) (onDone : κ) : Client κ :=
  match c.state with
  | .connecting =>
      if c.pending then
        ({ c with pending := false }.note fun a => { a with cancels := onDone :: a.cancels }).report
          (.cancelled onDone)
      else c
  | .connected =>
      ({ c with sharedAccess := .onDone onDone }.note fun a => { a with cancels := onDone :: a.cancels }).close
  | .closing => { c with sharedAccess := .onDone onDone }.note fun a => { a with cancels := onDone :: a.cancels }
  | .idle => c

def contentErrorFound (c : Client κ) : Client κ :=
  ({ c with contentError := true }.note fun a => { a with contentError := true }).close

/-- `ClosingConnection`. In the state `connected` the other side has closed the connection. -/
def closingConnection (c : Client κ) : Client κ :=
  let c := if c.state = .connected then
      { c with state := .closing, sharedAccess := .reportError }.note fun a => { a with failed := true }
    else c
  { c with attached := false }

def bodyComplete (c : Client κ) : Client κ :=
  ({ c with timeoutTimer := false }.note fun a => { a with bodyCompleted := true }).close

/-- `ConnectionEstablished`; the client attaches the observer that it is given. -/
def connectionEstablished (c : Client κ) : Client κ :=
  { c with state := .connected, timeoutTimer := true, pending := false, held := true, attached := true }

def reportError (c : Client κ) (intermittentFailure : Bool) : Client κ :=
  { c with state := .idle, timeoutTimer := false }.report (.error intermittentFailure)

def connectionFailed (c : Client κ) : Client κ :=
  ({ c with pending := false }.note fun a => { a with failed := true }).reportError true

def timeout (c : Client κ) : Client κ :=
  ({ c with timeoutTimer := false, sharedAccess := .reportError }.note fun a => { a with failed := true }).close

def expire (c : Client κ) : Client κ :=
  if c.contentError then c.reportError false
  else { c with state := .idle }.report .done

/-- The last pointer to the observer is released. -/
def deallocate (c : Client κ) : Client κ :=
  let c := { c with held := false }
  match c.sharedAccess with
  | .expire => c.expire
  | .reportError => c.reportError true
  | .onDone callback => c.report (.cancelled callback)

end Client

/-! ## Runs -/

inductive Event (κ : Type)
  | connect
  | cancel (onDone : κ)
  | connectionEstablished
  | connectionFailed
  | contentError
  | bodyComplete
  | timeout
  | closingConnection
  | released

namespace Client

/-- An attempt is started when none is going on. The connector gives a result for an attempt that has not
been cancelled. A client calls its observer while it is attached and not closed, and gives its pointer
away after it has detached it. -/
def step (c : Client κ) : Event κ → Option (Client κ)
  | .connect => if c.pending || c.held then none else some c.connect
  | .cancel onDone => some (c.cancel onDone)
  | .connectionEstablished => if c.pending then some c.connectionEstablished else none
  | .connectionFailed => if c.pending then some c.connectionFailed else none
  | .contentError => if c.attached && c.state = .connected then some c.contentErrorFound else none
  | .bodyComplete => if c.attached && c.state = .connected then some c.bodyComplete else none
  | .timeout => if c.timeoutTimer then some c.timeout else none
  | .closingConnection => if c.attached then some c.closingConnection else none
  | .released => if c.held && !c.attached then some c.deallocate else none

/-- What a report says of the attempt that it ends. -/
def Truthful (a : Attempt κ) : Report κ → Prop
  | .cancelled callback => a.cancels.head? = some callback
  | .done => a.cancels = [] ∧ a.bodyCompleted = true ∧ a.contentError = false ∧ a.failed = false
  | .error false => a.cancels = [] ∧ a.bodyCompleted = false ∧ a.contentError = true ∧ a.failed = false
  | .error true => a.cancels = [] ∧ a.bodyCompleted = false ∧ a.contentError = false ∧ a.failed = true

/-- Every attempt that is over has got one report, which is true. -/
structure Good (c : Client κ) : Prop where
  assertions : c.assertionFailed = false
  stray : c.stray = []
  truthful : ∀ p ∈ c.ended, Truthful p.1 p.2
  reported : c.pending = false → c.held = false → c.attempt = none

/-- An attempt is started with nothing left of an earlier one, and the timer does not expire after the
other side has closed the connection. -/
def Fresh (c : Client κ) : Event κ → Prop
  | .connect => c.contentError = false ∧ c.sharedAccess = .expire
  | .timeout => c.state = .connected
  | _ => True

/-! ## The invariant -/

/-- An attempt to which nothing has happened yet. -/
def untouched : Attempt κ := { bodyCompleted := false, contentError := false, failed := false, cancels := [] }

/-- The report that a closing client is going to give is true. -/
def Settled (a : Attempt κ) (contentError : Bool) : OnUnReferenced κ → Prop
  | .onDone callback => Truthful a (.cancelled callback)
  | .reportError => Truthful a (.error true)
  | .expire => Truthful a (if contentError then .error false else .done)

/-- Where an attempt is. After one has been cancelled the state may be any but `connected`. -/
inductive Phase (c : Client κ) : Prop
  | resting : c.state ≠ .connected → c.pending = false → c.held = false → c.attached = false →
      c.attempt = none → Phase c
  | connecting : c.state = .connecting → c.pending = true → c.held = false → c.attached = false →
      c.contentError = false → c.sharedAccess = .expire → c.attempt = some untouched → Phase c
  | connected : c.state = .connected → c.pending = false → c.held = true → c.attached = true →
      c.contentError = false → c.sharedAccess = .expire → c.attempt = some untouched → Phase c
  | closing (a : Attempt κ) : c.state = .closing → c.pending = false → c.held = true →
      c.attempt = some a → Settled a c.contentError c.sharedAccess → Phase c

/-- The record of what has come to an end. -/
structure Recorded (c : Client κ) : Prop where
  assertions : c.assertionFailed = false
  stray : c.stray = []
  truthful : ∀ p ∈ c.ended, Truthful p.1 p.2

structure Inv (c : Client κ) : Prop extends Recorded c where
  phase : Phase c

variable {c c' : Client κ}

theorem Inv.good (h : Inv c) : Good c := by
  refine { h with reported := ?_ }
  intro hpending hheld
  cases h.phase with
  | resting _ _ _ _ hattempt => exact hattempt
  | connecting _ hp => simp [hp] at hpending
  | connected _ _ hh => simp [hh] at hheld
  | closing a _ _ hh => simp [hh] at hheld

theorem inv_create : Inv (create : Client κ) :=
  ⟨⟨rfl, rfl, nofun⟩, .resting nofun rfl rfl rfl rfl⟩

/-- A client that reports has an attempt to report on, and rests then. -/
theorem Recorded.report (h : Recorded c) {a : Attempt κ} {r : Report κ} (ha : c.attempt = some a)
    (hr : Truthful a r) (hstate : c.state ≠ .connected) (hpending : c.pending = false) (hheld : c.held = false)
    (hattached : c.attached = false) : Inv (c.report r) := by
  unfold Client.report
  rw [ha]
  refine ⟨⟨h.assertions, h.stray, ?_⟩, .resting hstate hpending hheld hattached rfl⟩
  intro p hp
  rcases List.mem_cons.mp hp with rfl | hp
  · exact hr
  · exact h.truthful p hp

/-- An open client closes. Its attempt ends with what has happened to it. -/
theorem Recorded.close (h : Recorded c) {a : Attempt κ} (hstate : c.state = .connected) (hattached : c.attached = true)
    (hpending : c.pending = false) (hheld : c.held = true) (ha : c.attempt = some a)
    (hsettled : Settled a c.contentError c.sharedAccess) : Inv c.close := by
  refine ⟨⟨?_, h.stray, h.truthful⟩, .closing a rfl hpending hheld ha hsettled⟩
  simp [Client.close, h.assertions, hstate, hattached]

/-- A client that calls its observer is open, and nothing has happened to the attempt. -/
theorem Inv.connected_of_attached (h : Inv c) (hstate : c.state = .connected) :
    c.pending = false ∧ c.held = true ∧ c.attached = true ∧ c.contentError = false ∧ c.sharedAccess = .expire
      ∧ c.attempt = some untouched := by
  cases h.phase with
  | resting hn => exact absurd hstate hn
  | connecting hs => simp [hs] at hstate
  | connected _ hpending hheld hattached herror haction hattempt =>
      exact ⟨hpending, hheld, hattached, herror, haction, hattempt⟩
  | closing a hs => simp [hs] at hstate

theorem Inv.connecting_of_pending (h : Inv c) (hpending : c.pending = true) :
    c.state = .connecting ∧ c.held = false ∧ c.attached = false ∧ c.contentError = false
      ∧ c.sharedAccess = .expire ∧ c.attempt = some untouched := by
  cases h.phase with
  | resting _ hp => simp [hp] at hpending
  | connecting hstate _ hheld hattached herror haction hattempt =>
      exact ⟨hstate, hheld, hattached, herror, haction, hattempt⟩
  | connected _ hp => simp [hp] at hpending
  | closing a _ hp => simp [hp] at hpending

theorem Inv.connect (h : Inv c) (hpending : c.pending = false) (hheld : c.held = false)
    (herror : c.contentError = false) (haction : c.sharedAccess = .expire) : Inv c.connect := by
  refine ⟨{ h with }, ?_⟩
  cases h.phase with
  | resting _ _ _ hattached _ => exact .connecting rfl rfl hheld hattached herror haction rfl
  | connecting _ hp => simp [hp] at hpending
  | connected _ _ hh => simp [hh] at hheld
  | closing a _ _ hh => simp [hh] at hheld

theorem Inv.cancel (h : Inv c) (onDone : κ) : Inv (c.cancel onDone) := by
  unfold Client.cancel
  split
  · next hstate =>
      split
      · next hpending =>
          obtain ⟨-, hheld, hattached, -, -, hattempt⟩ := h.connecting_of_pending hpending
          refine Recorded.report (a := { (untouched : Attempt κ) with cancels := [onDone] }) ?_ ?_ ?_ ?_ ?_ ?_ ?_
          · exact { h with }
          · simp [note, hattempt, untouched]
          · rfl
          · simp [note, hstate]
          · rfl
          · exact hheld
          · exact hattached
      · exact h
  · next hstate =>
      obtain ⟨hpending, hheld, hattached, -, -, hattempt⟩ := h.connected_of_attached hstate
      refine Recorded.close (a := { (untouched : Attempt κ) with cancels := [onDone] }) ?_ ?_ ?_ ?_ ?_ ?_ ?_
      · exact { h with }
      · exact hstate
      · exact hattached
      · exact hpending
      · exact hheld
      · simp [note, hattempt, untouched]
      · rfl
  · next hstate =>
      refine ⟨{ h with }, ?_⟩
      cases h.phase with
      | resting hn hpending hheld hattached hattempt =>
          exact .resting hn hpending hheld hattached (by simp [note, hattempt])
      | connecting hs => simp [hs] at hstate
      | connected hs => simp [hs] at hstate
      | closing a _ hpending hheld hattempt _ =>
          exact .closing { a with cancels := onDone :: a.cancels } hstate hpending hheld (by simp [note, hattempt]) rfl
  · exact h

theorem Recorded.reportError (h : Recorded c) {a : Attempt κ} {intermittentFailure : Bool} (ha : c.attempt = some a)
    (hr : Truthful a (.error intermittentFailure)) (hpending : c.pending = false) (hheld : c.held = false)
    (hattached : c.attached = false) : Inv (c.reportError intermittentFailure) := by
  refine Recorded.report (a := a) ?_ ha hr ?_ hpending hheld hattached
  · exact { h with }
  · exact State.noConfusion

theorem Inv.released (h : Inv c) (hheld : c.held = true) (hattached : c.attached = false) : Inv c.deallocate := by
  cases h.phase with
  | resting _ _ hh => simp [hh] at hheld
  | connecting _ _ hh => simp [hh] at hheld
  | connected _ _ _ ha => simp [ha] at hattached
  | closing a hstate hpending _ hattempt hsettled =>
      have hrecorded : Recorded { c with held := false } := { h with }
      unfold Client.deallocate
      dsimp only
      split
      · next haction =>
          unfold Client.expire
          rw [show c.sharedAccess = .expire from haction, Settled] at hsettled
          split
          · next herror =>
              rw [if_pos (show c.contentError = true from herror)] at hsettled
              exact hrecorded.reportError hattempt hsettled hpending rfl hattached
          · next herror =>
              rw [if_neg (show ¬ c.contentError = true from herror)] at hsettled
              refine Recorded.report (a := a) ?_ hattempt hsettled ?_ hpending rfl hattached
              · exact { h with }
              · exact State.noConfusion
      · next haction =>
          rw [show c.sharedAccess = .reportError from haction] at hsettled
          exact hrecorded.reportError hattempt hsettled hpending rfl hattached
      · next callback haction =>
          rw [show c.sharedAccess = .onDone callback from haction] at hsettled
          refine hrecorded.report hattempt hsettled ?_ hpending rfl hattached
          show c.state ≠ .connected
          rw [hstate]
          decide

theorem Inv.closingConnection (h : Inv c) : Inv c.closingConnection := by
  unfold Client.closingConnection
  by_cases hstate : c.state = .connected
  · obtain ⟨hpending, hheld, -, -, -, hattempt⟩ := h.connected_of_attached hstate
    rw [if_pos hstate]
    refine ⟨{ h with }, .closing { untouched with failed := true } rfl hpending hheld ?_ ?_⟩
    · simp [note, hattempt]
    · exact ⟨rfl, rfl, rfl, rfl⟩
  · rw [if_neg hstate]
    refine ⟨{ h with }, ?_⟩
    cases h.phase with
    | resting hn hpending hheld _ hattempt => exact .resting hn hpending hheld rfl hattempt
    | connecting hs hpending hheld _ herror haction hattempt =>
        exact .connecting hs hpending hheld rfl herror haction hattempt
    | connected hs => exact absurd hs hstate
    | closing a hs hpending hheld hattempt hsettled => exact .closing a hs hpending hheld hattempt hsettled

theorem Inv.step (h : Inv c) {e : Event κ} (hfresh : c.Fresh e) (hc : c.step e = some c') : Inv c' := by
  cases e with
  | connect =>
      rw [Client.step] at hc
      split at hc
      · cases hc
      · next hidle =>
          cases hc
          simp only [Bool.or_eq_true, not_or, Bool.not_eq_true] at hidle
          exact h.connect hidle.1 hidle.2 hfresh.1 hfresh.2
  | cancel onDone =>
      cases hc
      exact h.cancel onDone
  | connectionEstablished =>
      rw [Client.step] at hc
      split at hc
      · next hpending =>
          cases hc
          obtain ⟨-, -, -, herror, haction, hattempt⟩ := h.connecting_of_pending hpending
          exact ⟨{ h with }, .connected rfl rfl rfl rfl herror haction hattempt⟩
      · cases hc
  | connectionFailed =>
      rw [Client.step] at hc
      split at hc
      · next hpending =>
          cases hc
          obtain ⟨-, hheld, hattached, -, -, hattempt⟩ := h.connecting_of_pending hpending
          refine Recorded.report (a := { (untouched : Attempt κ) with failed := true }) ?_ ?_ ?_ ?_ ?_ ?_ ?_
          · exact { h with }
          · simp [note, hattempt]
          · exact ⟨rfl, rfl, rfl, rfl⟩
          · nofun
          · rfl
          · exact hheld
          · exact hattached
      · cases hc
  | contentError =>
      rw [Client.step] at hc
      split at hc
      · next hopen =>
          cases hc
          simp only [Bool.and_eq_true, decide_eq_true_eq] at hopen
          obtain ⟨hpending, hheld, hattached, -, haction, hattempt⟩ := h.connected_of_attached hopen.2
          refine Recorded.close (a := { (untouched : Attempt κ) with contentError := true }) ?_ ?_ ?_ ?_ ?_ ?_ ?_
          · exact { h with }
          · exact hopen.2
          · exact hattached
          · exact hpending
          · exact hheld
          · simp [note, hattempt]
          · show Settled _ true c.sharedAccess
            rw [haction]
            exact ⟨rfl, rfl, rfl, rfl⟩
      · cases hc
  | bodyComplete =>
      rw [Client.step] at hc
      split at hc
      · next hopen =>
          cases hc
          simp only [Bool.and_eq_true, decide_eq_true_eq] at hopen
          obtain ⟨hpending, hheld, hattached, herror, haction, hattempt⟩ := h.connected_of_attached hopen.2
          refine Recorded.close (a := { (untouched : Attempt κ) with bodyCompleted := true }) ?_ ?_ ?_ ?_ ?_ ?_ ?_
          · exact { h with }
          · exact hopen.2
          · exact hattached
          · exact hpending
          · exact hheld
          · simp [note, hattempt]
          · show Settled _ c.contentError c.sharedAccess
            rw [haction, herror]
            exact ⟨rfl, rfl, rfl, rfl⟩
      · cases hc
  | timeout =>
      rw [Client.step] at hc
      split at hc
      · cases hc
        obtain ⟨hpending, hheld, hattached, -, -, hattempt⟩ := h.connected_of_attached hfresh
        refine Recorded.close (a := { (untouched : Attempt κ) with failed := true }) ?_ ?_ ?_ ?_ ?_ ?_ ?_
        · exact { h with }
        · exact hfresh
        · exact hattached
        · exact hpending
        · exact hheld
        · simp [note, hattempt]
        · exact ⟨rfl, rfl, rfl, rfl⟩
      · cases hc
  | closingConnection =>
      rw [Client.step] at hc
      split at hc
      · cases hc
        exact h.closingConnection
      · cases hc
  | released =>
      rw [Client.step] at hc
      split at hc
      · next hlast =>
          cases hc
          simp only [Bool.and_eq_true, Bool.not_eq_true'] at hlast
          exact h.released hlast.1 hlast.2
      · cases hc

end Client

end EmbeddedInfra.HttpClientBasic
