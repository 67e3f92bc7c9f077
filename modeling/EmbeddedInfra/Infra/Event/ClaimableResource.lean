import EmbeddedInfra.Infra.Util.IntrusiveList
import EmbeddedInfra.Lib.EventSystem

set_option autoImplicit false

/-! # The claimable resource

`infra::ClaimableResource` lends itself to one claimer at a time. Claims wait in an intrusive list; the
first of them is granted by `ReEvaluateClaim`, which only ever runs as a scheduled event.

A `Ledger` beside the resource writes down what can be seen from outside: which claims were made, in
which order, and what became of them.
-/

namespace EmbeddedInfra.ClaimableResource

open Function

variable {α : Type} [DecidableEq α]

/-- `ClaimerBase` and `ClaimerWithSize`: of the function to be called, whether there is one. -/
structure Claimer where
  isGranted : Bool := false
  isQueued : Bool := false
  onGranted : Bool := false
  deriving DecidableEq

/-- `ClaimableResource` and its claimers. A claimer exists when its list node does. -/
structure Resource (α : Type) where
  pendingClaims : IntrusiveList α := {}
  currentClaim : Option α := none
  claimers : α → Claimer := fun _ => {}
  /-- The `ReEvaluateClaim` events in the queue of the event dispatcher. -/
  scheduled : Nat := 0

namespace Resource

/-- The claimer has been constructed, and not been destroyed. -/
def Exists (r : Resource α) (claimer : α) : Prop := (r.pendingClaims.nodes claimer).isSome

instance (r : Resource α) (claimer : α) : Decidable (r.Exists claimer) :=
  inferInstanceAs (Decidable (_ = true))

def setClaimer (r : Resource α) (claimer : α) (c : Claimer) : Resource α :=
  { r with claimers := update r.claimers claimer c }

/-- `Schedule([this]() { ReEvaluateClaim(); })` -/
def schedule (r : Resource α) : Resource α := { r with scheduled := r.scheduled + 1 }

/-- `ClaimGranted`. The function is reset before it is called, and calling it is the last thing that
`ReEvaluateClaim` does: what it does comes as the events that follow. -/
def claimGranted (r : Resource α) (claimer : α) : Option (Resource α) :=
  if (r.claimers claimer).onGranted then
    some (r.setClaimer claimer { isGranted := true, isQueued := false, onGranted := false })
  else none

/-- `ReEvaluateClaim`, and the claimer whose claim is granted. -/
def reEvaluateClaim (r : Resource α) : Option (Resource α × Option α) :=
  if r.currentClaim = none ∧ r.pendingClaims.empty = false then
    match r.pendingClaims.beginNode with
    | .node claimer => do
        let pendingClaims ← r.pendingClaims.popFront
        let r ← { r with currentClaim := some claimer, pendingClaims := pendingClaims }.claimGranted claimer
        return (r, some claimer)
    | _ => none
  else some (r, none)

def addClaim (r : Resource α) (claimer : α) : Option (Resource α) := do
  let pendingClaims ← r.pendingClaims.pushBack claimer
  let r := { r with pendingClaims := pendingClaims }
  return if r.currentClaim = none then r.schedule else r

def removeClaim (r : Resource α) (claimer : α) : Option (Resource α) :=
  if r.currentClaim = some claimer then some { r with currentClaim := none }.schedule
  else if r.pendingClaims.empty = false then do
    let pendingClaims ← r.pendingClaims.erase claimer
    return { r with pendingClaims := pendingClaims }
  else some r

/-- `ClaimerBase::Release` -/
def releaseBase (r : Resource α) (claimer : α) : Option (Resource α) :=
  let c := r.claimers claimer
  let c := if c.isGranted then c else { c with isQueued := false }
  (r.setClaimer claimer { c with isGranted := false }).removeClaim claimer

/-- `ClaimerWithSize::Claim` -/
def claim (r : Resource α) (claimer : α) : Option (Resource α) :=
  let c := r.claimers claimer
  if c.onGranted then none
  else (r.setClaimer claimer { c with onGranted := true, isQueued := true }).addClaim claimer

/-- `ClaimerWithSize::Release` -/
def release (r : Resource α) (claimer : α) : Option (Resource α) :=
  let c := r.claimers claimer
  if c.isGranted then r.releaseBase claimer
  else (r.setClaimer claimer { c with onGranted := false }).releaseBase claimer

def releaseIf (r : Resource α) (claimer : α) (flag : Bool) : Option (Resource α) :=
  if flag then r.releaseBase claimer else some r

/-- `~ClaimerBase` -/
def destruct (r : Resource α) (claimer : α) : Option (Resource α) := do
  let r ← r.releaseIf claimer (r.claimers claimer).isGranted
  let r ← r.releaseIf claimer (r.claimers claimer).isQueued
  return { r with pendingClaims := r.pendingClaims.destruct claimer }

def construct (r : Resource α) (claimer : α) : Resource α :=
  { r.setClaimer claimer {} with pendingClaims := r.pendingClaims.construct claimer }

end Resource

/-! ## The ledger -/

/-- Claims are numbered in the order in which they are made. -/
structure Ledger (α : Type) where
  claims : Nat := 0
  /-- The claims that were granted, in this order; `none` for a grant that nobody asked for. -/
  granted : List (Option Nat) := []
  withdrawn : List Nat := []
  /-- The claim of a claimer that was neither granted nor withdrawn. -/
  waiting : α → Option Nat := fun _ => none
  /-- The claimers that were granted a claim and have not released it. -/
  holders : List α := []

namespace Ledger

def claim (l : Ledger α) (claimer : α) : Ledger α :=
  { l with claims := l.claims + 1, waiting := update l.waiting claimer (some l.claims) }

def grant (l : Ledger α) (claimer : α) : Ledger α :=
  { l with
    granted := l.granted ++ [l.waiting claimer]
    waiting := update l.waiting claimer none
    holders := l.holders ++ [claimer] }

def withdraw (l : Ledger α) (claimer : α) : Ledger α :=
  { l with
    withdrawn := l.withdrawn ++ (l.waiting claimer).toList
    waiting := update l.waiting claimer none }

/-- A claimer that holds the resource gives it back, another one withdraws its claim. -/
def release (l : Ledger α) (claimer : α) : Ledger α :=
  if claimer ∈ l.holders then { l with holders := l.holders.erase claimer } else l.withdraw claimer

def destruct (l : Ledger α) (claimer : α) : Ledger α :=
  { l with holders := l.holders.erase claimer }.withdraw claimer

/-- The claims that were not withdrawn, in the order in which they were made. -/
def notWithdrawn (l : Ledger α) : List Nat := (List.range l.claims).filter (· ∉ l.withdrawn)

end Ledger

/-! ## Runs -/

inductive Event (α : Type)
  | construct (claimer : α)
  | claim (claimer : α)
  | release (claimer : α)
  | destruct (claimer : α)
  /-- The event dispatcher executes a `ReEvaluateClaim`. -/
  | execute

structure System (α : Type) where
  resource : Resource α := {}
  ledger : Ledger α := {}

/-- What the environment may do: claimers are used while they exist, only a claimer without a pending
request claims, and only a scheduled event is executed. -/
def Permitted (s : System α) : Event α → Prop
  | .construct claimer => ¬ s.resource.Exists claimer
  | .claim claimer => s.resource.Exists claimer ∧ s.ledger.waiting claimer = none
  | .release claimer => s.resource.Exists claimer
  | .destruct claimer => s.resource.Exists claimer
  | .execute => 0 < s.resource.scheduled

instance (s : System α) : (e : Event α) → Decidable (Permitted s e)
  | .construct claimer => inferInstanceAs (Decidable (¬ s.resource.Exists claimer))
  | .claim claimer => inferInstanceAs (Decidable (s.resource.Exists claimer ∧ s.ledger.waiting claimer = none))
  | .release claimer => inferInstanceAs (Decidable (s.resource.Exists claimer))
  | .destruct claimer => inferInstanceAs (Decidable (s.resource.Exists claimer))
  | .execute => inferInstanceAs (Decidable (0 < s.resource.scheduled))

/-- A step, `none` where an assertion fails or a pointer leads nowhere. -/
def step (s : System α) : Event α → Option (System α)
  | .construct claimer => some { s with resource := s.resource.construct claimer }
  | .claim claimer => do
      let resource ← s.resource.claim claimer
      return { resource := resource, ledger := s.ledger.claim claimer }
  | .release claimer => do
      let resource ← s.resource.release claimer
      return { resource := resource, ledger := s.ledger.release claimer }
  | .destruct claimer => do
      let resource ← s.resource.destruct claimer
      return { resource := resource, ledger := s.ledger.destruct claimer }
  | .execute => do
      let (resource, granted) ← { s.resource with scheduled := s.resource.scheduled - 1 }.reEvaluateClaim
      return { resource := resource, ledger := granted.elim s.ledger s.ledger.grant }

/-! ## The resource keeps its links -/

namespace Resource

variable {r : Resource α} {xs : List α} {a : α}

/-- The claimers that wait are those in the list, and as long as there are any, one of them has been
granted its claim or will be looked at. -/
structure Links (r : Resource α) (xs : List α) : Prop where
  contains : r.pendingClaims.Contains xs
  current : ∀ a, r.currentClaim = some a → r.Exists a
  scheduled : r.currentClaim = none → xs ≠ [] → 0 < r.scheduled

/-- The flags of every claimer are those of its claims. -/
def Flags (r : Resource α) (xs : List α) : Prop :=
  ∀ a, r.Exists a → r.claimers a =
    { isGranted := r.currentClaim = some a, isQueued := a ∈ xs, onGranted := a ∈ xs }

theorem Links.setClaimer (h : Links r xs) (c : Claimer) : Links (r.setClaimer a c) xs :=
  { h with }

/-- `RemoveClaim` takes back what is granted to the claimer; otherwise the claimer no longer waits. -/
theorem Links.removeClaim (h : Links r xs) (ha : r.Exists a) :
    ∃ r', r.removeClaim a = some r' ∧ r'.claimers = r.claimers ∧ (∀ x, r'.Exists x ↔ r.Exists x) ∧
      ((r.currentClaim = some a ∧ r'.currentClaim = none ∧ Links r' xs) ∨
        (r.currentClaim ≠ some a ∧ r'.currentClaim = r.currentClaim ∧ Links r' (xs.erase a))) := by
  rw [Resource.removeClaim]
  split_ifs with hcurrent hempty
  · refine ⟨_, rfl, rfl, fun _ => Iff.rfl, .inl ⟨hcurrent, rfl, h.contains, ?_, ?_⟩⟩
    · rintro x ⟨⟩
    · intro _ _
      exact Nat.succ_pos _
  · obtain ⟨pendingClaims, herase, hcontains, hsome⟩ := h.contains.erase_spec ha
    rw [herase]
    have hexists (x : α) : { r with pendingClaims := pendingClaims }.Exists x ↔ r.Exists x := by
      rw [Exists, hsome]
      rfl
    refine ⟨_, rfl, rfl, hexists, .inr ⟨hcurrent, rfl, hcontains, ?_, ?_⟩⟩
    · intro x hx
      exact (hexists x).mpr (h.current x hx)
    · intro hnone hne
      exact h.scheduled hnone (fun hc => hne (by rw [hc]; rfl))
  · have hxs : xs = [] := h.contains.empty_iff.mp (by simpa using hempty)
    subst hxs
    exact ⟨_, rfl, rfl, fun _ => Iff.rfl, .inr ⟨hcurrent, rfl, h⟩⟩

/-- The flags after a change of one claimer. -/
theorem flags_of_update {r' : Resource α} {ys : List α} {c : Claimer} (h : Flags r xs)
    (hclaimers : r'.claimers = update r.claimers a c) (hexists : ∀ x, r'.Exists x ↔ r.Exists x)
    (hcurrent : ∀ x, x ≠ a → (r'.currentClaim = some x ↔ r.currentClaim = some x))
    (hys : ∀ x, x ≠ a → (x ∈ ys ↔ x ∈ xs))
    (hc : c = { isGranted := r'.currentClaim = some a, isQueued := a ∈ ys, onGranted := a ∈ ys }) :
    Flags r' ys := by
  intro x hx
  rw [hclaimers]
  by_cases hxa : x = a
  · rw [hxa, update_self, hc]
  · rw [update_of_ne hxa, h x ((hexists x).mp hx)]
    simp only [hcurrent x hxa, hys x hxa]

/-- **A claimer that does not wait claims**, and waits behind all others. -/
theorem claim_spec (h : Links r xs) (hflags : Flags r xs) (ha : r.Exists a) (hwaits : a ∉ xs) :
    ∃ r', r.claim a = some r' ∧ Links r' (xs ++ [a]) ∧ Flags r' (xs ++ [a]) ∧
      r'.currentClaim = r.currentClaim ∧ ∀ x, r'.Exists x ↔ r.Exists x := by
  obtain ⟨pendingClaims, hpush, hcontains, hsome⟩ := h.contains.pushBack_spec ha hwaits
  have hc := hflags a ha
  simp only [hwaits, decide_false] at hc
  have hclaim : r.claim a = some (if r.currentClaim = none
      then { r.setClaimer a { (r.claimers a) with onGranted := true, isQueued := true } with
        pendingClaims := pendingClaims }.schedule
      else { r.setClaimer a { (r.claimers a) with onGranted := true, isQueued := true } with
        pendingClaims := pendingClaims }) := by
    rw [claim, hc]
    simp only [Bool.false_eq_true, if_false, addClaim, setClaimer, hpush]
    rfl
  have hexists (x : α) : (pendingClaims.nodes x).isSome ↔ r.Exists x := by
    rw [hsome]
    rfl
  refine ⟨_, hclaim, ?_⟩
  have hflags' {r' : Resource α} (hclaimers : r'.claimers = update r.claimers a
      { (r.claimers a) with onGranted := true, isQueued := true })
      (hpending : r'.pendingClaims = pendingClaims) (hcurrent : r'.currentClaim = r.currentClaim) :
      Flags r' (xs ++ [a]) := by
    refine flags_of_update hflags hclaimers ?_ ?_ ?_ ?_
    · intro x
      rw [Exists, hpending, hexists]
    · intro x _
      rw [hcurrent]
    · intro x hx
      simp [hx]
    · simp [hc, hcurrent]
  split_ifs with hnone
  · refine ⟨⟨hcontains, ?_, ?_⟩, hflags' rfl rfl rfl, rfl, hexists⟩
    · intro x hx
      exact (hexists x).mpr (h.current x hx)
    · intro _ _
      exact Nat.succ_pos _
  · refine ⟨⟨hcontains, ?_, ?_⟩, hflags' rfl rfl rfl, rfl, hexists⟩
    · intro x hx
      exact (hexists x).mpr (h.current x hx)
    · intro hnone'
      exact absurd hnone' hnone

/-- `ClaimerBase::Release` clears one of the two flags. -/
theorem Links.releaseBase (h : Links r xs) (ha : r.Exists a) :
    ∃ r', r.releaseBase a = some r' ∧
      r'.claimers = update r.claimers a { (r.claimers a) with
        isGranted := false, isQueued := (r.claimers a).isGranted && (r.claimers a).isQueued } ∧
      (∀ x, r'.Exists x ↔ r.Exists x) ∧
      ((r.currentClaim = some a ∧ r'.currentClaim = none ∧ Links r' xs) ∨
        (r.currentClaim ≠ some a ∧ r'.currentClaim = r.currentClaim ∧ Links r' (xs.erase a))) := by
  have hflag : { (if (r.claimers a).isGranted then r.claimers a
      else { (r.claimers a) with isQueued := false } : Claimer) with isGranted := false } =
      { (r.claimers a) with
        isGranted := false, isQueued := (r.claimers a).isGranted && (r.claimers a).isQueued } := by
    cases (r.claimers a).isGranted <;> simp
  rw [Resource.releaseBase, hflag]
  obtain ⟨r', hremove, hclaimers, hrest⟩ := Links.removeClaim (h.setClaimer _) ha
  exact ⟨r', hremove, hclaimers, hrest⟩

/-- **A claimer releases**: what it holds, or else what it waits for. -/
theorem release_spec (h : Links r xs) (hflags : Flags r xs) (ha : r.Exists a) :
    ∃ r', r.release a = some r' ∧ (∀ x, r'.Exists x ↔ r.Exists x) ∧
      ((r.currentClaim = some a ∧ r'.currentClaim = none ∧ Links r' xs ∧ Flags r' xs) ∨
        (r.currentClaim ≠ some a ∧ r'.currentClaim = r.currentClaim ∧ Links r' (xs.erase a) ∧
          Flags r' (xs.erase a))) := by
  have hc := hflags a ha
  rw [release]
  by_cases hcurrent : r.currentClaim = some a
  · obtain ⟨r', hrelease, hclaimers, hexists, ⟨-, hnone, hlinks⟩ | ⟨hne, -⟩⟩ := h.releaseBase ha
    · rw [if_pos (by simp [hc, hcurrent])]
      refine ⟨r', hrelease, hexists, .inl ⟨hcurrent, hnone, hlinks, ?_⟩⟩
      refine flags_of_update hflags hclaimers hexists ?_ (fun x _ => Iff.rfl) ?_
      · intro x hx
        simp [hnone, hcurrent, Ne.symm hx]
      · simp [hc, hnone, hcurrent]
    · exact absurd hcurrent hne
  · have hlinks := h.setClaimer (a := a) { (r.claimers a) with onGranted := false }
    obtain ⟨r', hrelease, hclaimers, hexists, ⟨heq, -⟩ | ⟨-, hsame, hlinks'⟩⟩ := hlinks.releaseBase (a := a) ha
    · exact absurd heq hcurrent
    · rw [if_neg (by simp [hc, hcurrent])]
      refine ⟨r', hrelease, hexists, .inr ⟨hcurrent, hsame, hlinks', ?_⟩⟩
      have hnodup := h.contains.nodup
      have hnot : a ∉ xs.erase a := hnodup.not_mem_erase
      refine flags_of_update hflags (hclaimers.trans (update_idem ..)) hexists ?_ ?_ ?_
      · intro x _
        rw [hsame]
        rfl
      · intro x hx
        exact List.mem_erase_of_ne hx
      · have hne : r'.currentClaim ≠ some a := by
          rw [hsame]
          exact hcurrent
        simp [setClaimer, hc, hnot, hne, hcurrent]

theorem setClaimer_eq_self : r.setClaimer a (r.claimers a) = r := by
  rw [setClaimer, update_eq_self]

/-- **A claimer that neither holds the resource nor waits for it** releases nothing. -/
theorem release_eq_self (h : Links r xs) (hflags : Flags r xs) (ha : r.Exists a) (hcurrent : r.currentClaim ≠ some a)
    (hwaits : a ∉ xs) : r.release a = some r := by
  have hc : r.claimers a = {} := by
    rw [hflags a ha]
    simp [hcurrent, hwaits]
  have hsame : r.setClaimer a {} = r := by
    rw [← hc, setClaimer_eq_self]
  have hrelease : r.release a = r.removeClaim a := by
    rw [release, hc]
    simp only [Bool.false_eq_true, if_false, hsame, releaseBase, hc]
  rw [hrelease, removeClaim, if_neg hcurrent]
  split_ifs
  · rw [h.contains.erase_of_not_mem ha hwaits]
    rfl
  · rfl

/-- The first step of `~ClaimerBase`: what is held is given back. -/
theorem giveBack_spec (h : Links r xs) (hflags : Flags r xs) (ha : r.Exists a) :
    ∃ r', r.releaseIf a (r.claimers a).isGranted = some r' ∧
      (∀ x, r'.Exists x ↔ r.Exists x) ∧ Links r' xs ∧ (∀ x, x ≠ a → r'.claimers x = r.claimers x) ∧
      (r'.claimers a).isQueued = decide (a ∈ xs) ∧
      r'.currentClaim = if r.currentClaim = some a then none else r.currentClaim := by
  have hc := hflags a ha
  by_cases hcurrent : r.currentClaim = some a
  · obtain ⟨r', hrelease, hclaimers, hexists, ⟨-, hnone, hlinks⟩ | ⟨hne, -⟩⟩ := h.releaseBase ha
    · rw [releaseIf, if_pos (by simp [hc, hcurrent]), if_pos hcurrent]
      refine ⟨r', hrelease, hexists, hlinks, ?_, ?_, hnone⟩
      · intro x hx
        rw [hclaimers, update_of_ne hx]
      · simp [hclaimers, hc, hcurrent]
    · exact absurd hcurrent hne
  · rw [releaseIf, if_neg (by simp [hc, hcurrent]), if_neg hcurrent]
    exact ⟨r, rfl, fun _ => Iff.rfl, h, fun _ _ => rfl, by simp [hc], rfl⟩

/-- The second step: it no longer waits. -/
theorem dequeue_spec (h : Links r xs) (ha : r.Exists a) (hcurrent : r.currentClaim ≠ some a)
    (hqueued : (r.claimers a).isQueued = decide (a ∈ xs)) :
    ∃ r', r.releaseIf a (r.claimers a).isQueued = some r' ∧
      (∀ x, r'.Exists x ↔ r.Exists x) ∧ Links r' (xs.erase a) ∧ (∀ x, x ≠ a → r'.claimers x = r.claimers x) ∧
      r'.currentClaim = r.currentClaim := by
  by_cases hwaits : a ∈ xs
  · obtain ⟨r', hrelease, hclaimers, hexists, ⟨heq, -⟩ | ⟨-, hsame, hlinks⟩⟩ := h.releaseBase ha
    · exact absurd heq hcurrent
    · rw [releaseIf, if_pos (by simp [hqueued, hwaits])]
      refine ⟨r', hrelease, hexists, hlinks, ?_, hsame⟩
      intro x hx
      rw [hclaimers, update_of_ne hx]
  · rw [releaseIf, if_neg (by simp [hqueued, hwaits]), List.erase_of_not_mem hwaits]
    exact ⟨r, rfl, fun _ => Iff.rfl, h, fun _ _ => rfl, rfl⟩

/-- **A claimer is destroyed**: it gives back what it holds and no longer waits. -/
theorem destruct_spec (h : Links r xs) (hflags : Flags r xs) (ha : r.Exists a) :
    ∃ r', r.destruct a = some r' ∧ Links r' (xs.erase a) ∧ Flags r' (xs.erase a) ∧
      r'.currentClaim = if r.currentClaim = some a then none else r.currentClaim := by
  obtain ⟨r₁, hstep₁, hexists₁, hlinks₁, hother₁, hqueued, hcurrent₁⟩ := giveBack_spec h hflags ha
  have hne : r₁.currentClaim ≠ some a := by
    rw [hcurrent₁]
    split_ifs with hcurrent
    · simp
    · exact hcurrent
  obtain ⟨r₂, hstep₂, hexists₂, hlinks₂, hother₂, hcurrent₂⟩ :=
    dequeue_spec hlinks₁ ((hexists₁ a).mpr ha) hne hqueued
  have hdestruct : r.destruct a = some { r₂ with pendingClaims := r₂.pendingClaims.destruct a } := by
    rw [destruct]
    simp only [hstep₁, hstep₂, Option.bind_eq_bind, Option.bind_some]
    rfl
  have hgone : ∀ x, { r₂ with pendingClaims := r₂.pendingClaims.destruct a }.Exists x ↔ x ≠ a ∧ r.Exists x := by
    intro x
    rw [← hexists₁ x, ← hexists₂ x]
    by_cases hx : x = a <;> simp [Exists, IntrusiveList.destruct, hx]
  refine ⟨_, hdestruct, ⟨hlinks₂.contains.destruct h.contains.nodup.not_mem_erase, ?_, hlinks₂.scheduled⟩, ?_,
    hcurrent₂.trans hcurrent₁⟩
  · intro x hx
    rw [hgone, ← hexists₁, ← hexists₂]
    refine ⟨?_, hlinks₂.current x hx⟩
    rintro rfl
    exact hne (hcurrent₂.symm.trans hx)
  · intro x hx
    obtain ⟨hxa, hx⟩ := (hgone x).mp hx
    have hflag := hflags x hx
    rw [← hother₁ x hxa, ← hother₂ x hxa] at hflag
    rw [hflag]
    have hcur : r₂.currentClaim = some x ↔ r.currentClaim = some x := by
      rw [hcurrent₂, hcurrent₁]
      split_ifs with hc
      · simp [hc, Ne.symm hxa]
      · rfl
    simp only [hcur, List.mem_erase_of_ne hxa]

/-- A new claimer. -/
theorem construct_spec (h : Links r xs) (hflags : Flags r xs) (ha : ¬ r.Exists a) :
    Links (r.construct a) xs ∧ Flags (r.construct a) xs := by
  have hnone : r.pendingClaims.nodes a = none := by simpa [Exists] using ha
  have hwaits : a ∉ xs := fun hc => ha (h.contains.exists_node hc)
  have hcurrent : r.currentClaim ≠ some a := fun hc => ha (h.current a hc)
  have hexists (x : α) (hx : x ≠ a) : (r.construct a).Exists x ↔ r.Exists x := by
    simp [Exists, construct, IntrusiveList.construct, hx]
  refine ⟨⟨h.contains.construct hnone, ?_, h.scheduled⟩, ?_⟩
  · intro x hx
    have hxa : x ≠ a := fun hc => hcurrent (hc ▸ hx)
    exact (hexists x hxa).mpr (h.current x hx)
  · intro x hx
    by_cases hxa : x = a
    · simp [construct, setClaimer, hxa, hwaits, hcurrent]
    · rw [construct]
      simp only [setClaimer, update_of_ne hxa]
      exact hflags x ((hexists x hxa).mp hx)

/-- **A re-evaluation** grants the first claim, unless one is granted already. -/
theorem reEvaluateClaim_spec (h : Links r xs) (hflags : Flags r xs) :
    ∃ r' granted, { r with scheduled := r.scheduled - 1 }.reEvaluateClaim = some (r', granted) ∧
      ((granted = none ∧ r'.currentClaim = r.currentClaim ∧ Links r' xs ∧ Flags r' xs ∧
          (r.currentClaim = none → xs = [])) ∨
        ∃ first rest, xs = first :: rest ∧ granted = some first ∧ r.currentClaim = none ∧
          r'.currentClaim = some first ∧ Links r' rest ∧ Flags r' rest) := by
  by_cases hgrant : r.currentClaim = none ∧ r.pendingClaims.empty = false
  · obtain ⟨hnone, hempty⟩ := hgrant
    cases xs with
    | nil => simp [h.contains.empty_iff.mpr rfl] at hempty
    | cons first rest =>
        obtain ⟨pendingClaims, hpop, hcontains, hsome⟩ := h.contains.popFront_spec
        have hexists (x : α) : (pendingClaims.nodes x).isSome ↔ r.Exists x := by
          rw [hsome]
          rfl
        have hfirst : r.Exists first := h.contains.exists_node List.mem_cons_self
        have hc := hflags first hfirst
        have hnot : first ∉ rest := (List.nodup_cons.mp h.contains.nodup).1
        let r' : Resource α := {
          currentClaim := some first, pendingClaims := pendingClaims, scheduled := r.scheduled - 1
          claimers := update r.claimers first { isGranted := true } }
        have hgranted : { r with scheduled := r.scheduled - 1 }.reEvaluateClaim = some (r', some first) := by
          rw [reEvaluateClaim, if_pos ⟨hnone, hempty⟩]
          simp only [h.contains.begins, IntrusiveList.first_cons, hpop, Option.bind_eq_bind, Option.bind_some]
          -- there is a function to be called, since the claimer waits
          rw [claimGranted, if_pos (by simp [hc])]
          rfl
        refine ⟨r', some first, hgranted, .inr ⟨first, rest, rfl, rfl, hnone, rfl, ⟨hcontains, ?_, ?_⟩, ?_⟩⟩
        · rintro x ⟨⟩
          exact (hexists first).mpr hfirst
        · rintro ⟨⟩
        · refine flags_of_update hflags rfl hexists ?_ ?_ ?_
          · intro x hx
            simp [r', hnone, Ne.symm hx]
          · intro x hx
            simp [hx]
          · simp [r', hnot]
  · have hempty : r.currentClaim = none → xs = [] := by
      intro hnone
      rw [← h.contains.empty_iff, ← Bool.not_eq_false]
      exact fun hc => hgrant ⟨hnone, hc⟩
    refine ⟨{ r with scheduled := r.scheduled - 1 }, none, by rw [reEvaluateClaim, if_neg hgrant], .inl ⟨rfl, rfl, ?_, hflags, hempty⟩⟩
    exact ⟨h.contains, h.current, fun hnone hne => absurd (hempty hnone) hne⟩

end Resource

/-! ## The ledger agrees with the resource -/

namespace Ledger

variable {l : Ledger α} {current : Option α} {xs : List α} {a : α}

/-- What the ledger says when the resource has these claimers waiting, and this one granted. -/
structure Recorded (l : Ledger α) (current : Option α) (xs : List α) : Prop where
  waits : ∀ a, a ∈ xs ↔ (l.waiting a).isSome
  order : l.granted ++ xs.map l.waiting = l.notWithdrawn.map some
  early : ∀ t ∈ l.withdrawn, t < l.claims
  holders : l.holders = current.toList

theorem map_update_of_not_mem {waiting : α → Option Nat} {claim : Option Nat} (ha : a ∉ xs) :
    xs.map (update waiting a claim) = xs.map waiting := by
  refine List.map_congr_left ?_
  intro x hx
  refine update_of_ne ?_ _ _
  rintro rfl
  exact ha hx

theorem Recorded.claim (h : Recorded l current xs) (ha : a ∉ xs) : Recorded (l.claim a) current (xs ++ [a]) := by
  refine ⟨?_, ?_, ?_, h.holders⟩
  · intro x
    by_cases hx : x = a
    · simp [Ledger.claim, hx]
    · simp [Ledger.claim, hx, h.waits x]
  · have hnew : l.claims ∉ l.withdrawn := fun hc => Nat.lt_irrefl _ (h.early _ hc)
    have hall : (l.claim a).notWithdrawn = l.notWithdrawn ++ [l.claims] := by
      simp only [notWithdrawn, Ledger.claim, List.range_succ, List.filter_append]
      congr 1
      simp [hnew]
    calc (l.claim a).granted ++ (xs ++ [a]).map (l.claim a).waiting
      _ = (l.granted ++ xs.map l.waiting) ++ [some l.claims] := by
        simp [Ledger.claim, map_update_of_not_mem ha]
      _ = (l.claim a).notWithdrawn.map some := by rw [h.order, hall, List.map_append, List.map_singleton]
  · intro t ht
    exact Nat.lt_succ_of_lt (h.early t ht)

theorem Recorded.grant (h : Recorded l none (a :: xs)) (ha : a ∉ xs) : Recorded (l.grant a) (some a) xs := by
  refine ⟨?_, ?_, h.early, ?_⟩
  · intro x
    by_cases hx : x = a
    · simp [Ledger.grant, hx, ha]
    · have := h.waits x
      simp_all [Ledger.grant]
  · have horder := h.order
    rw [List.map_cons] at horder
    calc (l.grant a).granted ++ xs.map (l.grant a).waiting
      _ = l.granted ++ l.waiting a :: xs.map l.waiting := by
        simp [Ledger.grant, map_update_of_not_mem ha]
      _ = (l.grant a).notWithdrawn.map some := horder
  · simp [Ledger.grant, h.holders]

omit [DecidableEq α] in
theorem nodup_notWithdrawn : (l.notWithdrawn.map some).Nodup :=
  (List.nodup_range.filter _).map (Option.some_injective _)

/-- One of different claims is left out. -/
theorem filter_ne {granted : List (Option Nat)} {waiting : α → Option Nat}
    (hnodup : (granted ++ xs.map waiting).Nodup) (ha : a ∈ xs) :
    (granted ++ xs.map waiting).filter (· ≠ waiting a) = granted ++ (xs.erase a).map waiting := by
  obtain ⟨p, q, rfl⟩ := List.append_of_mem ha
  have hp : a ∉ p := by
    intro hp
    have hmap := (List.nodup_append.mp hnodup).2.1
    rw [List.map_append] at hmap
    exact (List.nodup_append.mp hmap).2.2 _ (List.mem_map_of_mem hp) _ (by simp) rfl
  -- all others are different claims
  have hlist : granted ++ (p ++ a :: q).map waiting = (granted ++ p.map waiting) ++ waiting a :: q.map waiting := by
    simp
  rw [hlist] at hnodup ⊢
  have hleft : (granted ++ p.map waiting).filter (· ≠ waiting a) = granted ++ p.map waiting := by
    refine List.filter_eq_self.mpr ?_
    intro t ht
    simpa using (List.nodup_append.mp hnodup).2.2 t ht (waiting a) List.mem_cons_self
  have hright : (q.map waiting).filter (· ≠ waiting a) = q.map waiting := by
    refine List.filter_eq_self.mpr ?_
    intro t ht
    have hq := (List.nodup_cons.mp (List.nodup_append.mp hnodup).2.1).1
    have hne : t ≠ waiting a := fun hc => hq (hc ▸ ht)
    simpa using hne
  rw [List.filter_append, hleft, List.filter_cons_of_neg (by simp), hright, List.erase_append_right _ hp,
    List.erase_cons_head, List.map_append, List.append_assoc]

theorem Recorded.withdraw (h : Recorded l current xs) (hnodup : xs.Nodup) :
    Recorded (l.withdraw a) current (xs.erase a) := by
  by_cases ha : a ∈ xs
  · obtain ⟨t, ht⟩ := Option.isSome_iff_exists.mp ((h.waits a).mp ha)
    have hall : (l.withdraw a).notWithdrawn.map some = (l.notWithdrawn.map some).filter (· ≠ l.waiting a) := by
      rw [notWithdrawn, notWithdrawn, ht, List.filter_map, List.filter_filter]
      congr 1
      refine List.filter_congr ?_
      intro u _
      simp [Ledger.withdraw, ht, and_comm]
    refine ⟨?_, ?_, ?_, h.holders⟩
    · intro x
      by_cases hx : x = a
      · simp [Ledger.withdraw, hx, hnodup.not_mem_erase]
      · simp [Ledger.withdraw, hx, List.mem_erase_of_ne hx, h.waits x]
    · rw [hall, ← h.order, filter_ne (by rw [h.order]; exact nodup_notWithdrawn) ha]
      exact congrArg _ (map_update_of_not_mem hnodup.not_mem_erase)
    · intro u hu
      have hu : u ∈ l.withdrawn ∨ u = t := by simpa [Ledger.withdraw, ht] using hu
      rcases hu with hu | rfl
      · exact h.early u hu
      · have hmem : some u ∈ l.notWithdrawn.map some := by
          rw [← h.order, ← ht]
          simp [ha, List.mem_map_of_mem]
        simp [notWithdrawn] at hmem
        exact hmem.1
  · have hnone : l.waiting a = none := by
      rw [← Option.not_isSome_iff_eq_none, ← h.waits a]
      exact ha
    have hsame : l.withdraw a = l := by
      rw [Ledger.withdraw, hnone, ← hnone, update_eq_self, hnone]
      simp
    rw [hsame, List.erase_of_not_mem ha]
    exact h

end Ledger

/-! ## Every run -/

/-- The resource and the ledger agree, with these claimers waiting. -/
structure Inv (s : System α) (xs : List α) : Prop where
  links : s.resource.Links xs
  flags : s.resource.Flags xs
  recorded : s.ledger.Recorded s.resource.currentClaim xs

theorem inv_start : Inv ({} : System α) [] := by
  refine ⟨⟨IntrusiveList.contains_nil _ (by rintro a n ⟨⟩), by rintro a ⟨⟩, fun _ hne => absurd rfl hne⟩, ?_,
    ⟨by simp, rfl, by simp, rfl⟩⟩
  intro a ha
  cases ha

variable {s : System α} {xs : List α}

/-- The holder gives the resource back. -/
theorem released {a : α} (h : Inv s xs) (hcurrent : s.resource.currentClaim = some a) :
    ∃ s', step s (.release a) = some s' ∧ Inv s' xs ∧ s'.resource.currentClaim = none ∧
      s'.ledger.notWithdrawn = s.ledger.notWithdrawn := by
  obtain ⟨r, hrelease, -, ⟨-, hnone, hlinks, hflags⟩ | ⟨hne, -⟩⟩ :=
    Resource.release_spec h.links h.flags (h.links.current a hcurrent)
  · have hholders : s.ledger.holders = [a] := by rw [h.recorded.holders, hcurrent]; rfl
    have hledger : s.ledger.release a = { s.ledger with holders := [] } := by
      rw [Ledger.release, hholders, if_pos List.mem_cons_self, List.erase_cons_head]
    refine ⟨⟨r, s.ledger.release a⟩, by simp only [step, hrelease]; rfl, ⟨hlinks, hflags, ?_⟩, hnone, by rw [hledger]; rfl⟩
    rw [hledger, hnone]
    exact { h.recorded with holders := rfl }
  · exact absurd hcurrent hne

/-- The first claim is granted. -/
theorem executed {a : α} (h : Inv s (a :: xs)) (hnone : s.resource.currentClaim = none) :
    ∃ s', step s .execute = some s' ∧ Inv s' xs ∧ s'.ledger.notWithdrawn = s.ledger.notWithdrawn := by
  obtain ⟨r, granted, hevaluate, ⟨-, -, -, -, hempty⟩ | ⟨first, rest, heq, rfl, -, hcurrent, hlinks, hflags⟩⟩ :=
    Resource.reEvaluateClaim_spec h.links h.flags
  · exact absurd (hempty hnone) (List.cons_ne_nil _ _)
  · obtain ⟨rfl, rfl⟩ := List.cons.inj heq
    refine ⟨⟨r, s.ledger.grant a⟩, by simp only [step, hevaluate]; rfl, ⟨hlinks, hflags, ?_⟩, rfl⟩
    rw [hcurrent]
    exact Ledger.Recorded.grant (hnone ▸ h.recorded) (List.nodup_cons.mp h.links.contains.nodup).1

/-- **A step succeeds and keeps the agreement.** -/
theorem Inv.step {s : System α} {xs : List α} (h : Inv s xs) {e : Event α} (he : Permitted s e) :
    ∃ s' ys, step s e = some s' ∧ Inv s' ys := by
  obtain ⟨hlinks, hflags, hrecorded⟩ := h
  cases e with
  | construct a =>
      obtain ⟨hlinks', hflags'⟩ := Resource.construct_spec hlinks hflags he
      exact ⟨_, xs, rfl, hlinks', hflags', hrecorded⟩
  | claim a =>
      obtain ⟨hexists, hwaiting⟩ := he
      have ha : a ∉ xs := by
        rw [hrecorded.waits a, hwaiting]
        simp
      obtain ⟨r, hclaim, hlinks', hflags', hcurrent, -⟩ := Resource.claim_spec hlinks hflags hexists ha
      refine ⟨⟨r, s.ledger.claim a⟩, xs ++ [a], ?_, hlinks', hflags', ?_⟩
      · simp only [ClaimableResource.step, hclaim]
        rfl
      · rw [hcurrent]
        exact hrecorded.claim ha
  | release a =>
      obtain ⟨r, hrelease, -, ⟨hcurrent, -⟩ | ⟨hcurrent, hsame, hlinks', hflags'⟩⟩ :=
        Resource.release_spec hlinks hflags he
      · -- the claimer holds the resource
        obtain ⟨s', hs', hinv, -⟩ := released ⟨hlinks, hflags, hrecorded⟩ hcurrent
        exact ⟨s', xs, hs', hinv⟩
      · have hstep : ClaimableResource.step s (.release a) = some ⟨r, s.ledger.release a⟩ := by
          simp only [ClaimableResource.step, hrelease]
          rfl
        refine ⟨_, xs.erase a, hstep, hlinks', hflags', ?_⟩
        have hholders : a ∉ s.ledger.holders := by
          rw [hrecorded.holders]
          simpa using hcurrent
        rw [Ledger.release, if_neg hholders, hsame]
        exact hrecorded.withdraw hlinks.contains.nodup
  | destruct a =>
      obtain ⟨r, hdestruct, hlinks', hflags', hcurrent⟩ := Resource.destruct_spec hlinks hflags he
      refine ⟨⟨r, s.ledger.destruct a⟩, xs.erase a, ?_, hlinks', hflags', ?_⟩
      · simp only [ClaimableResource.step, hdestruct]
        rfl
      · refine Ledger.Recorded.withdraw { hrecorded with holders := ?_ }
          hlinks.contains.nodup
        rw [hcurrent, hrecorded.holders]
        split_ifs with hc
        · simp [hc]
        · refine List.erase_of_not_mem ?_
          simpa using hc
  | execute =>
      obtain ⟨r, granted, hevaluate, hcases⟩ := Resource.reEvaluateClaim_spec hlinks hflags
      have hstep : ClaimableResource.step s .execute =
          some ⟨r, granted.elim s.ledger s.ledger.grant⟩ := by
        simp only [ClaimableResource.step, hevaluate]
        rfl
      rcases hcases with ⟨rfl, hsame, hlinks', hflags', -⟩ | ⟨first, rest, rfl, -, hnone, -⟩
      · refine ⟨_, xs, hstep, hlinks', hflags', ?_⟩
        rw [hsame]
        exact hrecorded
      · obtain ⟨s', hs', hinv, -⟩ := executed ⟨hlinks, hflags, hrecorded⟩ hnone
        exact ⟨s', rest, hs', hinv⟩

theorem Inv.run (h : Inv s xs) {events : List (Event α)}
    (hevents : EventSystem.Along ClaimableResource.step Permitted s events) :
    ∃ s' ys, EventSystem.run ClaimableResource.step s events = some s' ∧ Inv s' ys := by
  have hstep : ∀ (s : System α) e, (∃ xs, Inv s xs) → Permitted s e →
      ∃ s', ClaimableResource.step s e = some s' ∧ ∃ xs, Inv s' xs := by
    rintro s e ⟨xs, h⟩ hp
    obtain ⟨s', ys, hs', hinv⟩ := h.step hp
    exact ⟨s', hs', ys, hinv⟩
  obtain ⟨s', hrun, ys, hinv⟩ := EventSystem.run_along (fun s => ∃ xs, Inv s xs) hstep hevents ⟨xs, h⟩
  exact ⟨s', ys, hrun, hinv⟩

/-- What a user of the resource relies on. -/
structure Reliable (s : System α) : Prop where
  /-- At most one claimer holds the resource, and it is the current one. -/
  exclusive : s.ledger.holders = s.resource.currentClaim.toList
  isGranted : ∀ a, s.resource.Exists a →
    ((s.resource.claimers a).isGranted = true ↔ s.resource.currentClaim = some a)
  current : ∀ a, s.resource.currentClaim = some a → s.resource.Exists a
  /-- Grants come in the order of the claims that were not withdrawn, -/
  order : s.ledger.granted <+: s.ledger.notWithdrawn.map some
  /-- and the claims that come next are those of the list. -/
  pending : ∃ xs, s.resource.pendingClaims.Contains xs ∧
    s.ledger.granted ++ xs.map s.ledger.waiting = s.ledger.notWithdrawn.map some
  withdrawn : ∀ t ∈ s.ledger.withdrawn, some t ∉ s.ledger.granted
  unaffected : ∀ a, s.resource.Exists a → a ∉ s.ledger.holders → s.ledger.waiting a = none →
    s.resource.release a = some s.resource
  scheduled : s.resource.currentClaim = none → (∃ a, (s.ledger.waiting a).isSome) → 0 < s.resource.scheduled

theorem Inv.reliable (h : Inv s xs) : Reliable s where
  exclusive := h.recorded.holders
  isGranted := by
    intro a ha
    rw [h.flags a ha]
    simp
  current := h.links.current
  order := ⟨_, h.recorded.order⟩
  pending := ⟨xs, h.links.contains, h.recorded.order⟩
  withdrawn := by
    intro t ht hgranted
    have hmem : some t ∈ s.ledger.notWithdrawn.map some := by
      rw [← h.recorded.order]
      exact List.mem_append_left _ hgranted
    simp [Ledger.notWithdrawn, ht] at hmem
  unaffected := by
    intro a ha hholders hwaiting
    refine Resource.release_eq_self h.links h.flags ha ?_ ?_
    · rw [h.recorded.holders] at hholders
      simpa using hholders
    · rw [h.recorded.waits a, hwaiting]
      simp
  scheduled := by
    rintro hnone ⟨a, ha⟩
    exact h.links.scheduled hnone (List.ne_nil_of_mem ((h.recorded.waits a).mpr ha))

/-- **The resource is granted to one claimer at a time, in the order of the claims.** No order of claims,
releases, ends of claimers and events makes an assertion fail. -/
theorem grants_in_order (events : List (Event α))
    (hevents : EventSystem.Along ClaimableResource.step Permitted {} events) :
    ∃ s, EventSystem.run ClaimableResource.step {} events = some s ∧ Reliable s := by
  obtain ⟨s, xs, hrun, hinv⟩ := inv_start.run hevents
  exact ⟨s, hrun, hinv.reliable⟩

/-- A claimer that holds the resource claims again; another one is destroyed while it waits. -/
theorem grants_in_order_reclaimed :
    ∃ s, EventSystem.run ClaimableResource.step {} [.construct 0, .construct 1, .construct 2, .claim 0, .claim 1,
      .execute, .claim 2, .claim 0, .release 0, .destruct 1, .execute, .release 2, .execute, .execute] = some s ∧
      Reliable s := by
  refine grants_in_order _ ?_
  repeat refine EventSystem.along_cons rfl (by decide) ?_
  trivial

/-! ## Serving the claims -/

/-- The steps with which claims are granted: the holder releases, and a scheduled event is executed. -/
def Serves (s : System α) : Event α → Prop
  | .release claimer => claimer ∈ s.ledger.holders
  | .execute => 0 < s.resource.scheduled
  | _ => False

/-- The holder, if there is one, releases, and the first claim is granted. -/
theorem served (h : Inv s xs) :
    ∃ s', EventSystem.Leads step Serves s s' ∧ s'.ledger.granted = s.ledger.notWithdrawn.map some := by
  induction xs generalizing s with
  | nil => exact ⟨s, .refl, by simpa using h.recorded.order⟩
  | cons a xs ih =>
      have hexecute {m : System α} (hm : Inv m (a :: xs)) (hnone : m.resource.currentClaim = none) :
          ∃ s', EventSystem.Leads step Serves m s' ∧ s'.ledger.granted = m.ledger.notWithdrawn.map some := by
        obtain ⟨n, hn, hinv, hledger⟩ := executed hm hnone
        obtain ⟨s', hleads, hgranted⟩ := ih hinv
        have hscheduled : Serves m .execute := hm.links.scheduled hnone (List.cons_ne_nil _ _)
        exact ⟨s', hleads.cons hscheduled hn, hledger ▸ hgranted⟩
      cases hcurrent : s.resource.currentClaim with
      | none => exact hexecute h hcurrent
      | some b =>
          obtain ⟨m, hm, hinv, hnone, hledger⟩ := released h hcurrent
          obtain ⟨s', hleads, hgranted⟩ := hexecute hinv hnone
          have hholder : Serves s (.release b) := by simp [Serves, h.recorded.holders, hcurrent]
          exact ⟨s', hleads.cons hholder hm, hledger ▸ hgranted⟩

/-- **No claim is left behind**: from every state that is reached, all claims that were not withdrawn can be granted
with releases by holders and scheduled events alone. -/
theorem claims_granted (events : List (Event α)) (hevents : EventSystem.Along step Permitted {} events) :
    ∃ s s', EventSystem.run step {} events = some s ∧ EventSystem.Leads step Serves s s' ∧
      s'.ledger.granted = s.ledger.notWithdrawn.map some := by
  obtain ⟨s, xs, hrun, hinv⟩ := inv_start.run hevents
  obtain ⟨s', hleads, hgranted⟩ := served hinv
  exact ⟨s, s', hrun, hleads, hgranted⟩

theorem claims_granted_two :
    ∃ s s', EventSystem.run step {} [.construct 0, .construct 1, .claim 0, .claim 1] = some s ∧
      EventSystem.Leads step Serves s s' ∧ s'.ledger.granted = s.ledger.notWithdrawn.map some := by
  refine claims_granted _ ?_
  repeat refine EventSystem.along_cons rfl (by decide) ?_
  trivial

end EmbeddedInfra.ClaimableResource
