import Mathlib.Tactic

set_option autoImplicit false

/-! # Programs that are interrupted

A program is a tree of actions on a state that it shares with an interrupt, which may change the state between
any two actions, as often as it likes. `Verified` follows the tree: whatever the interrupt does, the program
does not fail, the invariant holds, and at the end so does the postcondition.
-/

namespace InterruptedPrograms

/-- An action changes the state at once; what comes next depends on the state before it. -/
inductive Program (σ ρ : Type) where
  | done (result : ρ)
  | fail
  | act (update : σ → σ) (next : σ → Program σ ρ)

namespace Program

variable {σ ρ τ : Type}

def bind (f : ρ → Program σ τ) : Program σ ρ → Program σ τ
  | done result => f result
  | fail => fail
  | act update next => act update fun s => (next s).bind f

def map (f : ρ → τ) (program : Program σ ρ) : Program σ τ := program.bind fun result => done (f result)

/-- A step that only looks at the state. -/
def look (next : σ → Program σ ρ) : Program σ ρ := act id next

/-- The program goes on if the condition holds. -/
def assert (condition : Prop) [Decidable condition] (next : Program σ ρ) : Program σ ρ :=
  if condition then next else fail

end Program

open Program Relation

variable {σ ρ τ : Type}

/-- What the interrupt does not change. -/
def Stable (interrupt : σ → σ → Prop) (p : σ → Prop) : Prop := ∀ s s', interrupt s s' → p s → p s'

def Verified (interrupt : σ → σ → Prop) (inv : σ → Prop) (post : σ → ρ → Prop) : Program σ ρ → σ → Prop
  | done result, s => ∀ s', ReflTransGen interrupt s s' → inv s' ∧ post s' result
  | fail, _ => False
  | act update next, s =>
      ∀ s', ReflTransGen interrupt s s' → inv s' ∧ Verified interrupt inv post (next s') (update s')

variable {interrupt : σ → σ → Prop} {inv : σ → Prop} {post post' : σ → ρ → Prop} {program : Program σ ρ}
  {s s' : σ} {p : σ → Prop}

theorem Stable.many (hp : Stable interrupt p) (h : ReflTransGen interrupt s s') (hs : p s) : p s' := by
  induction h with
  | refl => exact hs
  | tail _ hlast ih => exact hp _ _ hlast ih

/-! ## What a verified program gives -/

theorem Verified.invariant (h : Verified interrupt inv post program s) : inv s := by
  cases program with
  | done result => exact (h s ReflTransGen.refl).1
  | fail => exact h.elim
  | act update next => exact (h s ReflTransGen.refl).1

theorem Verified.interrupted (h : Verified interrupt inv post program s) (hs : interrupt s s') :
    Verified interrupt inv post program s' := by
  cases program with
  | done result => exact fun s'' hlater => h s'' (hlater.head hs)
  | fail => exact h.elim
  | act update next => exact fun s'' hlater => h s'' (hlater.head hs)

theorem Verified.result {result : ρ} (h : Verified interrupt inv post (done result) s) : post s result :=
  (h s ReflTransGen.refl).2

theorem Verified.next {update : σ → σ} {next : σ → Program σ ρ}
    (h : Verified interrupt inv post (act update next) s) :
    Verified interrupt inv post (next s) (update s) :=
  (h s ReflTransGen.refl).2

/-! ## Rules -/

theorem verified_done {result : ρ} (hp : Stable interrupt p) (hpost : ∀ s, p s → inv s ∧ post s result) (hs : p s) :
    Verified interrupt inv post (done result) s :=
  fun s' hlater => hpost s' (hp.many hlater hs)

theorem verified_act {update : σ → σ} {next : σ → Program σ ρ} (hp : Stable interrupt p) (hinv : ∀ s, p s → inv s)
    (hnext : ∀ s, p s → Verified interrupt inv post (next s) (update s)) (hs : p s) :
    Verified interrupt inv post (act update next) s :=
  fun s' hlater => ⟨hinv s' (hp.many hlater hs), hnext s' (hp.many hlater hs)⟩

theorem verified_look {next : σ → Program σ ρ} (hp : Stable interrupt p) (hinv : ∀ s, p s → inv s)
    (hnext : ∀ s, p s → Verified interrupt inv post (next s) s) (hs : p s) :
    Verified interrupt inv post (look next) s :=
  verified_act hp hinv hnext hs

theorem verified_assert {condition : Prop} [Decidable condition] (hcondition : condition)
    (h : Verified interrupt inv post program s) : Verified interrupt inv post (assert condition program) s := by
  unfold assert
  rw [if_pos hcondition]
  exact h

theorem Verified.mono {inv' : σ → Prop} (h : Verified interrupt inv post program s) (hinv : ∀ s, inv s → inv' s)
    (hpost : ∀ s result, post s result → post' s result) : Verified interrupt inv' post' program s := by
  induction program generalizing s with
  | done result => exact fun s' hlater => ⟨hinv s' (h s' hlater).1, hpost s' result (h s' hlater).2⟩
  | fail => exact h.elim
  | act update next ih => exact fun s' hlater => ⟨hinv s' (h s' hlater).1, ih s' (h s' hlater).2⟩

/-- Programs one after the other. -/
theorem verified_bind {f : ρ → Program σ τ} {final : σ → τ → Prop}
    (h : Verified interrupt inv post program s)
    (hf : ∀ s result, post s result → Verified interrupt inv final (f result) s) :
    Verified interrupt inv final (program.bind f) s := by
  induction program generalizing s with
  | done result => exact hf s result h.result
  | fail => exact h.elim
  | act update next ih =>
      intro s' hlater
      exact ⟨(h s' hlater).1, ih s' (h s' hlater).2⟩

end InterruptedPrograms
