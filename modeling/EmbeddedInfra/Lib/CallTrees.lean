import Mathlib.Data.Fintype.Card
import Mathlib.Data.Set.Finite.Basic
import Mathlib.Logic.Relation
import Mathlib.Tactic

set_option autoImplicit false

/-! # Procedures that call each other

A procedure is a tree of calls: it returns, it cannot go on, or it makes a call and goes on with the result. Its
calls may be recursive, so that it need not return at all. Procedures are run with fuel, one unit for each level
of calls; what counts is whether there is a result for some amount of it. Calls at finitely many places return when
no walk over these places comes back.
-/

namespace CallTrees

open Relation

/-- A tree of calls; `result` is the type of what a call returns. -/
inductive Program (Call : Type) (Result : Call → Type) (α : Type) : Type
  | return (value : α)
  | undefined
  | call (c : Call) (next : Result c → Program Call Result α)

variable {Call : Type} {Result : Call → Type} {α β : Type}

namespace Program

def bind : Program Call Result α → (α → Program Call Result β) → Program Call Result β
  | .return value, next => next value
  | .undefined, _ => .undefined
  | .call c rest, next => .call c fun value => (rest value).bind next

instance : Monad (Program Call Result) where
  pure := .return
  bind := bind

/-- The answers to the calls are those of `answer`, which may fail. -/
def exec (answer : (c : Call) → Option (Result c)) : Program Call Result α → Option α
  | .return value => some value
  | .undefined => none
  | .call c next => (answer c).bind fun value => exec answer (next value)

end Program

/-- A call, with its result. -/
def ask (c : Call) : Program Call Result (Result c) := .call c .return

open Program

variable (body : (c : Call) → Program Call Result (Result c))

/-- The procedures, with fuel. -/
def runCall : Nat → (c : Call) → Option (Result c)
  | 0, _ => none
  | fuel + 1, c => (body c).exec (runCall fuel)

/-- Some amount of fuel is enough for this result. -/
def Returns (c : Call) (value : Result c) : Prop := ∃ fuel, runCall body fuel c = some value

def Yields (program : Program Call Result α) (value : α) : Prop :=
  ∃ fuel, program.exec (runCall body fuel) = some value

/-- All calls that the program makes meet the condition, and it can go on. -/
def Meets (cond : Call → Prop) : Program Call Result α → Prop
  | .return _ => True
  | .undefined => False
  | .call c next => cond c ∧ ∀ value, Returns body c value → Meets cond (next value)

/-- The program makes the call. -/
def Makes (c : Call) : Program Call Result α → Prop
  | .return _ => False
  | .undefined => False
  | .call c' next => c' = c ∨ ∃ value, Returns body c' value ∧ Makes c (next value)

/-- The call is made by the program, or by a call that is entered. -/
inductive Enters (program : Program Call Result α) : Call → Prop
  | first {c : Call} (hmakes : Makes body c program) : Enters program c
  | next {c c' : Call} (henters : Enters program c) (hmakes : Makes body c' (body c)) : Enters program c'

variable {body} {program : Program Call Result α} {value value' : α} {fuel : Nat} {c : Call}
  {cond : Call → Prop}

/-! ## Fuel -/

/-- More answers do not change a result. -/
theorem exec_mono {answer answer' : (c : Call) → Option (Result c)}
    (hmore : ∀ c value, answer c = some value → answer' c = some value)
    (h : program.exec answer = some value) :
    program.exec answer' = some value := by
  induction program with
  | «return» _ => exact h
  | undefined => exact h
  | call c next ih =>
      obtain ⟨result, hresult, hnext⟩ := Option.bind_eq_some_iff.mp h
      exact Option.bind_eq_some_iff.mpr ⟨result, hmore c result hresult, ih result hnext⟩

theorem runCall_succ {value : Result c} (h : runCall body fuel c = some value) :
    runCall body (fuel + 1) c = some value := by
  induction fuel generalizing c with
  | zero => cases h
  | succ fuel ih => exact exec_mono (fun _ _ => ih) h

theorem runCall_mono {fuel' : Nat} (hle : fuel ≤ fuel') {value : Result c}
    (h : runCall body fuel c = some value) : runCall body fuel' c = some value := by
  induction hle with
  | refl => exact h
  | step _ ih => exact runCall_succ ih

theorem run_mono {fuel' : Nat} (hle : fuel ≤ fuel')
    (h : program.exec (runCall body fuel) = some value) : program.exec (runCall body fuel') = some value :=
  exec_mono (fun _ _ => runCall_mono hle) h

theorem Yields.unique (h : Yields body program value)
    (h' : Yields body program value') : value = value' := by
  obtain ⟨fuel, hfuel⟩ := h
  obtain ⟨fuel', hfuel'⟩ := h'
  have hsame := (run_mono (Nat.le_max_left fuel fuel') hfuel).symm.trans (run_mono (Nat.le_max_right fuel fuel') hfuel')
  exact Option.some.inj hsame

/-! ## The rules -/

@[simp] theorem yields_return :
    Yields body (.return value : Program Call Result α) value' ↔ value' = value := by
  constructor
  · rintro ⟨fuel, hfuel⟩
    exact (Option.some.inj hfuel).symm
  · rintro rfl
    exact ⟨0, rfl⟩

@[simp] theorem yields_pure :
    Yields body (pure value : Program Call Result α) value' ↔ value' = value := yields_return

@[simp] theorem not_yields_undefined : ¬ Yields body (.undefined : Program Call Result α) value := by
  rintro ⟨fuel, hfuel⟩
  cases hfuel

theorem yields_call {next : Result c → Program Call Result α} :
    Yields body (.call c next) value ↔ ∃ result, Returns body c result ∧ Yields body (next result) value := by
  constructor
  · rintro ⟨fuel, hfuel⟩
    obtain ⟨result, hresult, hnext⟩ := Option.bind_eq_some_iff.mp hfuel
    exact ⟨result, ⟨fuel, hresult⟩, ⟨fuel, hnext⟩⟩
  · rintro ⟨result, ⟨fuel, hfuel⟩, ⟨fuel', hfuel'⟩⟩
    refine ⟨max fuel fuel', Option.bind_eq_some_iff.mpr ⟨result, ?_, ?_⟩⟩
    · exact runCall_mono (Nat.le_max_left fuel fuel') hfuel
    · exact run_mono (Nat.le_max_right fuel fuel') hfuel'

theorem yields_ask {value : Result c} : Yields body (ask c) value ↔ Returns body c value := by
  rw [ask, yields_call]
  constructor
  · rintro ⟨result, hresult, hvalue⟩
    rw [yields_return.mp hvalue]
    exact hresult
  · intro h
    exact ⟨value, h, yields_return.mpr rfl⟩

theorem returns_iff {value : Result c} : Returns body c value ↔ Yields body (body c) value := by
  constructor
  · rintro ⟨fuel | fuel, hfuel⟩
    · cases hfuel
    · exact ⟨fuel, hfuel⟩
  · rintro ⟨fuel, hfuel⟩
    exact ⟨fuel + 1, hfuel⟩

theorem Returns.unique {value value' : Result c} (h : Returns body c value)
    (h' : Returns body c value') : value = value' :=
  (returns_iff.mp h).unique (returns_iff.mp h')

theorem yields_bind {next : α → Program Call Result β} {value : β} :
    Yields body (program >>= next) value ↔ ∃ first, Yields body program first ∧ Yields body (next first) value := by
  change Yields body (program.bind next) value ↔ _
  induction program with
  | «return» first => simp [Program.bind]
  | undefined => simp [Program.bind]
  | call c rest ih =>
      simp only [Program.bind, yields_call, ih]
      constructor
      · rintro ⟨result, hresult, first, hfirst, hnext⟩
        exact ⟨first, ⟨result, hresult, hfirst⟩, hnext⟩
      · rintro ⟨first, ⟨result, hresult, hfirst⟩, hnext⟩
        exact ⟨result, hresult, first, hfirst, hnext⟩

theorem meets_bind {next : α → Program Call Result β} : Meets body cond (program >>= next) ↔
      Meets body cond program ∧ ∀ first, Yields body program first → Meets body cond (next first) := by
  change Meets body cond (program.bind next) ↔ _
  induction program with
  | «return» first => simp [Program.bind, Meets]
  | undefined => simp [Program.bind, Meets]
  | call c rest ih =>
      simp only [Program.bind, Meets, ih, yields_call]
      constructor
      · rintro ⟨hc, hall⟩
        refine ⟨⟨hc, fun result hresult => (hall result hresult).1⟩, ?_⟩
        rintro first ⟨result, hresult, hfirst⟩
        exact (hall result hresult).2 first hfirst
      · rintro ⟨⟨hc, hall⟩, hnext⟩
        refine ⟨hc, fun result hresult => ⟨hall result hresult, ?_⟩⟩
        intro first hfirst
        exact hnext first ⟨result, hresult, hfirst⟩

theorem meets_ask : Meets body cond (ask c) ↔ cond c := by
  simp [ask, Meets]

/-! ## Programs that return -/

/-- **A program returns if and only if its calls do.** -/
theorem exists_yields_iff (hcond : ∀ c, cond c ↔ ∃ value, Returns body c value)
    (program : Program Call Result α) : (∃ value, Yields body program value) ↔ Meets body cond program := by
  induction program with
  | «return» value => simp [Meets]
  | undefined => simp [Meets]
  | call c next ih =>
      simp only [yields_call, Meets, hcond c]
      constructor
      · rintro ⟨value, result, hresult, hnext⟩
        refine ⟨⟨result, hresult⟩, ?_⟩
        intro result' hresult'
        rw [hresult'.unique hresult]
        exact (ih result).mp ⟨value, hnext⟩
      · rintro ⟨⟨result, hresult⟩, hall⟩
        obtain ⟨value, hnext⟩ := (ih result).mpr (hall result hresult)
        exact ⟨value, result, hresult, hnext⟩

/-- What holds of a procedure when it holds of its calls holds of each one that returns. The induction is on the
fuel. -/
theorem returns_induction (hstep : ∀ c, Meets body cond (body c) → cond c)
    (h : ∃ value, Returns body c value) : cond c := by
  obtain ⟨value, fuel, hfuel⟩ := h
  induction fuel generalizing c with
  | zero => cases hfuel
  | succ fuel ih =>
      refine hstep c ?_
      suffices h : ∀ (program : Program Call Result (Result c)) result,
          program.exec (runCall body fuel) = some result → Meets body cond program from h (body c) value hfuel
      intro program
      induction program with
      | «return» _ => exact fun _ _ => trivial
      | undefined => exact fun _ h => nomatch h
      | call c' next ih' =>
          intro result hresult
          obtain ⟨first, hfirst, hnext⟩ := Option.bind_eq_some_iff.mp hresult
          refine ⟨ih first hfirst, ?_⟩
          intro first' hfirst'
          rw [hfirst'.unique ⟨fuel, hfirst⟩]
          exact ih' first result hnext

theorem Meets.mono {cond' : Call → Prop} (hcond : ∀ c, cond c → cond' c)
    (h : Meets body cond program) : Meets body cond' program := by
  induction program with
  | «return» _ => exact trivial
  | undefined => exact h
  | call c next ih =>
      constructor
      · exact hcond c h.1
      · exact fun value hvalue => ih value (h.2 value hvalue)

theorem exists_returns_iff : (∃ value, Returns body c value) ↔
    Meets body (fun c' => ∃ value, Returns body c' value) (body c) := by
  rw [← exists_yields_iff fun _ => Iff.rfl]
  simp only [returns_iff]

/-! ## The calls of a program -/

theorem meets_iff :
    Meets body cond program ↔ Meets body (fun _ => True) program ∧ ∀ c, Makes body c program → cond c := by
  induction program with
  | «return» _ => simp [Meets, Makes]
  | undefined => simp [Meets]
  | call c next ih =>
      simp only [Meets, Makes, ih]
      constructor
      · rintro ⟨hc, hall⟩
        refine ⟨⟨trivial, fun value hvalue => (hall value hvalue).1⟩, ?_⟩
        rintro c' (rfl | ⟨value, hvalue, hmakes⟩)
        · exact hc
        · exact (hall value hvalue).2 c' hmakes
      · rintro ⟨⟨-, hon⟩, hcond⟩
        refine ⟨hcond c (Or.inl rfl), fun value hvalue => ⟨hon value hvalue, ?_⟩⟩
        exact fun c' hmakes => hcond c' (Or.inr ⟨value, hvalue, hmakes⟩)

theorem Meets.makes (h : Meets body cond program) :
    Meets body (fun c => cond c ∧ Makes body c program) program := by
  obtain ⟨hon, hcond⟩ := meets_iff.mp h
  exact meets_iff.mpr ⟨hon, fun c hmakes => ⟨hcond c hmakes, hmakes⟩⟩

theorem Makes.returns (h : ∃ value, Yields body program value)
    (hmakes : Makes body c program) : ∃ value, Returns body c value :=
  (meets_iff.mp ((exists_yields_iff (fun _ => Iff.rfl) program).mp h)).2 c hmakes

/-- All calls that are entered by a program that returns return. -/
theorem Enters.returns (h : ∃ value, Yields body program value)
    (henters : Enters body program c) : ∃ value, Returns body c value := by
  induction henters with
  | first hmakes => exact hmakes.returns h
  | next _ hmakes ih => exact hmakes.returns (ih.imp fun _ => returns_iff.mp)

/-- What the program hands on from call to call holds of all calls that are entered. -/
theorem Enters.induction (hprogram : Meets body cond program)
    (hstep : ∀ c, Enters body program c → cond c → Meets body cond (body c))
    (henters : Enters body program c) : cond c := by
  induction henters with
  | first hmakes => exact (meets_iff.mp hprogram).2 _ hmakes
  | next henters hmakes ih => exact (meets_iff.mp (hstep _ henters ih)).2 _ hmakes

/-! ## Calls that are places -/

section Places

variable {Place : Type} {next : Place → Place → Prop} {At : Place → Call → Prop}

/-- **A walk that does not come back ends**, when only finitely many places can be reached. -/
theorem acc_of_not_return {place : Place} (hfinite : {place' | ReflTransGen next place place'}.Finite)
    (hback : ∀ place', ReflTransGen next place place' → ¬ TransGen next place' place') :
    Acc (Function.swap next) place := by
  have := hfinite.to_subtype
  let behind (p p' : {place' | ReflTransGen next place place'}) : Prop := TransGen next p'.1 p.1
  have htrans : IsTrans _ behind := ⟨fun _ _ _ hfirst hsecond => hsecond.trans hfirst⟩
  have hirrefl : Std.Irrefl behind := ⟨fun p => hback p.1 p.2⟩
  suffices h : ∀ p : {place' | ReflTransGen next place place'}, Acc (Function.swap next) p.1 from h ⟨place, .refl⟩
  intro p
  induction p using (Finite.wellFounded_of_trans_of_irrefl behind).induction with
  | h p ih => exact .intro _ fun place' hnext => ih ⟨place', p.2.tail hnext⟩ (.single hnext)

/-- `At` tells which calls are made at a place. Where the walks end, the calls return, if the calls made in their turn
return or are at the next places. -/
theorem exists_returns_of_acc (hcalls : ∀ place c, At place c → Meets body
      (fun c' => (∃ value, Returns body c' value) ∨ ∃ place', next place place' ∧ At place' c') (body c))
    {place : Place} (hat : At place c) (hacc : Acc (Function.swap next) place) :
    ∃ value, Returns body c value := by
  induction hacc generalizing c with
  | intro place _ ih =>
      rw [exists_returns_iff]
      refine (hcalls place c hat).mono ?_
      rintro c' (hreturns | ⟨place', hnext, hat'⟩)
      · exact hreturns
      · exact ih place' hnext hat'

end Places

end CallTrees
