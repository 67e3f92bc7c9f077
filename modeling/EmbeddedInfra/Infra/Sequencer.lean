import Mathlib.Tactic

set_option autoImplicit false

/-! # The sequencer

`infra::Sequencer` runs a *sequence function* with structured control flow (`Step`, `Execute`,
`If`/`ElseIf`/`Else`/`EndIf`, `While`, `DoWhile`, `ForEach`) that is suspended after every
`Step` until `Continue` is called. On every `Continue` the whole sequence function is called
again from the top, and two stacks of byte counters decide which of its constructs are carried
out: `examine` is the position the call has arrived at, `execute` the one to carry out next.

* The sequence functions (`Stmt`) are data, over a state `σ` that has what the actions log.
* `Machine` is the sequencer of the source: the calls on the two stacks, one call of the
  sequence function (`pass`), `Continue` and `Load`.
* `Stmt.next` and `interpret` execute the structured program directly, statement by statement.
-/

namespace EmbeddedInfra.Sequencer

/-! ## Sequence functions -/

/-- The `uint32_t&` a `ForEach` counts with. -/
structure Variable (σ : Type) where
  get : σ → UInt32
  set : UInt32 → σ → σ

mutual

/-- The constructs of a sequence function. A condition may change the state too: it is a call
of a function of the user, just as an action is. An `Execute` either performs an action or
contains a sequence of its own. -/
inductive Stmt (σ : Type) : Type where
  | step (action : σ → σ)
  | execute (action : σ → σ)
  | executeBlock (body : List (Stmt σ))
  | ifBlock (condition : σ → Bool × σ) (body : List (Stmt σ)) (rest : Branches σ)
  | whileLoop (condition : σ → Bool × σ) (body : List (Stmt σ))
  | doWhile (body : List (Stmt σ)) (condition : σ → Bool × σ)
  | forEach (counter : Variable σ) (first last : UInt32) (body : List (Stmt σ))

/-- What follows the body of an `If`: `EndIf`, an `Else` part, or a further `ElseIf`. -/
inductive Branches (σ : Type) : Type where
  | endIf
  | elseBlock (body : List (Stmt σ))
  | elseIf (condition : σ → Bool × σ) (body : List (Stmt σ)) (rest : Branches σ)

end

/-- A condition without side effects. -/
def test {σ : Type} (condition : σ → Bool) (s : σ) : Bool × σ := (condition s, s)

/-- The increment at the end of the body of a `ForEach`. -/
def Variable.increment {σ : Type} (v : Variable σ) (s : σ) : σ := v.set (v.get s + 1) s

/-- The condition under which the body of a `ForEach` is entered. -/
def Variable.differs {σ : Type} (v : Variable σ) (last : UInt32) : σ → Bool × σ :=
  test (fun s => v.get s != last)

/-! ## Positions

A construct occupies a fixed number of positions of the context it stands in; a body opens a
context of its own. -/

mutual

def Stmt.width {σ : Type} : Stmt σ → Nat
  | .step _ => 1
  | .execute _ => 1
  | .executeBlock _ => 1
  | .ifBlock _ _ rest => 2 + rest.width
  | .whileLoop _ _ => 3
  | .doWhile _ _ => 3
  | .forEach _ _ _ _ => 4

def Branches.width {σ : Type} : Branches σ → Nat
  | .endIf => 1
  | .elseBlock _ => 3
  | .elseIf _ _ rest => 3 + rest.width

end

/-- The number of positions of a sequence in its context. -/
def width {σ : Type} (p : List (Stmt σ)) : Nat := (p.map Stmt.width).sum

mutual

/-- The number of contexts that are open at once inside a construct. -/
def Stmt.depth {σ : Type} : Stmt σ → Nat
  | .step _ => 0
  | .execute _ => 1
  | .executeBlock body => 1 + depth body
  | .ifBlock _ body rest => max (1 + depth body) rest.depth
  | .whileLoop _ body => 1 + depth body
  | .doWhile body _ => 1 + depth body
  | .forEach _ _ _ body => 1 + depth body

def Branches.depth {σ : Type} : Branches σ → Nat
  | .endIf => 0
  | .elseBlock body => 1 + depth body
  | .elseIf _ body rest => max (1 + depth body) rest.depth

def depth {σ : Type} : List (Stmt σ) → Nat
  | [] => 0
  | st :: p => max st.depth (depth p)

end

mutual

/-- The largest number of positions of a context inside a construct. The increment of a
`ForEach` is a position of its body's context. -/
def Stmt.widest {σ : Type} : Stmt σ → Nat
  | .step _ => 0
  | .execute _ => 0
  | .executeBlock body => max (width body) (widest body)
  | .ifBlock _ body rest => max (max (width body) (widest body)) rest.widest
  | .whileLoop _ body => max (width body) (widest body)
  | .doWhile body _ => max (width body) (widest body)
  | .forEach _ _ _ body => max (width body + 1) (widest body)

def Branches.widest {σ : Type} : Branches σ → Nat
  | .endIf => 0
  | .elseBlock body => max (width body) (widest body)
  | .elseIf _ body rest => max (max (width body) (widest body)) rest.widest

def widest {σ : Type} : List (Stmt σ) → Nat
  | [] => 0
  | st :: p => max st.widest (widest p)

end

/-- The contexts that are open at once while a sequence function is called, its own included. -/
def contextDepth {σ : Type} (p : List (Stmt σ)) : Nat := 1 + depth p

/-- The largest number of positions of a context of a sequence function. -/
def positions {σ : Type} (p : List (Stmt σ)) : Nat := max (width p) (widest p)

/-! ## The two stacks -/

/-- `vector.back() = f(vector.back())`. -/
def modifyBack (f : Nat → Nat) : List Nat → List Nat
  | [] => []
  | [x] => [f x]
  | x :: y :: xs => x :: modifyBack f (y :: xs)

theorem modifyBack_append (f : Nat → Nat) (pre : List Nat) (x : Nat) :
    modifyBack f (pre ++ [x]) = pre ++ [f x] := by
  induction pre with
  | nil => rfl
  | cons a t ih =>
      cases t with
      | nil => rfl
      | cons b u => simpa [modifyBack] using ih

/-- The capacity of `execute` and `examine`. -/
def maxContexts : Nat := 8

/-- The sequencer together with the state its sequence function acts on. `overflow` records
that a stack was pushed beyond its capacity. -/
structure Machine (σ : Type) where
  execute : List Nat := []
  examine : List Nat := []
  repeating : Bool := false
  overflow : Bool := false
  state : σ

namespace Machine

variable {σ : Type}

def finished (m : Machine σ) : Bool := m.execute.isEmpty

def increaseCurrentStep (m : Machine σ) : Machine σ :=
  { m with examine := modifyBack (fun x => (x + 1) % 256) m.examine }

def executeCurrentStep (m : Machine σ) : Bool := m.execute == m.examine

def executeNextStep (m : Machine σ) : Machine σ :=
  { m with execute := modifyBack (fun x => (x + 1) % 256) m.execute }

def executePreviousStep (m : Machine σ) : Machine σ :=
  { m with execute := modifyBack (fun x => (x + 255) % 256) m.execute, repeating := true }

def pushExecute (m : Machine σ) : Machine σ :=
  { m with execute := m.execute ++ [0],
           overflow := m.overflow || decide (maxContexts ≤ m.execute.length) }

def pushExamine (m : Machine σ) : Machine σ :=
  { m with examine := m.examine ++ [0],
           overflow := m.overflow || decide (maxContexts ≤ m.examine.length) }

def pushContext (m : Machine σ) : Machine σ :=
  (if m.executeCurrentStep then m.pushExecute else m).pushExamine

/-- The first half of `PopContext`: leave the context that is being executed. -/
def popExecute (m : Machine σ) : Machine σ :=
  let m := { m with execute := m.execute.dropLast }
  if m.finished then m else m.executeNextStep

/-- The second half of `PopContext`. -/
def popExamine (m : Machine σ) : Machine σ :=
  let m := { m with examine := m.examine.dropLast }
  if m.examine.isEmpty then m else m.increaseCurrentStep

def popContext (m : Machine σ) : Machine σ :=
  (if m.executeCurrentStep then m.popExecute else m).popExamine

def executeWithoutContext (action : Machine σ → Machine σ) (m : Machine σ) : Machine σ :=
  (if m.executeCurrentStep then (action m).executeNextStep else m).increaseCurrentStep

/-- Performing an action of the user. -/
def perform (action : σ → σ) (m : Machine σ) : Machine σ := { m with state := action m.state }

/-- Evaluating a condition of the user. -/
def evaluate (condition : σ → Bool × σ) (m : Machine σ) : Bool × Machine σ :=
  ((condition m.state).1, { m with state := (condition m.state).2 })

/-! ## The calls of a sequence function -/

def callStep (action : σ → σ) (m : Machine σ) : Machine σ :=
  (if m.executeCurrentStep then m.perform action else m).increaseCurrentStep

/-- `Execute`: its function is called when `execute` is at this position or anywhere inside. -/
def callExecute (function : Machine σ → Machine σ) (m : Machine σ) : Machine σ :=
  if m.execute.take m.examine.length == m.examine then
    (function m.pushContext).popContext
  else
    m.increaseCurrentStep

/-- The function that `If`, `ElseIf` and `While` hand to `ExecuteWithoutContext`. -/
def unlessSkip (condition : σ → Bool × σ) (m : Machine σ) : Machine σ :=
  if (m.evaluate condition).1 then (m.evaluate condition).2
  else (m.evaluate condition).2.executeNextStep.executeNextStep

/-- The function that `EndWhile` and `EndForEach` hand to `ExecuteWithoutContext`. -/
def goBack (m : Machine σ) : Machine σ :=
  m.executePreviousStep.executePreviousStep.executePreviousStep

def callIf (condition : σ → Bool × σ) (m : Machine σ) : Machine σ :=
  (m.executeWithoutContext (unlessSkip condition)).pushContext

def callElseIf (condition : σ → Bool × σ) (m : Machine σ) : Machine σ :=
  ((m.popContext.executeWithoutContext (fun m => m.executeNextStep.executeNextStep)
    ).executeWithoutContext (unlessSkip condition)).pushContext

def callElse (m : Machine σ) : Machine σ :=
  (m.popContext.executeWithoutContext executeNextStep).pushContext

def callEndIf (m : Machine σ) : Machine σ := m.popContext.executeWithoutContext id

def callWhile (condition : σ → Bool × σ) (m : Machine σ) : Machine σ := m.callIf condition

def callEndWhile (m : Machine σ) : Machine σ := m.popContext.executeWithoutContext goBack

def callDoWhile (m : Machine σ) : Machine σ := (m.executeWithoutContext id).pushContext

def callEndDoWhile (condition : σ → Bool × σ) (m : Machine σ) : Machine σ :=
  m.popContext.executeWithoutContext (fun m =>
    if (m.evaluate condition).1 then (m.evaluate condition).2.goBack else (m.evaluate condition).2)

def callForEach (v : Variable σ) (first last : UInt32) (m : Machine σ) : Machine σ :=
  ((m.executeWithoutContext (perform (v.set first))).executeWithoutContext
    (unlessSkip (v.differs last))).pushContext

def callEndForEach (v : Variable σ) (m : Machine σ) : Machine σ :=
  (m.executeWithoutContext (perform v.increment)).popContext.executeWithoutContext goBack

end Machine

mutual

/-- The calls that a construct of the sequence function makes, in order. -/
def Stmt.call {σ : Type} : Stmt σ → Machine σ → Machine σ
  | .step action, m => m.callStep action
  | .execute action, m => m.callExecute (Machine.perform action)
  | .executeBlock body, m => m.callExecute (callSequence body)
  | .ifBlock condition body rest, m => rest.call (callSequence body (m.callIf condition))
  | .whileLoop condition body, m => (callSequence body (m.callWhile condition)).callEndWhile
  | .doWhile body condition, m => (callSequence body m.callDoWhile).callEndDoWhile condition
  | .forEach v first last body, m => (callSequence body (m.callForEach v first last)).callEndForEach v

def Branches.call {σ : Type} : Branches σ → Machine σ → Machine σ
  | .endIf, m => m.callEndIf
  | .elseBlock body, m => (callSequence body m.callElse).callEndIf
  | .elseIf condition body rest, m => rest.call (callSequence body (m.callElseIf condition))

def callSequence {σ : Type} : List (Stmt σ) → Machine σ → Machine σ
  | [], m => m
  | st :: p, m => callSequence p (st.call m)

end

namespace Machine

variable {σ : Type}

/-- One round of the loop in `Continue`: the sequence function is called once. -/
def pass (p : List (Stmt σ)) (m : Machine σ) : Machine σ :=
  (callSequence p { m with repeating := false }.pushContext).popContext

/-- The loop in `Continue`, for at most the given number of rounds. -/
def passes (p : List (Stmt σ)) : Nat → Machine σ → Option (Machine σ)
  | 0, _ => none
  | rounds + 1, m =>
      if (m.pass p).repeating then passes p rounds (m.pass p) else some (m.pass p)

/-- The machine with which the loop in `Continue` starts. -/
def enter (m : Machine σ) : Machine σ := { m with examine := [], repeating := true }

/-- `Continue`. -/
def callContinue (p : List (Stmt σ)) (rounds : Nat) (m : Machine σ) : Option (Machine σ) :=
  (passes p rounds m.enter).map
    (fun m => if m.finished then m else m.executeNextStep)

def load (p : List (Stmt σ)) (rounds : Nat) (m : Machine σ) : Option (Machine σ) :=
  callContinue p rounds { m with execute := [] }

/-- `Load` followed by `n` calls of `Continue`; no call is made once the sequence has
finished. -/
def run (p : List (Stmt σ)) (rounds : Nat) (s : σ) : Nat → Option (Machine σ)
  | 0 => load p rounds { state := s }
  | n + 1 => (run p rounds s n).bind (fun m =>
      if m.finished then some m else callContinue p rounds m)

end Machine

/-! ## Direct interpretation -/

/-- What remains to be done of an `If` whose condition does not hold. -/
def Branches.otherwise {σ : Type} : Branches σ → List (Stmt σ)
  | .endIf => []
  | .elseBlock body => body
  | .elseIf condition body rest => [.ifBlock condition body rest]

/-- One step of the direct interpretation of a statement: what is left to do in its place, the
new state, and whether the interpretation pauses. -/
def Stmt.next {σ : Type} : Stmt σ → σ → List (Stmt σ) × σ × Bool
  | .step action, s => ([], action s, true)
  | .execute action, s => ([], action s, false)
  | .executeBlock body, s => (body, s, false)
  | .ifBlock condition body rest, s =>
      (if (condition s).1 then body else rest.otherwise, (condition s).2, false)
  | .whileLoop condition body, s =>
      (if (condition s).1 then body ++ [.whileLoop condition body] else [], (condition s).2, false)
  | .doWhile body condition, s => (body ++ [.whileLoop condition body], s, false)
  | .forEach v first last body, s =>
      ([.whileLoop (v.differs last) (body ++ [.execute v.increment])], v.set first s, false)

/-- `n` steps of the direct interpretation: the states at its pauses, what is left to do, and
the state reached. -/
def interpret {σ : Type} : Nat → List (Stmt σ) → σ → List σ × List (Stmt σ) × σ
  | 0, p, s => ([], p, s)
  | _ + 1, [], s => ([], [], s)
  | n + 1, st :: p, s =>
      let r := interpret n ((st.next s).1 ++ p) (st.next s).2.1
      (if (st.next s).2.2 then (st.next s).2.1 :: r.1 else r.1, r.2)

/-- The direct interpretation pauses after a `Step`, or it ends. -/
inductive Outcome (σ : Type) : Type where
  | paused (rest : List (Stmt σ)) (s : σ)
  | ended (s : σ)

def Outcome.state {σ : Type} : Outcome σ → σ
  | .paused _ s => s
  | .ended s => s

def Outcome.isEnded {σ : Type} : Outcome σ → Bool
  | .paused _ _ => false
  | .ended _ => true

/-- Interpret until the next pause or the end, in at most the given number of steps. -/
def proceed {σ : Type} : Nat → List (Stmt σ) → σ → Option (Outcome σ)
  | _, [], s => some (.ended s)
  | 0, _ :: _, _ => none
  | n + 1, st :: p, s =>
      if (st.next s).2.2 then some (.paused ((st.next s).1 ++ p) (st.next s).2.1)
      else proceed n ((st.next s).1 ++ p) (st.next s).2.1

/-- The direct interpretation, resumed `n` times; it is not resumed after its end. -/
def interpretation {σ : Type} (p : List (Stmt σ)) (steps : Nat) (s : σ) : Nat → Option (Outcome σ)
  | 0 => proceed steps p s
  | n + 1 => (interpretation p steps s n).bind (fun
      | .paused rest s => proceed steps rest s
      | .ended s => some (.ended s))

end EmbeddedInfra.Sequencer
