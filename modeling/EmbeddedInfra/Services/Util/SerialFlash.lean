import EmbeddedInfra.Hal.Flash
import EmbeddedInfra.Infra.SequencerRuns

set_option autoImplicit false

/-! # Drivers of a serial flash

The drivers of a serial flash write and erase in the same loop: as long as there is something to do, they enable
writing, send one command, and wait until the flash is ready again. This file has the loop and the ways to wait; the
commands are those of the driver. All that goes over the bus is in a log.
-/

namespace EmbeddedInfra.SerialFlash

open Sequencer

/-- What a driver does on its bus: it sends a command, of which the bus has the form `τ`, or it reads the status. -/
inductive Access (τ : Type)
  | send (transfer : τ)
  | readStatus (reply : UInt8)

section Definitions

variable {τ : Type}

/-- `(statusRegister & 1) == 1` -/
def writeInProgress (status : UInt8) : Bool := status &&& 1 == 1

/-- The log behind so many reads of the status. -/
def polled (status : List (Access τ) → UInt8) : Nat → List (Access τ) → List (Access τ)
  | 0, log => log
  | n + 1, log => polled status n (log ++ [.readStatus (status log)])

/-- The status that the flash gives after what has been on the bus. It takes its time, but it does get ready. -/
structure Timing (τ : Type) where
  status : List (Access τ) → UInt8
  ready : ∀ log, ∃ n, writeInProgress (status (polled status n log)) = false

/-- The members that the loops count with. -/
structure Members where
  buffer : List UInt8
  address : Nat
  sectorIndex : Nat

/-- A driver, and how often it has scheduled `onDone`. -/
structure State (τ : Type) where
  members : Members
  statusRegister : UInt8
  log : List (Access τ)
  scheduled : Nat

def State.send (transfer : τ) (s : State τ) : State τ := { s with log := s.log ++ [.send transfer] }

def State.readStatusRegister (timing : Timing τ) (s : State τ) : State τ :=
  { s with statusRegister := timing.status s.log, log := s.log ++ [.readStatus (timing.status s.log)] }

def State.schedule (s : State τ) : State τ := { s with scheduled := s.scheduled + 1 }

/-- What a loop does in its turns: a command, with the members behind it. -/
structure Job (τ : Type) where
  more : Members → Bool
  turn : Members → Members × τ

def Job.perform (job : Job τ) (s : State τ) : State τ :=
  { s with members := (job.turn s.members).1, log := s.log ++ [.send (job.turn s.members).2] }

/-- A call of the bus ends a step of the sequencer, or it comes back when it is done. -/
inductive Style
  | asynchronous
  | synchronous

def Style.call : Style → (State τ → State τ) → Stmt (State τ)
  | .asynchronous, action => .step action
  | .synchronous, action => .execute action

/-- The loop of a driver. -/
def Job.loop (job : Job τ) (style : Style) (writeEnable : τ) (hold : List (Stmt (State τ))) : Stmt (State τ) :=
  .whileLoop (test fun s => job.more s.members)
    ([style.call (State.send writeEnable), style.call job.perform] ++ hold)

/-! ## Waiting -/

/-- `HoldWhileWriteInProgress` with a timer between the reads. -/
def delayedHold (timing : Timing τ) : List (Stmt (State τ)) :=
  [.step (State.readStatusRegister timing),
    .whileLoop (test fun s => writeInProgress s.statusRegister) [.step id, .step (State.readStatusRegister timing)]]

/-- `PollStatus`: the bus itself reads the status until it matches. -/
def State.pollStatus (timing : Timing τ) (s : State τ) : State τ :=
  { s with log := polled timing.status (Nat.find (timing.ready s.log) + 1) s.log }

/-- `HoldWhileWriteInProgress` that reads in the condition of its loop. -/
def busyHold (timing : Timing τ) : List (Stmt (State τ)) :=
  [.whileLoop (fun s => (writeInProgress (s.readStatusRegister timing).statusRegister, s.readStatusRegister timing)) []]

/-- The replies behind a command: the last of them says that the flash is ready. -/
def Waited (replies : List UInt8) : Prop := ∃ busy last, replies = busy ++ [last] ∧ writeInProgress last = false

/-- The status is read until the flash is ready, and nothing else happens. -/
def Holds (hold : List (Stmt (State τ))) : Prop :=
  ∀ s, ∃ replies status, Waited replies ∧
    EndsIn (fun x => x.scheduled = s.scheduled) hold s
      { s with statusRegister := status, log := s.log ++ replies.map .readStatus }

/-! ## What has been done -/

/-- The commands that a loop sends, without those that enable writing. -/
inductive Job.Sends (job : Job τ) : Members → List τ → Prop
  | stop {m : Members} (hstop : job.more m = false) : Sends job m []
  | turn {m : Members} {transfers : List τ} (hmore : job.more m = true) (hrest : Sends job (job.turn m).1 transfers) :
      Sends job m ((job.turn m).2 :: transfers)

/-- A log in which every command has been enabled, and has been waited for. -/
inductive Performed (writeEnable : τ) : List τ → List (Access τ) → Prop
  | nil : Performed writeEnable [] []
  | cons {transfer : τ} {transfers : List τ} {replies : List UInt8} {log : List (Access τ)} (hwait : Waited replies)
      (hrest : Performed writeEnable transfers log) :
      Performed writeEnable (transfer :: transfers)
        ([.send writeEnable, .send transfer] ++ replies.map .readStatus ++ log)

end Definitions

/-! ## Waiting comes to an end -/

section Waiting

variable {τ : Type} {timing : Timing τ} {s : State τ}

theorem waited_single {reply : UInt8} (h : writeInProgress reply = false) : Waited [reply] := ⟨[], reply, rfl, h⟩

theorem Waited.cons {reply : UInt8} {replies : List UInt8} (h : Waited replies) : Waited (reply :: replies) := by
  obtain ⟨busy, last, rfl, hlast⟩ := h
  exact ⟨reply :: busy, last, rfl, hlast⟩

theorem holds_delayedHold (timing : Timing τ) : Holds (delayedHold timing) := by
  intro s
  obtain ⟨n, hn⟩ := timing.ready s.log
  induction n generalizing s with
  | zero =>
      refine ⟨[timing.status s.log], timing.status s.log, waited_single hn, ?_⟩
      exact EndsIn.step rfl (EndsIn.whileFalse hn (EndsIn.nil _))
  | succ n ih =>
      cases hready : writeInProgress (timing.status s.log) with
      | false =>
          refine ⟨[timing.status s.log], timing.status s.log, waited_single hready, ?_⟩
          exact EndsIn.step rfl (EndsIn.whileFalse hready (EndsIn.nil _))
      | true =>
          -- the turn of the loop ends with the read that the next one begins with
          obtain ⟨replies, status, hwait, pauses, hruns, hpauses⟩ := ih (s.readStatusRegister timing) hn
          refine ⟨timing.status s.log :: replies, status, hwait.cons,
            s.readStatusRegister timing :: s.readStatusRegister timing :: pauses, ?_, ?_⟩
          · apply Runs.step
            refine Runs.whileTrue ?_ (Runs.step ?_)
            · exact hready
            · simpa [State.readStatusRegister, delayedHold] using hruns
          · simpa [State.readStatusRegister] using hpauses

/-- One evaluation of the condition. -/
theorem next_busyHold (timing : Timing τ) (s : State τ) :
    ∀ st ∈ busyHold timing, st.next s =
      (if writeInProgress (timing.status s.log) then busyHold timing else [], s.readStatusRegister timing, false) := by
  intro st hst
  rw [List.mem_singleton.mp hst]
  rfl

theorem holds_busyHold (timing : Timing τ) : Holds (busyHold timing) := by
  intro s
  obtain ⟨n, hn⟩ := timing.ready s.log
  have hstop (s : State τ) (hready : writeInProgress (timing.status s.log) = false) :
      EndsIn (fun x => x.scheduled = s.scheduled) (busyHold timing) s (s.readStatusRegister timing) := by
    have hnext := next_busyHold timing s _ (List.mem_singleton_self _)
    rw [hready] at hnext
    exact ⟨[], Runs.silent hnext (Runs.nil _), by simp⟩
  induction n generalizing s with
  | zero => exact ⟨[timing.status s.log], timing.status s.log, waited_single hn, hstop s hn⟩
  | succ n ih =>
      cases hready : writeInProgress (timing.status s.log) with
      | false => exact ⟨[timing.status s.log], timing.status s.log, waited_single hready, hstop s hready⟩
      | true =>
          obtain ⟨replies, status, hwait, pauses, hruns, hpauses⟩ := ih (s.readStatusRegister timing) hn
          have hnext := next_busyHold timing s _ (List.mem_singleton_self _)
          rw [hready] at hnext
          refine ⟨timing.status s.log :: replies, status, hwait.cons, pauses, Runs.silent hnext ?_, hpauses⟩
          simpa [State.readStatusRegister] using hruns

theorem polled_append (status : List (Access τ) → UInt8) (n : Nat) (log : List (Access τ)) :
    ∃ replies : List UInt8, polled status n log = log ++ replies.map .readStatus := by
  induction n generalizing log with
  | zero => exact ⟨[], by simp [polled]⟩
  | succ n ih =>
      obtain ⟨replies, hreplies⟩ := ih (log ++ [.readStatus (status log)])
      exact ⟨status log :: replies, by simp [polled, hreplies]⟩

theorem polled_succ (status : List (Access τ) → UInt8) (n : Nat) (log : List (Access τ)) :
    polled status (n + 1) log = polled status n log ++ [.readStatus (status (polled status n log))] := by
  induction n generalizing log with
  | zero => rfl
  | succ n ih => exact ih (log ++ [.readStatus (status log)])

theorem holds_pollStatus (timing : Timing τ) : Holds [.step (State.pollStatus timing)] := by
  intro s
  have hready := Nat.find_spec (timing.ready s.log)
  obtain ⟨replies, hreplies⟩ := polled_append timing.status (Nat.find (timing.ready s.log)) s.log
  refine ⟨replies ++ [timing.status (polled timing.status (Nat.find (timing.ready s.log)) s.log)], s.statusRegister,
    ⟨replies, _, rfl, hready⟩, EndsIn.step rfl ?_⟩
  convert EndsIn.nil (s.pollStatus timing) using 1
  rw [State.pollStatus, polled_succ]
  nth_rewrite 2 [hreplies]
  simp

end Waiting

/-! ## Loops come to an end -/

section Loops

variable {τ : Type} {job : Job τ} {style : Style} {writeEnable : τ} {hold : List (Stmt (State τ))} {m : Members}
  {transfers : List τ} {s : State τ}

theorem endsIn_call {I : State τ → Prop} {action : State τ → State τ} {p : List (Stmt (State τ))} {t : State τ}
    (hI : I (action s)) (h : EndsIn I p (action s) t) : EndsIn I (style.call action :: p) s t := by
  cases style with
  | asynchronous => exact h.step hI
  | synchronous => exact h.execute

/-- **A loop sends its commands**, each of them enabled and waited for. -/
theorem Job.Sends.ends (h : job.Sends m transfers) (hhold : Holds hold) (hm : s.members = m) :
    ∃ t log, EndsIn (fun x => x.scheduled = s.scheduled) [job.loop style writeEnable hold] s t ∧
      t.scheduled = s.scheduled ∧ t.log = s.log ++ log ∧ Performed writeEnable transfers log := by
  induction h generalizing s with
  | stop hstop =>
      subst hm
      exact ⟨s, [], EndsIn.whileFalse hstop (EndsIn.nil s), rfl, (List.append_nil _).symm, .nil⟩
  | turn hmore hrest ih =>
      subst hm
      let sent := job.perform (s.send writeEnable)
      obtain ⟨replies, status, hwait, hheld⟩ := hhold sent
      obtain ⟨t, log, hends, hscheduled, hlog, hperformed⟩ :=
        @ih { sent with statusRegister := status, log := sent.log ++ replies.map .readStatus } rfl
      refine ⟨t, [.send writeEnable, .send (job.turn s.members).2] ++ replies.map .readStatus ++ log, ?_, hscheduled,
        ?_, .cons hwait hperformed⟩
      · exact EndsIn.whileTrue hmore (endsIn_call rfl (endsIn_call rfl hheld)) hends
      · rw [hlog]
        simp [sent, Job.perform, State.send]

end Loops

end EmbeddedInfra.SerialFlash
