import EmbeddedInfra.Infra.SequencerRelations
import EmbeddedInfra.Services.CyclicStore.Restart

set_option autoImplicit false

/-! # Clearing the store

`Clear` erases the flash and moves both addresses to its start. What its caller can do with the store then is
compared with what can be done with a store that is constructed on that flash.
-/

namespace EmbeddedInfra.CyclicStore

open NorMemory Sequencer Keeps

variable {D : Device} {s s' t t' : Store} {range : List UInt8} {n : Nat}
  {results : List (List UInt8)} {pauses : List Store}

/-! ## Sessions -/

/-- What a caller does: an operation, a new iterator, or a read with one of the new iterators, the latest of which is
number zero. -/
inductive Event where
  | perform (op : Operation)
  | begin
  | read (i : Nat) (buffer : List UInt8)

/-- The events happen one after the other, each of them from its call to its completion, and the reads have the given
results. `n` is the number of new iterators, which are in front of the others. -/
inductive Session (D : Device) : Nat → Store → List Event → List (List UInt8) → Store → Prop where
  | nil (n : Nat) (s : Store) : Session D n s [] [] s
  | perform {n : Nat} {s t u : Store} {op : Operation} {events : List Event} {results : List (List UInt8)}
      (h : Performs D op s t) (hs : Session D n t events results u) : Session D n s (.perform op :: events) results u
  | begin {n : Nat} {s u : Store} {events : List Event} {results : List (List UInt8)}
      (hs : Session D (n + 1) { s with iterators := {} :: s.iterators } events results u) :
      Session D n s (.begin :: events) results u
  | read {n i : Nat} {s u : Store} {it it' : Iterator} {buffer result : List UInt8} {events : List Event}
      {results : List (List UInt8)} (hi : i < n) (hit : s.iterators[i]? = some it) (h : Reads D s buffer it result it')
      (hs : Session D n { s with iterators := s.iterators.set i it' } events results u) :
      Session D n s (.read i buffer :: events) (result :: results) u

/-- The caller finds the given results, contents of the flash and outcome of the assertions. -/
def Observes (D : Device) (s : Store) (events : List Event) (results : List (List UInt8)) (flash : Memory)
    (assertionFailed : Bool) : Prop :=
  ∃ u, Session D 0 s events results u ∧ u.flash = flash ∧ u.assertionFailed = assertionFailed

/-- No caller can tell the stores apart, with iterators that are new. -/
def BehaveAlike (D : Device) (s t : Store) : Prop :=
  ∀ events results flash assertionFailed,
    Observes D s events results flash assertionFailed ↔ Observes D t events results flash assertionFailed

variable {events : List Event}

/-- The events determine the results. -/
theorem Session.unique {results' : List (List UInt8)} {u u' : Store}
    (h : Session D n s events results u) (h' : Session D n s events results' u') : results = results' ∧ u = u' := by
  induction h generalizing results' with
  | nil n s =>
      cases h'
      exact ⟨rfl, rfl⟩
  | perform hop _ ih =>
      cases h' with
      | perform hop' hrest' =>
          obtain rfl := hop.unique hop'
          exact ih hrest'
  | begin _ ih =>
      cases h' with
      | begin hrest' => exact ih hrest'
  | read _ hit hread _ ih =>
      cases h' with
      | read _ hit' hread' hrest' =>
          obtain rfl := Option.some.inj (hit.symm.trans hit')
          obtain ⟨rfl, rfl⟩ := hread.unique hread'
          obtain ⟨rfl, rfl⟩ := ih hrest'
          exact ⟨rfl, rfl⟩

/-! ## Stores that are alike -/

/-- The stores may differ in what is read before it is used, and in other iterators than the new ones. -/
structure Alike (n : Nat) (s t : Store) : Prop where
  flash : s.flash = t.flash
  startAddress : s.startAddress = t.startAddress
  endAddress : s.endAddress = t.endAddress
  remainingPartialSize : s.remainingPartialSize = t.remainingPartialSize
  partialSizeWritten : s.partialSizeWritten = t.partialSizeWritten
  partialAddStarted : s.partialAddStarted = t.partialAddStarted
  assertionFailed : s.assertionFailed = t.assertionFailed
  iterators : s.iterators.take n = t.iterators.take n

theorem Alike.symm (h : Alike n s t) : Alike n t s :=
  ⟨h.flash.symm, h.startAddress.symm, h.endAddress.symm, h.remainingPartialSize.symm, h.partialSizeWritten.symm,
    h.partialAddStarted.symm, h.assertionFailed.symm, h.iterators.symm⟩

/-- The status of a sector has just been read. -/
structure AlikeStatus (n : Nat) (s t : Store) : Prop extends Alike n s t where
  sectorStatus : s.sectorStatus = t.sectorStatus

/-! ## Adding to both -/

theorem agrees_test {p : Store → Bool} (hp : ∀ s t, Alike n s t → p s = p t) : Agrees (Alike n) (test p) :=
  fun s t h => ⟨hp s t h, h⟩

theorem respects_fill (n : Nat) (range : List UInt8) : Respects (Alike n) (fillSectorIfDataDoesNotFit D range) := by
  refine ⟨⟨agrees_test ?_, ⟨?_, trivial⟩, trivial⟩, trivial⟩
  · intro s t h
    rw [h.endAddress, h.remainingPartialSize]
  · intro s t h
    refine { h with flash := ?_, endAddress := ?_ }
    · show program s.flash s.endAddress _ = program t.flash t.endAddress _
      rw [h.flash, h.endAddress]
    · show D.startOfNextSectorCyclical s.endAddress = D.startOfNextSectorCyclical t.endAddress
      rw [h.endAddress]

/-- The last step of adding a range: the record is complete, or other parts of it follow. -/
def writeReady (D : Device) (s : Store) : Store :=
  if s.remainingPartialSize = 0 then
    { setStatus BlockStatus.dataReady s with
      endAddress := wrapAddress D (add32 s.endAddress (add32 s.partialSizeWritten 3)),
      partialSizeWritten := 0,
      partialAddStarted := false
    }.writeBuffer [BlockStatus.dataReady] s.endAddress
  else { s with partialAddStarted := true }

theorem Alike.writeReady (h : Alike n s t) : Alike n (writeReady D s) (writeReady D t) := by
  have hremaining := h.remainingPartialSize
  unfold CyclicStore.writeReady
  by_cases hlast : s.remainingPartialSize = 0
  · rw [if_pos hlast, if_pos (hremaining ▸ hlast)]
    refine ⟨?_, h.startAddress, ?_, h.remainingPartialSize, rfl, rfl, h.assertionFailed, h.iterators⟩
    · show program s.flash s.endAddress _ = program t.flash t.endAddress _
      rw [h.flash, h.endAddress]
    · show wrapAddress D (add32 s.endAddress (add32 s.partialSizeWritten 3)) =
        wrapAddress D (add32 t.endAddress (add32 t.partialSizeWritten 3))
      rw [h.endAddress, h.partialSizeWritten]
  · rw [if_neg hlast, if_neg (hremaining ▸ hlast)]
    exact { h with partialAddStarted := rfl }

theorem respects_writeRange (n : Nat) (range : List UInt8) : Respects (Alike n) (writeRange D range) := by
  refine ⟨⟨agrees_test ?_, ⟨?_, ?_, ?_, trivial⟩, trivial⟩, ?_, ?_, trivial⟩
  · intro s t h
    rw [h.partialAddStarted]
  · intro s t h
    refine { h with flash := ?_, assertionFailed := ?_ }
    · show program s.flash s.endAddress _ = program t.flash t.endAddress _
      rw [h.flash, h.endAddress]
    · show (s.assertionFailed || _) = (t.assertionFailed || _)
      rw [h.assertionFailed, h.remainingPartialSize, h.endAddress]
  · intro s t h
    refine { h with flash := ?_ }
    show program s.flash (add32 s.endAddress 1) [UInt8.ofNat (range.length + s.remainingPartialSize),
        UInt8.ofNat ((range.length + s.remainingPartialSize) / 256)] =
      program t.flash (add32 t.endAddress 1) [UInt8.ofNat (range.length + t.remainingPartialSize),
        UInt8.ofNat ((range.length + t.remainingPartialSize) / 256)]
    rw [h.flash, h.endAddress, h.remainingPartialSize]
  · intro s t h
    refine { h with flash := ?_ }
    show program s.flash (add32 s.endAddress s.partialSizeWritten) _ =
      program t.flash (add32 t.endAddress t.partialSizeWritten) _
    rw [h.flash, h.endAddress, h.partialSizeWritten]
  · intro s t h
    refine { h with flash := ?_, partialSizeWritten := ?_ }
    · show program s.flash (add32 (add32 s.endAddress s.partialSizeWritten) 3) _ =
        program t.flash (add32 (add32 t.endAddress t.partialSizeWritten) 3) _
      rw [h.flash, h.endAddress, h.partialSizeWritten]
    · show add32 s.partialSizeWritten range.length = add32 t.partialSizeWritten range.length
      rw [h.partialSizeWritten]
  · exact fun s t h => h.writeReady

/-- Reading the status of the next sector -/
theorem Alike.readNextSectorStatus (h : Alike n s t) :
    AlikeStatus n (readNextSectorStatus D s) (readNextSectorStatus D t) := by
  refine ⟨{ h with }, ?_⟩
  show D.readStatus s.flash (D.startOfNextSectorCyclical s.endAddress) =
    D.readStatus t.flash (D.startOfNextSectorCyclical t.endAddress)
  rw [h.flash, h.endAddress]

/-- After the status of a sector has been read, it is used by a block that leaves the stores alike. -/
theorem relates_ifUsed {action : Store → Store} (haction : ∀ s t, AlikeStatus n s t → Alike n (action s) (action t)) :
    Relates (AlikeStatus n) (Alike n)
      [.ifBlock (test fun s => s.sectorStatus == SectorStatus.used) [.step action] .endIf] := by
  refine Relates.ifBlock ?_ (Relates.step haction relates_nil) (relates_nil.weaken fun s t h => h.toAlike) relates_nil
  intro s t h
  rw [h.sectorStatus]

theorem relates_erase (n : Nat) : Relates (Alike n) (Alike n) (eraseSectorIfAtStart D) := by
  have herase : ∀ s t : Store, Alike n s t → Alike n
      { s with flash := D.eraseSector s.flash (D.sectorOfAddress s.endAddress) }
      { t with flash := D.eraseSector t.flash (D.sectorOfAddress t.endAddress) } := by
    intro s t h
    refine { h with flash := ?_ }
    show D.eraseSector s.flash (D.sectorOfAddress s.endAddress) = D.eraseSector t.flash (D.sectorOfAddress t.endAddress)
    rw [h.flash, h.endAddress]
  have hstatus : ∀ s t : Store, Alike n s t →
      AlikeStatus n (readNextSectorStatus D s) (readNextSectorStatus D t) := fun s t h => h.readNextSectorStatus
  refine Relates.ifBlock ?_ (Relates.step herase (Relates.step hstatus (relates_ifUsed ?_))) relates_nil relates_nil
  · intro s t h
    rw [h.endAddress]
  · intro s t h
    refine { h with flash := ?_, startAddress := ?_, iterators := ?_ }
    · show program s.flash (D.startOfNextSectorCyclical s.endAddress) _ =
        program t.flash (D.startOfNextSectorCyclical t.endAddress) _
      rw [h.flash, h.endAddress]
    · show D.startOfNextSectorCyclical s.endAddress = D.startOfNextSectorCyclical t.endAddress
      rw [h.endAddress]
    · show (s.iterators.map _).take n = (t.iterators.map _).take n
      rw [← List.map_take, ← List.map_take, h.iterators, h.startAddress]

theorem relates_status (n : Nat) : Relates (Alike n) (Alike n) (writeSectorStatusIfAtStartOfSector D) := by
  have hstatus : ∀ s t : Store, Alike n s t →
      AlikeStatus n (readNextSectorStatus D s) (readNextSectorStatus D t) := fun s t h => h.readNextSectorStatus
  have hwrite : ∀ s t : Store, Alike n s t → Alike n
      ({ s with
          sectorStatus := newSectorStatus s,
          endAddress := wrapAddress D (add32 s.endAddress 1) }.writeBuffer [newSectorStatus s] s.endAddress)
      ({ t with
          sectorStatus := newSectorStatus t,
          endAddress := wrapAddress D (add32 t.endAddress 1) }.writeBuffer [newSectorStatus t] t.endAddress) := by
    intro s t h
    have hstatus : newSectorStatus s = newSectorStatus t := by
      unfold newSectorStatus
      rw [h.endAddress, h.startAddress]
    refine { h with flash := ?_, endAddress := ?_ }
    · show program s.flash s.endAddress _ = program t.flash t.endAddress _
      rw [h.flash, h.endAddress, hstatus]
    · show wrapAddress D (add32 s.endAddress 1) = wrapAddress D (add32 t.endAddress 1)
      rw [h.endAddress]
  refine Relates.ifBlock ?_ (Relates.step hstatus (Relates.append (relates_ifUsed ?_)
    (Relates.step hwrite relates_nil))) relates_nil relates_nil
  · intro s t h
    rw [h.endAddress]
  · intro s t h
    refine { h with flash := ?_ }
    show program s.flash (D.startOfNextSectorCyclical s.endAddress) _ =
      program t.flash (D.startOfNextSectorCyclical t.endAddress) _
    rw [h.flash, h.endAddress]

/-- **Adding** to two stores that are alike -/
theorem relates_add (n : Nat) (range : List UInt8) : Relates (Alike n) (Alike n) (add D range) := by
  have hfront : Relates (Alike n) (Alike n) (fillSectorIfDataDoesNotFit D range ++ (eraseSectorIfAtStart D ++
      writeSectorStatusIfAtStartOfSector D)) :=
    (respects_fill n range).relates.append ((relates_erase n).append (relates_status n))
  refine Relates.ifBlock ?_ hfront relates_nil (respects_writeRange n range).relates
  intro s t h
  rw [h.partialAddStarted]

theorem Alike.prepareAdd (h : Alike n s t) (range : List UInt8) : Alike n (prepareAdd range s) (prepareAdd range t) := by
  refine { h with remainingPartialSize := ?_, assertionFailed := ?_ }
  · show (if s.partialAddStarted then _ else _) = if t.partialAddStarted then _ else _
    rw [h.partialAddStarted, h.remainingPartialSize]
  · show (s.assertionFailed || _) = (t.assertionFailed || _)
    rw [h.assertionFailed]

theorem Alike.prepareAddPartial (h : Alike n s t) (range : List UInt8) (totalSize : Nat) :
    Alike n (prepareAddPartial range totalSize s) (prepareAddPartial range totalSize t) := by
  unfold CyclicStore.prepareAddPartial
  refine Alike.prepareAdd ?_ range
  have hstarted := h.partialAddStarted
  by_cases hs : s.partialAddStarted = true
  · rw [if_pos hs, if_pos (hstarted ▸ hs)]
    exact h
  · rw [if_neg hs, if_neg (hstarted ▸ hs)]
    exact { h with remainingPartialSize := rfl }

theorem respects_clear (n : Nat) : Respects (Alike n) (clear D) := by
  refine ⟨?_, ?_, trivial⟩
  · intro s t h
    exact { h with startAddress := rfl, endAddress := rfl }
  · intro s t h
    refine { h with flash := ?_ }
    show D.eraseAll s.flash = D.eraseAll t.flash
    rw [h.flash]

/-- **An operation** on one of two stores that are alike can be performed on the other one. -/
theorem Alike.performs {op : Operation} (h : Alike n s t) (hs : Performs D op s s') :
    ∃ t', Performs D op t t' ∧ Alike n s' t' := by
  cases op with
  | add range =>
      obtain ⟨pauses, hruns⟩ := hs
      obtain ⟨pauses', t', hruns', ht⟩ := relates_add n range _ _ _ _ (h.prepareAdd range) hruns
      exact ⟨t', ⟨pauses', hruns'⟩, ht⟩
  | addPartial range totalSize =>
      obtain ⟨pauses, hruns⟩ := hs
      obtain ⟨pauses', t', hruns', ht⟩ := relates_add n range _ _ _ _ (h.prepareAddPartial range totalSize) hruns
      exact ⟨t', ⟨pauses', hruns'⟩, ht⟩
  | clear =>
      obtain ⟨pauses, hruns⟩ := hs
      obtain ⟨pauses', t', hruns', ht⟩ := (respects_clear n).relates _ _ _ _ h hruns
      exact ⟨t', ⟨pauses', hruns'⟩, ht⟩

/-- **A session** with one of two stores that are alike is possible with the other one, and ends alike. -/
theorem Session.alike (hs : Session D n s events results s')
    (h : Alike n s t) : ∃ t', Session D n t events results t' ∧ t'.flash = s'.flash ∧
      t'.assertionFailed = s'.assertionFailed := by
  induction hs generalizing t with
  | nil n s => exact ⟨t, Session.nil n t, h.flash.symm, h.assertionFailed.symm⟩
  | perform hop _ ih =>
      obtain ⟨t₁, hop', h₁⟩ := h.performs hop
      obtain ⟨t', hsession, hend⟩ := ih h₁
      exact ⟨t', Session.perform hop' hsession, hend⟩
  | begin _ ih =>
      obtain ⟨t', hsession, hend⟩ := @ih { t with iterators := {} :: t.iterators }
        { h with iterators := congrArg (List.cons ({} : Iterator)) h.iterators }
      exact ⟨t', Session.begin hsession, hend⟩
  | @read n i s u it it' buffer result events results hi hit hread _ ih =>
      have hit' : t.iterators[i]? = some it := by
        rw [← List.getElem?_take_of_lt hi, ← h.iterators, List.getElem?_take_of_lt hi, hit]
      have hread' := hread.of_sameFlash h.flash fun _ => h.startAddress
      obtain ⟨t', hsession, hend⟩ := @ih { t with iterators := t.iterators.set i it' }
        { h with
          iterators := by
            show (s.iterators.set i it').take n = (t.iterators.set i it').take n
            rw [List.take_set, List.take_set, h.iterators] }
      exact ⟨t', Session.read hi hit' hread' hsession, hend⟩

theorem Alike.behaveAlike (h : Alike 0 s t) : BehaveAlike D s t := by
  intro events results flash assertionFailed
  constructor
  · rintro ⟨u, hsession, hflash, hfailed⟩
    obtain ⟨t', hsession', hflash', hfailed'⟩ := hsession.alike h
    exact ⟨t', hsession', hflash'.trans hflash, hfailed'.trans hfailed⟩
  · rintro ⟨u, hsession, hflash, hfailed⟩
    obtain ⟨t', hsession', hflash', hfailed'⟩ := hsession.alike h.symm
    exact ⟨t', hsession', hflash'.trans hflash, hfailed'.trans hfailed⟩

/-! ## No part of a record is left behind -/

/-- While no record is unfinished, nothing is counted. -/
def Settled (s : Store) : Prop :=
  s.partialAddStarted = false → s.remainingPartialSize = 0 ∧ s.partialSizeWritten = 0

theorem settled_writeReady (s : Store) : Settled (writeReady D s) := by
  unfold writeReady
  by_cases hlast : s.remainingPartialSize = 0
  · rw [if_pos hlast]
    exact fun _ => ⟨hlast, rfl⟩
  · rw [if_neg hlast]
    exact fun h => absurd h Bool.true_eq_false.mp

/-- An addition ends with its last step, which settles the store. -/
theorem settled_add (h : Runs (add D range) s pauses t) : Settled t := by
  have hlast : add D range = (add D range).dropLast ++ [.step (writeReady D)] := rfl
  rw [hlast] at h
  obtain ⟨first, u, rest, -, hready, -⟩ := runs_append.mp h
  obtain ⟨rest, hnil, -⟩ := runs_step.mp hready
  obtain ⟨-, rfl⟩ := runs_nil.mp hnil
  exact settled_writeReady u

theorem Clears.eq (h : Clears D s pauses t) :
    t = { s with startAddress := 0, endAddress := 0, flash := D.eraseAll s.flash } :=
  (Runs.unique h (.execute (.step (.nil _)))).2

theorem Performs.settled {op : Operation} (h : Performs D op s t) (hs : Settled s) : Settled t := by
  cases op with
  | add range =>
      obtain ⟨pauses, h⟩ := h
      exact settled_add h
  | addPartial range totalSize =>
      obtain ⟨pauses, h⟩ := h
      exact settled_add h
  | clear =>
      obtain ⟨pauses, h⟩ := h
      rw [h.eq]
      exact hs

theorem Session.settled (h : Session D n s events results t) (hs : Settled s) : Settled t := by
  induction h with
  | nil n s => exact hs
  | perform hop _ ih => exact ih (hop.settled hs)
  | begin _ ih => exact ih hs
  | read _ _ _ _ ih => exact ih hs

/-- Recovering does not count anything. -/
theorem Constructs.settled {m : Memory} (h : Constructs D m pauses s) : Settled s := by
  have hclassify : ∀ s, Settled s → Settled (classifySector D s) := by
    intro s hs
    obtain ⟨phase, startAddress, endAddress, heq⟩ := classifySector_eq (D := D) s
    rw [heq]
    exact hs
  have hblock : Keeps Settled (recoverBlock D) := by
    refine ifBlock keeps_nil ?ready (ifBlock keeps_nil ?length (ifBlock keeps_nil ?data
      (ifBlock keeps_nil ?skip ?skip)))
    case length => exact step keeps_nil fun _ h => h
    case skip => exact execute keeps_nil fun _ h => h
    all_goals exact execute (ifBlock keeps_nil (step keeps_nil fun _ h => h)
      (execute keeps_nil fun _ h => h)) fun _ h => h
  have hend : Keeps Settled (recoverEndAddress D) := step (keeps_nil.whileLoop hblock) fun _ h => h
  have hsector : Keeps Settled (recoverSector D) := step (keeps_nil.execute hclassify) fun _ h => h
  have hrest : Keeps Settled (recover D).tail :=
    ifBlock (execute keeps_nil fun _ h => h) (step keeps_nil fun _ h => h)
      (ifBlock keeps_nil hend keeps_nil)
  have hrecover : Keeps Settled (recover D) := forEach hrest hsector fun _ _ h => h
  exact hrecover.run (fun _ => ⟨rfl, rfl⟩) h

/-! ## The first addition afterwards

It tells a store with an unfinished record from one without.
-/

/-- A byte is programmed, or stays as it is. -/
theorem program_one (m : Memory) (a : Nat) (x : UInt8) (b : Nat) :
    program m a [x] b = m b ∨ program m a [x] b = m b &&& x := by
  unfold program
  by_cases hb : a ≤ b ∧ b < a + [x].length
  · have hzero : b - a = 0 := by
      have := hb.2
      rw [List.length_singleton] at this
      omega
    rw [if_pos hb, hzero]
    exact Or.inr rfl
  · rw [if_neg hb]
    exact Or.inl rfl

theorem writeReady_assertionFailed (s : Store) : (writeReady D s).assertionFailed = s.assertionFailed := by
  unfold writeReady
  by_cases hlast : s.remainingPartialSize = 0
  · rw [if_pos hlast]
    rfl
  · rw [if_neg hlast]

/-- The last step may write over the place of the header. -/
theorem writeReady_flash (s : Store) : (writeReady D s).flash = s.flash ∨
    (writeReady D s).flash = program s.flash s.endAddress [BlockStatus.dataReady] := by
  unfold writeReady
  by_cases hlast : s.remainingPartialSize = 0
  · rw [if_pos hlast]
    exact Or.inr rfl
  · rw [if_neg hlast]
    exact Or.inl rfl

theorem ended_add (range : List UInt8) : Ended (add D range) := by
  have hfill : Ended (fillSectorIfDataDoesNotFit D range) := ended_nil.step.ifBlock ended_nil ended_nil
  have herase : Ended (eraseSectorIfAtStart D) :=
    Ended.ifBlock (Ended.step (Ended.step (ended_nil.step.ifBlock ended_nil ended_nil))) ended_nil ended_nil
  have hstatus : Ended (writeSectorStatusIfAtStartOfSector D) :=
    Ended.ifBlock (Ended.step (ended_nil.step.ifBlock ended_nil ended_nil.step)) ended_nil ended_nil
  have hrange : Ended (writeRange D range) :=
    Ended.ifBlock ended_nil.step.step.step ended_nil ended_nil.step.step
  exact Ended.ifBlock (hfill.append (herase.append hstatus)) ended_nil hrange

/-- The status of the first sector is written before the first record. -/
theorem Idle.add_marks (h : Idle D .empty s) (hsize : 5 ≤ D.sizeOfEachSector) (hadd : Performs D (.add [0]) s t) :
    t.flash 0 = SectorStatus.firstInCycle := by
  obtain ⟨pauses, u, hu, -, hidle, -⟩ := h.add (List.cons_ne_nil 0 []) hsize
  obtain rfl := hadd.unique ⟨pauses, hu⟩
  have hring : Ring.empty.add D [0] = .sectors 0 [] [[0]] := rfl
  obtain ⟨F, hF⟩ : Represents D (.sectors 0 [] [[0]]) t.flash := hring ▸ hidle.flash
  have hfirst : F 0 = (ringLayout 0 [] [[0]]).sector 0 := by
    rw [← hF.sector 0 D.sectors_pos]
    exact congrArg F (sectorAt_first_zero D.sectors_pos).symm
  have hread := readStatus_eq hF.holds D.sectors_pos
  have hbyte : D.readStatus t.flash (0 * D.sizeOfEachSector) = t.flash 0 := by
    have hfetch := fetch_eq (m := t.flash) (o := 0) (i := 0) D.sectors_pos (by omega)
    rw [Nat.zero_mul] at hfetch ⊢
    exact hfetch
  rw [← hbyte, hread, hfirst]
  rfl

theorem prepareAdd_first (hstarted : s.partialAddStarted = false) (range : List UInt8) :
    (!(prepareAdd range s).partialAddStarted) = true := by
  rw [show (prepareAdd range s).partialAddStarted = s.partialAddStarted from rfl, hstarted]
  rfl

/-- A record that does not fit in any sector fails the assertion. -/
theorem add_asserts (hstarted : s.partialAddStarted = false)
    (hsize : D.sizeOfEachSector < range.length + 4) (hadd : Adds D range s pauses t) : t.assertionFailed = true := by
  have hruns := runs_ifBlock.mp hadd
  rw [if_pos (prepareAdd_first hstarted range)] at hruns
  obtain ⟨first, u, rest, hfirst, hrest, -⟩ := runs_append.mp hruns
  have hfront : Keeps (fun s => s.partialAddStarted = false) (fillSectorIfDataDoesNotFit D range ++
      (eraseSectorIfAtStart D ++ writeSectorStatusIfAtStartOfSector D)) := by
    refine append (ifBlock keeps_nil (step keeps_nil fun _ h => h) keeps_nil)
      (append (ifBlock keeps_nil ?erase keeps_nil) (ifBlock keeps_nil ?status keeps_nil))
    case erase =>
      exact step (step (ifBlock keeps_nil (step keeps_nil fun _ h => h) keeps_nil)
        fun _ h => h) fun _ h => h
    case status =>
      exact step (ifBlock (step keeps_nil fun _ h => h) (step keeps_nil fun _ h => h)
        keeps_nil) fun _ h => h
  have hu : u.partialAddStarted = false := hfront.run (s := prepareAdd range s) hstarted hfirst
  have hrest := runs_ifBlock.mp hrest
  rw [if_pos (show (!u.partialAddStarted) = true from by rw [hu]; rfl)] at hrest
  obtain ⟨rest, hrest, -⟩ := runs_step.mp hrest
  have hrestKeeps : Keeps (fun s : Store => s.assertionFailed = true) (writeRange D range).tail :=
    step (step keeps_nil fun s h => (writeReady_assertionFailed s).trans h) fun _ h => h
  refine run (I := fun s : Store => s.assertionFailed = true) ?_ ?_ hrest
  · exact step (step hrestKeeps fun _ h => h) fun _ h => h
  -- the assertion in front of the header
  show (u.assertionFailed || !decide (sizeofBlockHeader + range.length + u.remainingPartialSize + 1 ≤
    D.sizeOfEachSector)) = true
  rw [decide_eq_false (by unfold sizeofBlockHeader; omega)]
  exact Bool.or_true _

/-- What follows the part of a record leaves the status of the first sector out. -/
theorem part_leaves (hstarted : s.partialAddStarted = true) (hblank : s.flash 0 = blank) (hend : s.endAddress = 0)
    (hadd : Performs D (.add [0]) s t) :
    t.flash 0 ≠ SectorStatus.firstInCycle ∧ t.assertionFailed = s.assertionFailed := by
  obtain ⟨pauses, hruns⟩ := hadd
  have hskip : ¬ (!(prepareAdd [0] s).partialAddStarted) = true := by
    rw [show (prepareAdd [0] s).partialAddStarted = s.partialAddStarted from rfl, hstarted]
    exact Bool.false_ne_true
  have hruns := runs_ifBlock.mp hruns
  rw [if_neg hskip] at hruns
  have hruns := runs_ifBlock.mp hruns
  rw [if_neg hskip] at hruns
  obtain ⟨_, hruns, -⟩ := runs_step.mp hruns
  obtain ⟨_, hruns, -⟩ := runs_step.mp hruns
  obtain ⟨-, rfl⟩ := runs_nil.mp hruns
  obtain ⟨u, hu⟩ : ∃ u, u = { prepareAdd [0] s with
      partialSizeWritten := add32 s.partialSizeWritten 1
    }.writeBuffer [0] (add32 (add32 s.endAddress s.partialSizeWritten) 3) := ⟨_, rfl⟩
  have hdata : u.flash 0 = blank ∨ u.flash 0 = 0 := by
    have hbyte := program_one s.flash (add32 (add32 s.endAddress s.partialSizeWritten) 3) 0 0
    rw [hblank, UInt8.and_zero] at hbyte
    rw [hu]
    exact hbyte
  have huend : u.endAddress = 0 := hu ▸ hend
  have hufailed : u.assertionFailed = s.assertionFailed := by
    rw [hu]
    exact Bool.or_false _
  suffices h : (writeReady D u).flash 0 ≠ SectorStatus.firstInCycle ∧
      (writeReady D u).assertionFailed = s.assertionFailed by
    rw [hu] at h
    exact h
  refine ⟨?_, (writeReady_assertionFailed u).trans hufailed⟩
  rcases writeReady_flash (D := D) u with hsame | hready
  · rw [hsame]
    rcases hdata with h | h
    all_goals rw [h]; decide
  · have hbyte := program_one u.flash 0 BlockStatus.dataReady 0
    rw [hready, huend]
    rcases hdata with h | h
    all_goals
      rw [h] at hbyte
      rcases hbyte with h' | h'
      all_goals rw [h']; decide

/-! ## A cleared store and a new one -/

theorem eraseAll_blank (m : Memory) {a : Nat} (ha : a < D.totalSize) : D.eraseAll m a = blank := by
  have hinside : 0 ≤ a ∧ a < 0 + D.totalSize := ⟨Nat.zero_le a, by rwa [Nat.zero_add]⟩
  exact if_pos hinside

theorem totalSize_pos : 0 < D.totalSize := by
  rw [FlashHomogeneous.totalSize_eq]
  exact Nat.mul_pos D.sectors_pos D.size_pos

/-- The store that is constructed on an erased flash has no unfinished record and starts at its begin. -/
theorem Recovers.alike {m : Memory} (h : Recovers D m 0 0 pauses t) (hflash : s.flash = m)
    (hstart : s.startAddress = 0) (hend : s.endAddress = 0) (hok : s.assertionFailed = false)
    (hstarted : s.partialAddStarted = false) (hs : Settled s) : Alike 0 s t := by
  have hf := h.fresh
  obtain ⟨hremaining, hwritten⟩ := hs hstarted
  exact ⟨hflash.trans hf.flash.symm, hstart.trans h.startAddress.symm, hend.trans h.endAddress.symm,
    hremaining.trans hf.remainingPartialSize.symm, hwritten.trans hf.partialSizeWritten.symm,
    hstarted.trans hf.partialAddStarted.symm, hok.trans hf.assertionFailed.symm, rfl⟩

/-- An unfinished record is found out by the first addition. -/
theorem not_behaveAlike (hidle : Idle D .empty t) (hstarted : s.partialAddStarted = true) (hblank : s.flash 0 = blank)
    (hend : s.endAddress = 0) (hok : s.assertionFailed = false) : ¬ BehaveAlike D s t := by
  intro halike
  obtain ⟨pauses, u, hu⟩ := ended_add (D := D) [0] (prepareAdd [0] t)
  have hadd : Performs D (.add [0]) t u := ⟨pauses, hu⟩
  obtain ⟨v, hv, hflash, hfailed⟩ := (halike [.perform (.add [0])] [] u.flash u.assertionFailed).mpr
    ⟨u, Session.perform hadd (Session.nil 0 u), rfl, rfl⟩
  cases hv with
  | perform hop hrest =>
      cases hrest
      obtain ⟨hbyte, hkept⟩ := part_leaves hstarted hblank hend hop
      by_cases hsize : 5 ≤ D.sizeOfEachSector
      · rw [hflash] at hbyte
        exact hbyte (hidle.add_marks hsize hadd)
      · have hsmall : D.sizeOfEachSector < [(0 : UInt8)].length + 4 := Nat.lt_of_not_le hsize
        have hasserts := add_asserts hidle.partialAddStarted hsmall hu
        rw [← hfailed, hkept, hok] at hasserts
        exact Bool.false_ne_true hasserts

/-- **Clear.** Whatever the caller has done with a store, after `Clear` it cannot tell the store from one that is
constructed on the flash, which is erased then; provided that no record was unfinished. -/
theorem clear_restores_iff {m : Memory} {pauses : List Store} {s₀ : Store} {events : List Event}
    {results : List (List UInt8)} (hcons : Constructs D m pauses s₀) (hs : Session D 0 s₀ events results s)
    (hok : s.assertionFailed = false) :
    ∃ cleared t constructed t', Clears D s cleared t ∧ (∀ a < D.totalSize, t.flash a = blank) ∧
      Constructs D t.flash constructed t' ∧ (BehaveAlike D t t' ↔ s.partialAddStarted = false) := by
  obtain ⟨cleared, t, hclears⟩ : ∃ cleared t, Clears D s cleared t := ⟨_, _, .execute (.step (.nil _))⟩
  have ht := hclears.eq
  have hblank : ∀ a < D.totalSize, t.flash a = blank := by
    intro a ha
    rw [ht]
    exact eraseAll_blank s.flash ha
  have hstarted : t.partialAddStarted = s.partialAddStarted := ht ▸ rfl
  have hstart : t.startAddress = 0 := ht ▸ rfl
  have hend : t.endAddress = 0 := ht ▸ rfl
  have hkept : t.assertionFailed = false := ht ▸ hok
  have hsettled : Settled t := by
    rw [ht]
    exact hs.settled hcons.settled
  obtain ⟨constructed, t', hrecovers⟩ := recovers_erased (D := D) (holds_erased hblank)
  refine ⟨cleared, t, constructed, t', hclears, hblank, hrecovers.constructs, ?_⟩
  rw [← hstarted]
  constructor
  · intro halike
    by_contra hc
    obtain ⟨pauses', u, hu, hidle⟩ := constructs_erased hblank
    obtain rfl := (Runs.unique hrecovers.constructs hu).2
    exact not_behaveAlike hidle (Bool.eq_true_of_not_eq_false hc) (hblank 0 totalSize_pos) hend hkept halike
  · intro hnone
    exact (hrecovers.alike rfl hstart hend hkept hnone hsettled).behaveAlike

/-- The record that a store has when it is cleared is complete: it can be told from a new one by nothing. -/
theorem clear_restores_after_record : ∃ s t t', (∃ s₀ pauses, Constructs tinyDevice (fun _ => blank) pauses s₀ ∧
      Session tinyDevice 0 s₀ [.perform (.add [1])] [] s) ∧ s.partialAddStarted = false ∧
    (∃ cleared, Clears tinyDevice s cleared t) ∧ BehaveAlike tinyDevice t t' := by
  obtain ⟨s₀, pauses, s, hcons, hs, hok, hstarted⟩ : ∃ s₀ pauses s, Constructs tinyDevice (fun _ => blank) pauses s₀ ∧
      Session tinyDevice 0 s₀ [.perform (.add [1])] [] s ∧ s.assertionFailed = false ∧ s.partialAddStarted = false :=
    ⟨_, _, _, Runs.of_interpret (n := 20) rfl,
      Session.perform ⟨_, Runs.of_interpret (n := 40) rfl⟩ (Session.nil 0 _), rfl, rfl⟩
  obtain ⟨cleared, t, constructed, t', hclears, -, -, hiff⟩ := clear_restores_iff hcons hs hok
  exact ⟨s, t, t', ⟨s₀, pauses, hcons, hs⟩, hstarted, ⟨cleared, hclears⟩, hiff.mpr hstarted⟩

/-- A record of two bytes is unfinished when the store is cleared. What is added next is taken for the rest of it, and
is not returned; a new store returns it. -/
theorem clear_keeps_unfinished_record : ∃ s t t', (∃ s₀ pauses, Constructs tinyDevice (fun _ => blank) pauses s₀ ∧
      Session tinyDevice 0 s₀ [.perform (.addPartial [1] 2)] [] s) ∧ s.assertionFailed = false ∧
    (∃ cleared, Clears tinyDevice s cleared t) ∧ (∀ a < tinyDevice.totalSize, t.flash a = blank) ∧
    (∃ constructed, Constructs tinyDevice t.flash constructed t') ∧
    (∃ u, Session tinyDevice 0 t [.perform (.add [7]), .begin, .read 0 [0]] [[]] u) ∧
    (∃ u, Session tinyDevice 0 t' [.perform (.add [7]), .begin, .read 0 [0]] [[7]] u) ∧
    ¬ BehaveAlike tinyDevice t t' := by
  obtain ⟨s₀, pauses, s, cleared, t, constructed, t', hcons, hs, hok, hclears, hconstructs, ⟨u, hu⟩, u', hu'⟩ :
      ∃ s₀ pauses s cleared t constructed t', Constructs tinyDevice (fun _ => blank) pauses s₀ ∧
        Session tinyDevice 0 s₀ [.perform (.addPartial [1] 2)] [] s ∧ s.assertionFailed = false ∧
        Clears tinyDevice s cleared t ∧ Constructs tinyDevice t.flash constructed t' ∧
        (∃ u, Session tinyDevice 0 t [.perform (.add [7]), .begin, .read 0 [0]] [[]] u) ∧
        ∃ u, Session tinyDevice 0 t' [.perform (.add [7]), .begin, .read 0 [0]] [[7]] u := by
    refine ⟨_, _, _, _, _, _, _, Runs.of_interpret (n := 20) rfl,
      Session.perform ⟨_, Runs.of_interpret (n := 40) rfl⟩ (Session.nil 0 _), rfl, Runs.of_interpret (n := 10) rfl,
      Runs.of_interpret (n := 20) rfl, ?_, ?_⟩
    all_goals exact ⟨_, Session.perform ⟨_, Runs.of_interpret (n := 40) rfl⟩ (Session.begin (Session.read
      Nat.zero_lt_one rfl ⟨_, Runs.of_interpret (n := 40) rfl, rfl⟩ (Session.nil 1 _)))⟩
  refine ⟨s, t, t', ⟨s₀, pauses, hcons, hs⟩, hok, ⟨cleared, hclears⟩, ?_, ⟨constructed, hconstructs⟩, ⟨u, hu⟩,
    ⟨u', hu'⟩, ?_⟩
  · intro a ha
    rw [hclears.eq]
    exact eraseAll_blank s.flash ha
  · intro halike
    obtain ⟨v, hv, -⟩ := (halike _ _ _ _).mp ⟨u, hu, rfl, rfl⟩
    exact absurd (hu'.unique hv).1 (by decide)

end EmbeddedInfra.CyclicStore
