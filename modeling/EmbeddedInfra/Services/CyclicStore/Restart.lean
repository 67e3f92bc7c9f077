import EmbeddedInfra.Services.CyclicStore.Contents

set_option autoImplicit false

/-! # Restarting the store

A store is destroyed between two operations, and a new one is constructed on the same flash. It
reads the same records (for records of any size), and as long as it finds the end of the ring where
it was, it goes on like the old one.
-/

namespace EmbeddedInfra.CyclicStore

open NorMemory Sequencer

variable {D : Device} {s t : Store} {it it' : Iterator} {buffer : List UInt8}
  {rs : List (List UInt8)}

/-! ## What reading depends on -/

/-- The same iterator reads from two stores. -/
def ReadsAlike (s t : Store) (r r' : Reader) : Prop :=
  r.store = s ∧ r'.store = t ∧ r.iterator = r'.iterator

section

variable (hflash : s.flash = t.flash)
include hflash

theorem respects_onIterator {f : Store → Iterator → Iterator}
    (hf : ∀ s t it, s.flash = t.flash → f s it = f t it) (r r' : Reader)
    (h : ReadsAlike s t r r') : ReadsAlike s t (onIterator f r) (onIterator f r') := by
  obtain ⟨rfl, rfl, hit⟩ := h
  refine ⟨rfl, rfl, ?_⟩
  show f r.store r.iterator = f r'.store r'.iterator
  rw [hit, hf _ _ _ hflash]

omit hflash in
theorem agrees_asks (p : Iterator → Bool) : Agrees (ReadsAlike s t) (asks p) := by
  intro r r' h
  exact ⟨congrArg p h.2.2, h⟩

theorem respects_pure (f : Iterator → Iterator) (r r' : Reader) (h : ReadsAlike s t r r') :
    ReadsAlike s t (onIterator (fun _ => f) r) (onIterator (fun _ => f) r') :=
  respects_onIterator hflash (fun _ _ _ _ => rfl) r r' h

theorem respects_readSectorStatus : Respects (ReadsAlike s t) (readSectorStatusIfAtStart D) := by
  refine ⟨⟨agrees_asks _, ⟨?_, respects_pure hflash _, trivial⟩, trivial⟩, trivial⟩
  exact respects_onIterator hflash (fun s s' it h => by rw [h])

theorem respects_readBlock : Respects (ReadsAlike s t) (readBlock D) := by
  have hpure := respects_pure hflash
  refine Respects.append ⟨?_, ⟨agrees_asks _, ⟨⟨agrees_asks _, ⟨?_, trivial⟩, hpure _, trivial⟩,
    trivial⟩, agrees_asks _, ⟨hpure _, trivial⟩, agrees_asks _, ⟨hpure _, trivial⟩, agrees_asks _,
    trivial, agrees_asks _, ⟨hpure _, trivial⟩, hpure _, trivial⟩, trivial⟩
    (respects_readSectorStatus hflash)
  · exact respects_onIterator hflash (fun s s' it h => by simp only [takeHeader, h])
  · exact respects_onIterator hflash (fun s s' it h => by simp only [takeRecord, h])

theorem respects_read : Respects (ReadsAlike s t) (read D) :=
  (respects_readSectorStatus hflash).append
    ⟨⟨agrees_asks _, respects_readBlock hflash⟩, respects_pure hflash _, trivial⟩

end

/-- Reading depends on the flash, and for a new iterator on the start of the ring. -/
theorem Reads.of_sameFlash {result : List UInt8} (h : Reads D s buffer it result it')
    (hflash : s.flash = t.flash)
    (hstart : it.loadStartAddressDelayed = true → s.startAddress = t.startAddress) :
    Reads D t buffer it result it' := by
  obtain ⟨pauses, hruns, hres⟩ := h
  have hprep : prepareRead s buffer it = prepareRead t buffer it := by
    unfold prepareRead
    by_cases hl : it.loadStartAddressDelayed = true
    · rw [hstart hl]
    · simp [hl]
  obtain ⟨pauses', r, hruns', hstore, hstore', hit⟩ := Runs.related (respects_read hflash)
    (show ReadsAlike s t _ ⟨t, prepareRead t buffer it⟩ from ⟨rfl, rfl, hprep⟩) hruns
  obtain ⟨store, iterator⟩ := r
  obtain rfl : store = t := hstore'
  obtain rfl : it' = iterator := hit
  exact ⟨pauses', hruns', hres⟩

theorem Iterates.of_sameFlash {ds : List (List UInt8)} (h : Iterates D s buffer it ds)
    (hflash : s.flash = t.flash) (hstart : s.startAddress = t.startAddress) :
    Iterates D t buffer it ds := by
  induction h with
  | stop hread => exact .stop (hread.of_sameFlash hflash (fun _ => hstart))
  | more hread hd _ ih => exact .more (hread.of_sameFlash hflash (fun _ => hstart)) hd ih

/-! ## Recovering a ring -/

theorem scannable_append {e : Nat} {done rest : List Block}
    (h : ∀ d ∈ rs, d ≠ [] ∧ d.length < 65536)
    (hrest : Scannable D e (done ++ rs.map .ready) rest) :
    Scannable D e done (rs.map .ready ++ rest) := by
  induction rs generalizing done with
  | nil => simpa using hrest
  | cons d rs ih =>
      obtain ⟨h1, h2⟩ := h d List.mem_cons_self
      refine ⟨h1, h2, ih (fun x hx => h x (List.mem_cons_of_mem _ hx)) ?_⟩
      simpa using hrest

theorem scannable_ready {e : Nat} {done : List Block}
    (h : ∀ d ∈ rs, d ≠ [] ∧ d.length < 65536) : Scannable D e done (rs.map .ready) := by
  have hs : Scannable D e done (rs.map .ready ++ []) := scannable_append h trivial
  rwa [List.append_nil] at hs

theorem length_le_recordsSize {d : List UInt8} (h : d ∈ rs) : 3 + d.length ≤ recordsSize rs := by
  induction rs with
  | nil => exact absurd h (by simp)
  | cons x rs ih =>
      simp only [recordsSize, List.map_cons, size_cons, Block.body]
      rcases List.mem_cons.mp h with rfl | hmem
      · omega
      · have := ih hmem
        simp only [recordsSize] at this
        omega

/-- The sizes of the records in the newest sector fit in the length field of a block header. -/
def Ring.SmallNewest : Ring → Prop
  | empty => True
  | sectors _ _ newest => ∀ d ∈ newest, d.length < 65536

/-- The end of the ring is found where it is: there are free sectors, or the newest sector is
full. -/
def Ring.EndFound (D : Device) : Ring → Prop
  | empty => True
  | sectors _ older newest => older.length + 1 < D.numberOfSectors ∨
      1 + recordsSize newest = D.sizeOfEachSector

variable {r : Ring}

/-- The new store begins where the old one did. -/
theorem Idle.recovers (h : Idle D r s) (hS : r ≠ .empty → 5 ≤ D.sizeOfEachSector)
    (hrec : ∀ d ∈ r.records, d ≠ []) :
    ∃ b, (r.SmallNewest → r.EndFound D → b = r.endAddress D) ∧
      ∃ pauses t, Recovers D s.flash (r.first * D.sizeOfEachSector) b pauses t := by
  cases r with
  | empty =>
      obtain ⟨pauses, t, ht⟩ := recovers_erased (D := D) (m := s.flash) h.flash
      refine ⟨0, fun _ _ => rfl, pauses, t, ?_⟩
      rw [show Ring.first .empty = 0 from rfl, Nat.zero_mul]
      exact ht
  | sectors first older newest =>
      have hS' := hS (by simp)
      obtain ⟨F, hF⟩ := h.flash
      have hcur : (ringLayout first older newest).current D = D.sectorAt first older.length := by
        simp [Layout.current, ringLayout, layoutWith]
      have holder : (ringLayout first older newest).older.length = older.length := by
        simp [ringLayout, layoutWith]
      have hnew : ∀ d ∈ newest, d ≠ [] := by
        intro d hd
        refine hrec d ?_
        simp only [Ring.records, List.mem_flatten, List.mem_append]
        exact ⟨newest, .inr (by simp), hd⟩
      obtain ⟨hfirst, hlt, hring⟩ := h.wellFormed
      by_cases hall : older.length + 1 = D.numberOfSectors
      · obtain ⟨pauses, t, ht⟩ := hF.recovers_all rfl (by rw [holder]; exact hall)
        refine ⟨first * D.sizeOfEachSector, fun _ hfound => ?_, pauses, t, ht⟩
        rcases hfound with hc | hfull
        · omega
        · rw [Ring.endAddress, hfull, endOf_size, nextSector_sectorAt, hall, sectorAt_all hfirst]
      · have h0 : first = 0 := hring.resolve_right hall
        have hleft : older.length + 1 < D.numberOfSectors := by omega
        by_cases hsmall : ∀ d ∈ newest, d.length < 65536
        · have hscan : Scannable D ((ringLayout first older newest).current D) []
              (ringLayout first older newest).newest :=
            scannable_ready (fun d hd => ⟨hnew d hd, hsmall d hd⟩)
          obtain ⟨b, hb, hrest⟩ := hF.recovers_prefix rfl (by omega) h0 (by rw [holder]; exact hleft)
            (hF.follows_blocks hscan (by omega))
          refine ⟨b, fun _ _ => ?_, hrest⟩
          rw [hb, hcur]
          rfl
        · -- only a large sector has room for a record that is not small
          have hlarge : 65540 ≤ D.sizeOfEachSector := by
            obtain ⟨d, hc⟩ := not_forall.mp hsmall
            obtain ⟨hd, hlen⟩ := Classical.not_imp.mp hc
            have hfits : 1 + recordsSize newest ≤ D.sizeOfEachSector := hF.newest_fits
            have := length_le_recordsSize hd
            omega
          obtain ⟨b, -, hrest⟩ := hF.recovers_prefix rfl (by omega) h0 (by rw [holder]; exact hleft)
            (hF.follows_any h0 (by rw [holder]; exact hleft) hlarge)
          exact ⟨b, fun hsmall' => absurd hsmall' hsmall, hrest⟩

/-! ## Restart preserves the records -/

/-- An operation on whole records. -/
def Operation.Whole : Operation → Prop
  | add _ => True
  | addPartial _ _ => False
  | clear => True

theorem pending_of_whole {ops : List Operation} {l l' : Log} (hwhole : ∀ op ∈ ops, op.Whole)
    (hp : l.pending = none) (hops : l.performAll D ops = some l') : l'.pending = none := by
  induction ops generalizing l with
  | nil =>
      cases hops
      exact hp
  | cons op ops ih =>
      obtain ⟨l₁, hop, hrest⟩ := Option.bind_eq_some_iff.mp hops
      refine ih (fun x hx => hwhole x (List.mem_cons_of_mem _ hx)) ?_ hrest
      cases op with
      | add range =>
          simp only [Log.perform, hp, Option.ite_none_right_eq_some, Option.some.injEq] at hop
          rw [← hop.2]
          exact hp
      | addPartial range totalSize => exact (hwhole _ List.mem_cons_self).elim
      | clear =>
          simp only [Log.perform, Option.ite_none_right_eq_some, Option.some.injEq] at hop
          rw [← hop.2]

/-- After a restart the flash is as it was, and a full iteration returns what it returned before: all
records of the ring, if none is too large for its length field. -/
theorem restart_preserves_records {ops : List Operation} {l : Log}
    (hops : Log.performAll D ops {} = some l) (hwhole : ∀ op ∈ ops, op.Whole) :
    (∃ s, History D ops s) ∧ ∀ s, History D ops s → ∃ pauses t, Constructs D s.flash pauses t ∧
      (∀ p ∈ pauses, p.flash = s.flash) ∧ t.flash = s.flash ∧
      (∀ buffer ds, Iterates D t buffer {} ds ↔ Iterates D s buffer {} ds) ∧
      ((∀ d ∈ l.added, d.length ≤ 65535) → ∀ buffer,
        (∀ d ∈ l.ring.records, d.length ≤ buffer.length) →
          ∀ ds, Iterates D t buffer {} ds ↔ ds = l.ring.records) := by
  have hcons := Log.consistent_empty.performAll hops
  have hpending := pending_of_whole hwhole rfl hops
  obtain ⟨hex, hall⟩ := history_stores hops
  refine ⟨hex, fun s hs => ?_⟩
  have hstores := hall s hs
  have hidle : Idle D l.ring s := by
    rwa [Stores, hpending] at hstores
  have hrec : ∀ d ∈ l.ring.records, d ≠ [] := by
    intro d hd
    refine hcons.records d ?_
    rw [hcons.added]
    exact List.mem_append_right _ hd
  obtain ⟨b, -, pauses, t, ht⟩ := hidle.recovers hcons.large hrec
  have hflash : t.flash = s.flash := ht.fresh.flash
  have hstart : t.startAddress = s.startAddress := ht.startAddress.trans hidle.startAddress.symm
  have hsame (buffer : List UInt8) (ds : List (List UInt8)) :
      Iterates D t buffer {} ds ↔ Iterates D s buffer {} ds :=
    ⟨fun h => h.of_sameFlash hflash hstart, fun h => h.of_sameFlash hflash.symm hstart.symm⟩
  refine ⟨pauses, t, ht.constructs, ht.pauses_flash, hflash, hsame, fun hsizes buffer hbuf ds => ?_⟩
  rw [hsame, hstores.iterates_iff hpending hsizes hcons hbuf]

/-- Two records fill a flash of two sectors, a third one replaces the first sector. -/
theorem restart_preserves_wrapped_ring : ∃ s, History tinyDevice
      [.add [5], .clear, .add [1, 2, 3, 4, 5, 6], .add [7], .add [8, 9, 10]] s ∧
    ∃ pauses t, Constructs tinyDevice s.flash pauses t ∧
      (∀ buffer ds, Iterates tinyDevice t buffer {} ds ↔ Iterates tinyDevice s buffer {} ds) ∧
      ∀ ds, Iterates tinyDevice t [0, 0, 0] {} ds ↔ ds = [[7], [8, 9, 10]] := by
  obtain ⟨⟨s, hs⟩, hall⟩ := restart_preserves_records (show Log.performAll tinyDevice
      [.add [5], .clear, .add [1, 2, 3, 4, 5, 6], .add [7], .add [8, 9, 10]] {}
    = some { ring := .sectors 1 [[[7]]] [[8, 9, 10]],
             added := [[1, 2, 3, 4, 5, 6], [7], [8, 9, 10]], lost := [[1, 2, 3, 4, 5, 6]] } from rfl)
    (by simp [Operation.Whole])
  obtain ⟨pauses, t, hcons, -, -, hsame, hit⟩ := hall s hs
  exact ⟨s, hs, pauses, t, hcons, hsame, hit (by decide) [0, 0, 0] (by decide)⟩

/-! ## Adding after a restart -/

/-- The ring after the given records have been added. -/
def Ring.addAll (D : Device) (r : Ring) (rs : List (List UInt8)) : Ring := rs.foldl (Ring.add D) r

/-- Records of the sizes that the store accepts. -/
def Acceptable (D : Device) (rs : List (List UInt8)) : Prop :=
  ∀ d ∈ rs, d ≠ [] ∧ d.length + 4 ≤ D.sizeOfEachSector

theorem performAll_add (h : Acceptable D rs) (l : Log) (hp : l.pending = none) :
    ∃ l', l.performAll D (rs.map .add) = some l' ∧ l'.ring = l.ring.addAll D rs ∧
      l'.pending = none ∧ l'.added = l.added ++ rs := by
  induction rs generalizing l with
  | nil => exact ⟨l, rfl, rfl, hp, by simp⟩
  | cons d rs ih =>
      have hd := h d List.mem_cons_self
      have hperf : l.perform D (.add d) = some (l.add D d) := by
        simp only [Log.perform, hp]
        exact if_pos hd
      obtain ⟨l', hrest, hring, hpend, hadded⟩ := ih
        (fun x hx => h x (List.mem_cons_of_mem _ hx)) (l.add D d) hp
      refine ⟨l', ?_, hring, hpend, ?_⟩
      · show (l.perform D (.add d)).bind (Log.performAll D (rs.map .add)) = some l'
        rw [hperf]
        exact hrest
      · rw [hadded]
        show l.added ++ [d] ++ rs = _
        simp

/-- The store after some records have been added to an erased flash. -/
theorem idle_of_added (hrs : Acceptable D rs) : ∃ l : Log,
    l.ring = Ring.addAll D .empty rs ∧ l.pending = none ∧ l.added = rs ∧ l.Consistent D ∧
      (∃ s, History D (rs.map .add) s) ∧ ∀ s, History D (rs.map .add) s → Idle D l.ring s := by
  obtain ⟨l, hops, hring, hpend, hadded⟩ := performAll_add hrs {} rfl
  obtain ⟨hex, hall⟩ := history_stores hops
  refine ⟨l, hring, hpend, hadded, Log.consistent_empty.performAll hops, hex, fun s hs => ?_⟩
  have hstores := hall s hs
  rwa [Stores, hpend] at hstores

/-- No addition gives up a sector in which one of these records has been placed. -/
def Ring.Keeps (D : Device) (r : Ring) (more : List (List UInt8)) : Prop :=
  ∀ before d after, more = before ++ d :: after →
    ((r.addAll D before).lost D d.length).length + before.length
      ≤ (r.addAll D before).records.length

theorem Ring.wellFormed_addAll (h : r.WellFormed D) (rs : List (List UInt8)) :
    (r.addAll D rs).WellFormed D := by
  induction rs generalizing r with
  | nil => exact h
  | cons d rs ih => exact ih (Ring.wellFormed_add h d)

/-- Records that no addition gives up are the last ones of the ring. -/
theorem Ring.records_addAll (h : r.WellFormed D) {more : List (List UInt8)}
    (hk : r.Keeps D more) : ∃ kept, (r.addAll D more).records = kept ++ more := by
  induction more using List.reverseRecOn with
  | nil => exact ⟨r.records, by simp [Ring.addAll]⟩
  | append_singleton more d ih =>
      obtain ⟨kept, hkept⟩ := ih (fun before x after heq => hk before x (after ++ [d]) (by simp [heq]))
      have hlen := hk more d [] rfl
      have hadd : r.addAll D (more ++ [d]) = (r.addAll D more).add D d := by
        simp [Ring.addAll]
      have hsplit := Ring.records_makeRoom (Ring.wellFormed_addAll h more) d.length
      rw [hadd, Ring.records_add]
      rw [hkept] at hsplit hlen
      rw [List.length_append] at hlen
      obtain ⟨rest, hrest⟩ : ∃ rest, kept = (r.addAll D more).lost D d.length ++ rest := by
        have hpre : (r.addAll D more).lost D d.length <+: kept ++ more :=
          ⟨_, hsplit.symm⟩
        obtain ⟨rest, hrest⟩ := List.prefix_of_prefix_length_le hpre (List.prefix_append kept more)
          (by omega)
        exact ⟨rest, hrest.symm⟩
      rw [hrest, List.append_assoc] at hsplit
      exact ⟨rest, by rw [← List.append_cancel_left hsplit]; simp⟩

/-- The store that is found after a restart. -/
theorem Idle.restart (h : Idle D r s) (hS : r ≠ .empty → 5 ≤ D.sizeOfEachSector)
    (hrec : ∀ d ∈ r.records, d ≠ [] ∧ d.length < 65536) (hfound : r.EndFound D) :
    ∃ pauses t, Constructs D s.flash pauses t ∧ Idle D r t := by
  have hsmall : r.SmallNewest := by
    cases r with
    | empty => trivial
    | sectors first older newest =>
        intro d hd
        refine (hrec d ?_).2
        simp only [Ring.records, List.mem_flatten, List.mem_append]
        exact ⟨newest, .inr (by simp), hd⟩
  obtain ⟨b, hb, pauses, t, ht⟩ := h.recovers hS (fun d hd => (hrec d hd).1)
  have hf := ht.fresh
  refine ⟨pauses, t, ht.constructs, ⟨h.wellFormed, ?_, ht.startAddress, ?_, hf.partialAddStarted,
    hf.partialSizeWritten⟩, hf.remainingPartialSize, hf.assertionFailed⟩
  · rw [hf.flash]
    exact h.flash
  · rw [ht.endAddress]
    exact hb hsmall hfound

/-- Records that are added after a restart are the last ones that a new iterator returns, if the
end of the ring was found, and as long as none of them is given up. -/
theorem records_added_after_restart {rs more : List (List UInt8)} (hrs : Acceptable D rs)
    (hmore : Acceptable D more) (hsizes : ∀ d ∈ rs ++ more, d.length ≤ 65535)
    (hfound : (Ring.addAll D .empty rs).EndFound D)
    (hkeeps : (Ring.addAll D .empty rs).Keeps D more) :
    (∃ s, History D (rs.map .add) s) ∧ ∀ s, History D (rs.map .add) s →
      ∃ pauses t u, Constructs D s.flash pauses t ∧ PerformsAll D (more.map .add) t u ∧
        ∃ kept, kept <:+ rs ∧ ∀ buffer, (∀ d ∈ kept ++ more, d.length ≤ buffer.length) →
          ∀ ds, Iterates D u buffer {} ds ↔ ds = kept ++ more := by
  obtain ⟨l, hlring, hpend, hladded, hcons, hex, hall⟩ := idle_of_added hrs
  refine ⟨hex, fun s hs => ?_⟩
  have hidle := hall s hs
  have hread : ∀ d ∈ l.ring.records, d ≠ [] ∧ d.length < 65536 :=
    hcons.readable_of_added hpend fun d hd => hsizes d (List.mem_append_left _ (hladded ▸ hd))
  obtain ⟨pauses, t, hconstructs, hidle'⟩ := hidle.restart hcons.large hread (hlring ▸ hfound)
  -- the new store goes on like the old one
  obtain ⟨l', hops', hring', hpend', hadded'⟩ := performAll_add hmore l hpend
  have hcons' := hcons.performAll hops'
  have hstores : Stores D l t := by
    rw [Stores, hpend]
    exact hidle'
  obtain ⟨⟨u, hu⟩, hall'⟩ := hstores.performAll hops'
  have hstores' := hall' u hu
  obtain ⟨kept, hkept⟩ := Ring.records_addAll hcons.wellFormed (hlring ▸ hkeeps)
  rw [← hring'] at hkept
  refine ⟨pauses, t, u, hconstructs, hu, kept, ?_, fun buffer hbuf ds => ?_⟩
  · have heq := hcons'.added
    rw [hadded', hladded, hkept, ← List.append_assoc] at heq
    exact ⟨_, (List.append_cancel_right heq).symm⟩
  · have hit : Iterates D u buffer {} ds ↔ ds = l'.ring.records :=
      hstores'.iterates_iff hpend' (fun d hd => hsizes d (by rwa [hadded', hladded] at hd)) hcons'
        (by rw [hkept]; exact hbuf)
    rwa [hkept] at hit

theorem keeps_two_records :
    (Ring.addAll tinyDevice .empty [[1, 2, 3, 4, 5, 6]]).Keeps tinyDevice [[7], [8]] := by
  intro before d after heq
  rcases before with _ | ⟨a, _ | ⟨b, before⟩⟩
  · obtain ⟨rfl, -⟩ := List.cons.inj heq
    decide
  · obtain ⟨rfl, hrest⟩ := List.cons.inj heq
    obtain ⟨rfl, -⟩ := List.cons.inj hrest
    decide
  · have := congrArg List.length heq
    simp at this

/-- The first sector is full at the restart; two records go to the second one. -/
theorem records_added_after_restart_tiny : ∃ s, History tinyDevice [.add [1, 2, 3, 4, 5, 6]] s ∧
    ∃ pauses t u, Constructs tinyDevice s.flash pauses t ∧
      PerformsAll tinyDevice [.add [7], .add [8]] t u ∧
      ∃ kept, kept <:+ [[1, 2, 3, 4, 5, 6]] ∧
        ∀ buffer, (∀ d ∈ kept ++ [[7], [8]], d.length ≤ buffer.length) →
          ∀ ds, Iterates tinyDevice u buffer {} ds ↔ ds = kept ++ [[7], [8]] := by
  obtain ⟨⟨s, hs⟩, hall⟩ := records_added_after_restart
    (show Acceptable tinyDevice [[1, 2, 3, 4, 5, 6]] by unfold Acceptable; decide)
    (show Acceptable tinyDevice [[7], [8]] by unfold Acceptable; decide) (by decide)
    (.inl (by decide)) keeps_two_records
  exact ⟨s, hs, hall s hs⟩

/-- Both sectors are in use at the restart, and the second one is not full: the record that is
added then is not reached by an iteration. -/
theorem record_unreachable_after_restart : ∃ s pauses t u,
    History tinyDevice [.add [1, 2, 3, 4, 5, 6], .add [7]] s ∧
    Constructs tinyDevice s.flash pauses t ∧ PerformsAll tinyDevice [.add [8]] t u ∧
    Iterates tinyDevice u [0, 0, 0, 0, 0, 0] {} [[7]] ∧
    ¬ ∃ kept, Iterates tinyDevice u [0, 0, 0, 0, 0, 0] {} (kept ++ [[8]]) := by
  obtain ⟨s, pauses, t, u, hs, ht, hu, hit⟩ : ∃ s pauses t u,
      History tinyDevice [.add [1, 2, 3, 4, 5, 6], .add [7]] s ∧
      Constructs tinyDevice s.flash pauses t ∧ PerformsAll tinyDevice [.add [8]] t u ∧
      Iterates tinyDevice u [0, 0, 0, 0, 0, 0] {} [[7]] := by
    refine ⟨_, _, _, _, ⟨fun _ => blank, _, _, fun _ _ => rfl, Runs.of_interpret (n := 20) rfl,
      .cons ⟨_, Runs.of_interpret (n := 40) rfl⟩ (.cons ⟨_, Runs.of_interpret (n := 40) rfl⟩
        (.nil _))⟩, Runs.of_interpret (n := 20) rfl,
      .cons ⟨_, Runs.of_interpret (n := 40) rfl⟩ (.nil _), ?_⟩
    exact .more ⟨_, Runs.of_interpret (n := 40) rfl, rfl⟩ (by decide)
      (.stop ⟨_, Runs.of_interpret (n := 40) rfl, rfl⟩)
  refine ⟨s, pauses, t, u, hs, ht, hu, hit, fun ⟨kept, hc⟩ => ?_⟩
  have heq := congrArg List.getLast? (hit.unique hc)
  simp at heq

end EmbeddedInfra.CyclicStore
