import EmbeddedInfra.Services.CyclicStore.Recovering

set_option autoImplicit false

/-! # What a store contains

A caller sees the store through the sequence of its operations, from an erased flash on: what has
been added, what has been lost with an erased sector, what is left (`Log`), and that a new iterator
returns just what is left.
-/

namespace EmbeddedInfra.CyclicStore

open NorMemory Sequencer

/-! ## Operations -/

inductive Operation where
  | add (range : List UInt8)
  | addPartial (range : List UInt8) (totalSize : Nat)
  | clear

/-- The operation, from its call to its completion. -/
def Performs (D : Device) : Operation → Store → Store → Prop
  | .add range, s, t => ∃ pauses, Adds D range s pauses t
  | .addPartial range totalSize, s, t => ∃ pauses, AddsPartial D range totalSize s pauses t
  | .clear, s, t => ∃ pauses, Clears D s pauses t

/-- Operations, one after the other. -/
inductive PerformsAll (D : Device) : List Operation → Store → Store → Prop where
  | nil (s : Store) : PerformsAll D [] s s
  | cons {op : Operation} {ops : List Operation} {s t u : Store} (h : Performs D op s t)
      (hs : PerformsAll D ops t u) : PerformsAll D (op :: ops) s u

/-- The store that has been constructed on an erased flash, after the given operations. -/
def History (D : Device) (ops : List Operation) (s : Store) : Prop :=
  ∃ m pauses s₀, (∀ a < D.totalSize, m a = blank) ∧ Constructs D m pauses s₀ ∧
    PerformsAll D ops s₀ s

theorem Performs.unique {D : Device} {op : Operation} {s t t' : Store} (h : Performs D op s t)
    (h' : Performs D op s t') : t = t' := by
  cases op with
  | add | addPartial | clear =>
      obtain ⟨pauses, h⟩ := h
      obtain ⟨pauses', h'⟩ := h'
      exact (Runs.unique h h').2

/-! ## The contents -/

/-- The contents of a store as its caller knows them. -/
structure Log where
  /-- the complete records and their sectors -/
  ring : Ring := .empty
  /-- the part of a record that has been added, and the number of bytes that are still to come -/
  pending : Option (List UInt8 × Nat) := none
  /-- all records that have been added -/
  added : List (List UInt8) := []
  /-- the records that were in sectors that have been given up -/
  lost : List (List UInt8) := []

namespace Log

variable (D : Device)

/-- A whole record is added. -/
def add (d : List UInt8) (l : Log) : Log :=
  { l with
    ring := l.ring.add D d,
    added := l.added ++ [d],
    lost := l.lost ++ l.ring.lost D d.length }

/-- The first part of a record of `n` bytes is added. -/
def begin (part : List UInt8) (n : Nat) (l : Log) : Log :=
  { l with
    ring := l.ring.makeRoom D n,
    pending := some (part, n - part.length),
    lost := l.lost ++ l.ring.lost D n }

/-- A further part of a record is added, of which `w` has been added and `k` bytes are missing. -/
def proceed (part w : List UInt8) (k : Nat) (l : Log) : Log :=
  if part.length = k then
    { l with ring := l.ring.put (w ++ part), pending := none, added := l.added ++ [w ++ part] }
  else { l with pending := some (w ++ part, k - part.length) }

/-- The contents after an operation, if the store can perform it: a record is not empty and fits in
a sector, and the parts of a record add up to its size. -/
def perform : Operation → Log → Option Log
  | .add range, l =>
      match l.pending with
      | none =>
          if range ≠ [] ∧ range.length + 4 ≤ D.sizeOfEachSector then some (l.add D range) else none
      | some (w, k) =>
          if range ≠ [] ∧ range.length ≤ k then some (l.proceed range w k) else none
  | .addPartial range totalSize, l =>
      match l.pending with
      | none =>
          if range ≠ [] ∧ range.length ≤ totalSize ∧ totalSize + 4 ≤ D.sizeOfEachSector then
            some (if range.length = totalSize then l.add D range else l.begin D range totalSize)
          else none
      | some (w, k) =>
          if range ≠ [] ∧ range.length ≤ k then some (l.proceed range w k) else none
  | .clear, l => if l.pending = none then some {} else none

def performAll : List Operation → Log → Option Log
  | [], l => some l
  | op :: ops, l => (l.perform D op).bind (performAll ops)

/-- What is left is what was added last. -/
structure Consistent (l : Log) : Prop where
  wellFormed : l.ring.WellFormed D
  nonempty : ∀ p, l.pending = some p → l.ring ≠ .empty
  large : l.ring ≠ .empty → 5 ≤ D.sizeOfEachSector
  added : l.added = l.lost ++ l.ring.records
  records : ∀ d ∈ l.added, d ≠ []

variable {D} {l l' : Log} {range w : List UInt8} {n k : Nat}

theorem consistent_empty : Consistent D {} :=
  ⟨trivial, fun _ hc => absurd hc (by simp), fun hc => (hc rfl).elim, rfl,
    fun d hd => absurd hd (by simp)⟩

theorem Consistent.add (h : l.Consistent D) (hp : l.pending = none) (hd : range ≠ [])
    (hfit : range.length + 4 ≤ D.sizeOfEachSector) : (l.add D range).Consistent D := by
  have hpos : 0 < range.length := List.length_pos_iff.mpr hd
  refine ⟨Ring.wellFormed_add h.wellFormed range, fun p hc => ?_, fun _ => by omega, ?_, ?_⟩
  · exact absurd (hp.symm.trans hc) (by simp)
  · show l.added ++ [range] = l.lost ++ l.ring.lost D range.length ++ (l.ring.add D range).records
    rw [Ring.records_add, h.added, Ring.records_makeRoom h.wellFormed range.length]
    simp
  · intro d hmem
    rcases List.mem_append.mp hmem with hold | hnew
    · exact h.records d hold
    · rwa [List.mem_singleton.mp hnew]

theorem Consistent.begin (h : l.Consistent D) (hfit : n + 4 ≤ D.sizeOfEachSector) (hn : 0 < n)
    (part : List UInt8) : (l.begin D part n).Consistent D := by
  refine ⟨Ring.wellFormed_makeRoom h.wellFormed n, fun _ _ => Ring.makeRoom_ne_empty _ _,
    fun _ => by omega, ?_, h.records⟩
  show l.added = l.lost ++ l.ring.lost D n ++ (l.ring.makeRoom D n).records
  rw [h.added, Ring.records_makeRoom h.wellFormed n]
  simp

theorem Consistent.proceed (h : l.Consistent D) (hp : l.pending = some (w, k)) (hd : range ≠ []) :
    (l.proceed range w k).Consistent D := by
  unfold Log.proceed
  split
  · refine ⟨Ring.wellFormed_put h.wellFormed _, fun p hc => absurd hc (by simp),
      fun _ => h.large (h.nonempty _ hp), ?_, ?_⟩
    · show l.added ++ [w ++ range] = l.lost ++ (l.ring.put (w ++ range)).records
      rw [Ring.records_put (h.nonempty _ hp), h.added]
      simp
    · intro d hmem
      rcases List.mem_append.mp hmem with hold | hnew
      · exact h.records d hold
      · rw [List.mem_singleton.mp hnew]
        simp [hd]
  · exact { h with nonempty := fun _ _ => h.nonempty _ hp }

theorem Consistent.perform (h : l.Consistent D) {op : Operation} (hop : l.perform D op = some l') :
    l'.Consistent D := by
  cases op with
  | add range =>
      cases hp : l.pending with
      | none =>
          simp only [Log.perform, hp, Option.ite_none_right_eq_some, Option.some.injEq] at hop
          obtain ⟨⟨hd, hfit⟩, rfl⟩ := hop
          exact h.add hp hd hfit
      | some p =>
          simp only [Log.perform, hp, Option.ite_none_right_eq_some, Option.some.injEq] at hop
          obtain ⟨⟨hd, -⟩, rfl⟩ := hop
          exact h.proceed hp hd
  | addPartial range totalSize =>
      cases hp : l.pending with
      | none =>
          simp only [Log.perform, hp, Option.ite_none_right_eq_some, Option.some.injEq] at hop
          obtain ⟨⟨hd, hle, hfit⟩, rfl⟩ := hop
          have hpos : 0 < range.length := List.length_pos_iff.mpr hd
          split
          · exact h.add hp hd (by omega)
          · exact h.begin hfit (by omega) range
      | some p =>
          simp only [Log.perform, hp, Option.ite_none_right_eq_some, Option.some.injEq] at hop
          obtain ⟨⟨hd, -⟩, rfl⟩ := hop
          exact h.proceed hp hd
  | clear =>
      simp only [Log.perform, Option.ite_none_right_eq_some, Option.some.injEq] at hop
      obtain ⟨-, rfl⟩ := hop
      exact consistent_empty

theorem Consistent.performAll {ops : List Operation} (h : l.Consistent D)
    (hops : l.performAll D ops = some l') : l'.Consistent D := by
  induction ops generalizing l with
  | nil =>
      cases hops
      exact h
  | cons op ops ih =>
      obtain ⟨l₁, hop, hrest⟩ := Option.bind_eq_some_iff.mp hops
      exact ih (h.perform hop) hrest

end Log

/-! ## The store and its contents -/

section

variable {D : Device} {s t : Store} {l l' : Log} {r : Ring} {range w : List UInt8} {n k : Nat}

/-- The store is between two records. -/
structure Idle (D : Device) (r : Ring) (s : Store) : Prop extends Placed D r s where
  remainingPartialSize : s.remainingPartialSize = 0
  assertionFailed : s.assertionFailed = false

/-- The store has got a part of a record. -/
structure Waiting (D : Device) (r : Ring) (w : List UInt8) (k : Nat) (s : Store) : Prop where
  writing : ∃ first older newest, r = .sectors first older newest ∧
    Writing D first older newest w k s
  partialAddStarted : s.partialAddStarted = true
  remainingPartialSize : s.remainingPartialSize = k
  missing : 0 < k
  assertionFailed : s.assertionFailed = false

/-- The store has the given contents. -/
def Stores (D : Device) (l : Log) (s : Store) : Prop :=
  match l.pending with
  | none => Idle D l.ring s
  | some (w, k) => Waiting D l.ring w k s

theorem Placed.congr {D : Device} {r : Ring} (h : Placed D r s) (h1 : t.flash = s.flash)
    (h2 : t.startAddress = s.startAddress) (h3 : t.endAddress = s.endAddress)
    (h4 : t.partialAddStarted = s.partialAddStarted)
    (h5 : t.partialSizeWritten = s.partialSizeWritten) : Placed D r t :=
  ⟨h.wellFormed, h1 ▸ h.flash, h2.trans h.startAddress, h3.trans h.endAddress,
    h4.trans h.partialAddStarted, h5.trans h.partialSizeWritten⟩

/-- The first call for a record of `n` bytes. -/
theorem Idle.begin (h : Idle D r s) (hd : range ≠ []) (hfit : n + 4 ≤ D.sizeOfEachSector)
    (hle : range.length ≤ n) {s₁ : Store}
    (hs₁ : s₁ = { s with remainingPartialSize := n - range.length }) :
    ∃ pauses t, Runs (CyclicStore.add D range) (prepareAdd range s₁) pauses t ∧
      (∀ p ∈ pauses, Stage D r n range p) ∧
      (n = range.length → Idle D ((r.makeRoom D n).put range) t) ∧
      (n ≠ range.length → Waiting D (r.makeRoom D n) range (n - range.length) t) ∧
      t.iterators = (if r.GivesUp D n then
        s.iterators.map (Iterator.sectorIsErased D r.first) else s.iterators) := by
  have hnot : range.isEmpty = false := by simpa using hd
  obtain ⟨s₂, hs₂⟩ : ∃ s₂, s₂ = prepareAdd range s₁ := ⟨_, rfl⟩
  have hrem : s₂.remainingPartialSize = n - range.length := by
    rw [hs₂, hs₁]
    simp [prepareAdd, h.partialAddStarted]
  have hassert : s₂.assertionFailed = false := by
    rw [hs₂, hs₁]
    simp [prepareAdd, h.assertionFailed, hnot]
  have hplaced : Placed D r s₂ := by
    refine h.toPlaced.congr ?_ ?_ ?_ ?_ ?_ <;> rw [hs₂, hs₁] <;> rfl
  obtain ⟨t, ⟨pauses, hruns, hstages⟩, hlast, hmore, hkept⟩ :=
    add_first hplaced (show range.length + _ = n by omega) hfit
  have hits : s₂.iterators = s.iterators := by
    rw [hs₂, hs₁]
    rfl
  refine ⟨pauses, t, hs₂ ▸ hruns, hstages, fun heq => ?_, fun hne => ?_, ?_⟩
  · exact ⟨hlast (by omega), by rw [hkept.remainingPartialSize]; omega,
      hkept.assertionFailed.trans hassert⟩
  · obtain ⟨hstarted, first, older, newest, hr, hwriting⟩ := hmore (by omega)
    rw [hrem] at hwriting
    exact ⟨⟨first, older, newest, hr, hwriting⟩, hstarted, hkept.remainingPartialSize.trans hrem,
      by omega, hkept.assertionFailed.trans hassert⟩
  · rw [hkept.iterators, hits]

/-- `Add` of a whole record. -/
theorem Idle.add (h : Idle D r s) (hd : range ≠ [])
    (hfit : range.length + 4 ≤ D.sizeOfEachSector) :
    ∃ pauses t, Adds D range s pauses t ∧ (∀ p ∈ pauses, Stage D r range.length range p) ∧
      Idle D (r.add D range) t ∧
      t.iterators = (if r.GivesUp D range.length then
        s.iterators.map (Iterator.sectorIsErased D r.first) else s.iterators) := by
  have hs : s = { s with remainingPartialSize := range.length - range.length } := by
    rw [Nat.sub_self, ← h.remainingPartialSize]
  obtain ⟨pauses, t, hruns, hstages, hlast, -, hits⟩ := h.begin hd hfit (Nat.le_refl _) hs
  exact ⟨pauses, t, hruns, hstages, hlast rfl, hits⟩

/-- A call for a further part of a record. -/
theorem Waiting.proceed (h : Waiting D r w k s) (hd : range ≠ []) (hle : range.length ≤ k) :
    ∃ pauses t, Runs (CyclicStore.add D range) (prepareAdd range s) pauses t ∧
      (range.length = k → Idle D (r.put (w ++ range)) t) ∧
      (range.length ≠ k → Waiting D r (w ++ range) (k - range.length) t) := by
  have hnot : range.isEmpty = false := by simpa using hd
  obtain ⟨first, older, newest, rfl, hwriting⟩ := h.writing
  have hsize := hwriting.fits
  have h32 := D.fits
  have hsec := Nat.mul_le_mul_right D.sizeOfEachSector D.sectors_pos
  rw [Nat.one_mul] at hsec
  obtain ⟨s₂, hs₂⟩ : ∃ s₂, s₂ = prepareAdd range s := ⟨_, rfl⟩
  have hrem : s₂.remainingPartialSize = k - range.length := by
    rw [hs₂]
    simp only [prepareAdd, h.partialAddStarted, if_true, h.remainingPartialSize]
    exact sub32_of_le hle (by omega)
  have hassert : s₂.assertionFailed = false := by
    rw [hs₂]
    simp [prepareAdd, h.assertionFailed, hnot]
  have hwriting₂ : Writing D first older newest w k s₂ := by
    rw [hs₂]
    exact { hwriting with }
  obtain ⟨t, ⟨pauses, hruns, -⟩, hlast, hmore, hr, ha, -⟩ := add_more hwriting₂
    (by rw [hs₂]; exact h.partialAddStarted) hle hrem
  refine ⟨pauses, t, hs₂ ▸ hruns, fun heq => ?_, fun hne => ?_⟩
  · exact ⟨hlast heq.symm, by rw [hr, hrem]; omega, ha.trans hassert⟩
  · obtain ⟨hstarted, hw⟩ := hmore (fun hc => hne hc.symm)
    exact ⟨⟨first, older, newest, rfl, hw⟩, hstarted, hr.trans hrem, by omega, ha.trans hassert⟩

/-- `Clear`. -/
theorem Idle.clear (h : Idle D r s) : ∃ pauses t, Clears D s pauses t ∧ Idle D .empty t := by
  refine ⟨_, _, .execute (.step (.nil _)), ⟨trivial, holds_eraseAll D s.flash, ?_, rfl,
    h.partialAddStarted, h.partialSizeWritten⟩, h.remainingPartialSize, h.assertionFailed⟩
  exact (Nat.zero_mul _).symm

/-- A further part is treated alike by `Add` and `AddPartial`. -/
theorem Stores.proceed (h : Stores D l s) (hp : l.pending = some (w, k)) (hd : range ≠ [])
    (hle : range.length ≤ k) :
    ∃ pauses t, Runs (CyclicStore.add D range) (prepareAdd range s) pauses t ∧
      Stores D (l.proceed range w k) t := by
  rw [Stores, hp] at h
  obtain ⟨pauses, t, hruns, hlast, hmore⟩ := Waiting.proceed h hd hle
  refine ⟨pauses, t, hruns, ?_⟩
  unfold Log.proceed
  split
  · rename_i heq
    exact hlast heq
  · rename_i hne
    exact hmore hne

theorem prepareAddPartial_of_started {totalSize : Nat} (h : s.partialAddStarted = true) :
    prepareAddPartial range totalSize s = prepareAdd range s := by
  rw [prepareAddPartial, if_pos h]

/-- An operation that the store can perform comes to its end, with the contents as expected. -/
theorem Stores.perform (h : Stores D l s) {op : Operation} (hop : l.perform D op = some l') :
    ∃ t, Performs D op s t ∧ Stores D l' t := by
  cases op with
  | add range =>
      cases hp : l.pending with
      | none =>
          simp only [Log.perform, hp, Option.ite_none_right_eq_some, Option.some.injEq] at hop
          obtain ⟨⟨hd, hfit⟩, rfl⟩ := hop
          rw [Stores, hp] at h
          obtain ⟨pauses, t, hadds, -, hidle, -⟩ := h.add hd hfit
          refine ⟨t, ⟨pauses, hadds⟩, ?_⟩
          show Stores D (l.add D range) t
          rw [Stores, show (l.add D range).pending = none from hp]
          exact hidle
      | some p =>
          simp only [Log.perform, hp, Option.ite_none_right_eq_some, Option.some.injEq] at hop
          obtain ⟨⟨hd, hle⟩, rfl⟩ := hop
          obtain ⟨pauses, t, hruns, ht⟩ := h.proceed hp hd hle
          exact ⟨t, ⟨pauses, hruns⟩, ht⟩
  | addPartial range totalSize =>
      cases hp : l.pending with
      | none =>
          simp only [Log.perform, hp, Option.ite_none_right_eq_some, Option.some.injEq] at hop
          obtain ⟨⟨hd, hle, hfit⟩, rfl⟩ := hop
          rw [Stores, hp] at h
          have hsec := Nat.mul_le_mul_right D.sizeOfEachSector D.sectors_pos
          have h32 := D.fits
          obtain ⟨pauses, t, hruns, -, hlast, hmore, -⟩ := Idle.begin h hd hfit hle rfl
          refine ⟨t, ⟨pauses, ?_⟩, ?_⟩
          · rw [AddsPartial, prepareAddPartial, if_neg (by simp [h.partialAddStarted]),
              sub32_of_le hle (by omega)]
            exact hruns
          · split
            · rename_i heq
              show Stores D (l.add D range) t
              rw [Stores, show (l.add D range).pending = none from hp]
              have hidle := hlast heq.symm
              rw [← heq] at hidle
              exact hidle
            · rename_i hne
              exact hmore (fun hc => hne hc.symm)
      | some p =>
          simp only [Log.perform, hp, Option.ite_none_right_eq_some, Option.some.injEq] at hop
          obtain ⟨⟨hd, hle⟩, rfl⟩ := hop
          obtain ⟨pauses, t, hruns, ht⟩ := h.proceed hp hd hle
          have hstarted : s.partialAddStarted = true := by
            rw [Stores, hp] at h
            exact Waiting.partialAddStarted h
          refine ⟨t, ⟨pauses, ?_⟩, ht⟩
          rw [AddsPartial, prepareAddPartial_of_started hstarted]
          exact hruns
  | clear =>
      simp only [Log.perform, Option.ite_none_right_eq_some, Option.some.injEq] at hop
      obtain ⟨hp, rfl⟩ := hop
      rw [Stores, hp] at h
      obtain ⟨pauses, t, hclears, hidle⟩ := Idle.clear h
      exact ⟨t, ⟨pauses, hclears⟩, hidle⟩

theorem Stores.performAll {ops : List Operation} (h : Stores D l s)
    (hops : l.performAll D ops = some l') :
    (∃ t, PerformsAll D ops s t) ∧ ∀ t, PerformsAll D ops s t → Stores D l' t := by
  induction ops generalizing l s with
  | nil =>
      cases hops
      refine ⟨⟨s, .nil s⟩, fun t ht => ?_⟩
      cases ht
      exact h
  | cons op ops ih =>
      obtain ⟨l₁, hop, hrest⟩ := Option.bind_eq_some_iff.mp hops
      obtain ⟨u, hperf, hstores⟩ := h.perform hop
      obtain ⟨⟨t, ht⟩, hall⟩ := ih hstores hrest
      refine ⟨⟨t, .cons hperf ht⟩, fun t' ht' => ?_⟩
      cases ht' with
      | cons hperf' hs =>
          obtain rfl := hperf.unique hperf'
          exact hall t' hs

/-- A store on an erased flash is empty. -/
theorem constructs_erased {m : Memory} (hm : ∀ a < D.totalSize, m a = blank) :
    ∃ pauses t, Constructs D m pauses t ∧ Idle D .empty t := by
  obtain ⟨pauses, t, ht⟩ := recovers_erased (holds_erased hm)
  have hf := ht.fresh
  refine ⟨pauses, t, ht.constructs, ⟨trivial, ?_, ?_, ht.endAddress, hf.partialAddStarted,
    hf.partialSizeWritten⟩, hf.remainingPartialSize, hf.assertionFailed⟩
  · rw [hf.flash]
    exact holds_erased hm
  · rw [ht.startAddress]
    exact (Nat.zero_mul _).symm

/-- From an erased flash on, every sequence of operations that the store can perform comes to its
end, with the contents as expected. -/
theorem history_stores {ops : List Operation} (hops : Log.performAll D ops {} = some l) :
    (∃ s, History D ops s) ∧ ∀ s, History D ops s → Stores D l s := by
  constructor
  · obtain ⟨pauses, s₀, hcons, hidle⟩ := constructs_erased (D := D) (m := fun _ => blank)
      (fun _ _ => rfl)
    obtain ⟨⟨t, ht⟩, -⟩ := Stores.performAll (l := {}) hidle hops
    exact ⟨t, fun _ => blank, pauses, s₀, fun _ _ => rfl, hcons, ht⟩
  · rintro s ⟨m, pauses, s₀, hm, hcons, hall⟩
    obtain ⟨pauses', s₀', hcons', hidle⟩ := constructs_erased (D := D) hm
    obtain rfl := (Runs.unique hcons hcons').2
    exact (Stores.performAll (l := {}) hidle hops).2 s hall

/-! ## What an iterator returns -/

variable {first : Nat} {older : List (List (List UInt8))} {newest : List (List UInt8)}
  {extra : List Block} {buffer : List UInt8}

/-- The complete records of a layout. -/
theorem records_layoutWith (first : Nat) (older : List (List (List UInt8)))
    (newest : List (List UInt8)) (extra : List Block) : (layoutWith first older (newest.map .ready ++ extra)).records
    = (Ring.sectors first older newest).records ++ records extra := by
  have holder : (older.map (·.map Block.ready)).flatMap records = older.flatten := by
    induction older with
    | nil => rfl
    | cons rs older ih => simp [records_ready, ih]
  simp only [Layout.records, layoutWith, Ring.records, List.flatMap_append, holder,
    List.flatMap_cons, List.flatMap_nil, records_append, records_ready]
  simp

/-- A new iterator returns the complete records of a layout. -/
theorem iterates_layoutWith {F : Nat → Sector}
    (h : Contains D s.flash (layoutWith first older (newest.map .ready ++ extra)) F)
    (hS : 1 < D.sizeOfEachSector) (hstart : s.startAddress = first * D.sizeOfEachSector)
    (hrec : ∀ d ∈ (Ring.sectors first older newest).records, d ≠ [] ∧ d.length < 65536)
    (hextra : Walkable D (D.sectorAt first older.length) (newest.map .ready) extra)
    (hnone : records extra = [])
    (hbuf : ∀ d ∈ (Ring.sectors first older newest).records, d.length ≤ buffer.length) :
    Iterates D s buffer {} (Ring.sectors first older newest).records := by
  have hrecords := records_layoutWith first older newest extra
  rw [hnone, List.append_nil] at hrecords
  rw [← hrecords]
  refine h.iterates hS (.inl rfl) ?_ ?_ hstart (by rw [hrecords]; exact hbuf)
  · intro blocks hmem e
    obtain ⟨rs, hrs, rfl⟩ := List.mem_map.mp hmem
    refine walkable_all (fun d hd => hrec d ?_)
    simp only [Ring.records, List.mem_flatten, List.mem_append]
    exact ⟨rs, .inl hrs, hd⟩
  · have hcur : (layoutWith first older (newest.map .ready ++ extra)).current D
        = D.sectorAt first older.length := by
      simp [Layout.current, layoutWith]
    rw [hcur]
    refine walkable_ready (fun d hd => hrec d ?_) (by simpa using hextra)
    simp only [Ring.records, List.mem_flatten, List.mem_append]
    exact ⟨newest, .inr (by simp), hd⟩

/-- The sizes of all records fit in the length field of a block header. -/
structure Log.Sizes (l : Log) : Prop where
  added : ∀ d ∈ l.added, d.length ≤ 65535
  pending : ∀ w k, l.pending = some (w, k) → w.length + k ≤ 65535

/-- A record is unfinished whose place ends with the last sector of the flash. -/
def Log.PendingAtFlashEnd (D : Device) (l : Log) : Prop :=
  match l.ring, l.pending with
  | .sectors first older newest, some (w, k) =>
      D.sectorAt first older.length + 1 = D.numberOfSectors ∧
        1 + recordsSize newest + 3 + (w.length + k) = D.sizeOfEachSector
  | _, _ => False

theorem Log.Consistent.readable (h : l.Consistent D) (hsizes : l.Sizes) :
    ∀ d ∈ l.ring.records, d ≠ [] ∧ d.length < 65536 := by
  intro d hd
  have hmem : d ∈ l.added := by
    rw [h.added]
    exact List.mem_append_right _ hd
  exact ⟨h.records d hmem, Nat.lt_succ_of_le (hsizes.added d hmem)⟩

theorem Stores.iterates (h : Stores D l s) (hl : l.Consistent D) (hsizes : l.Sizes)
    (hend : ¬ l.PendingAtFlashEnd D) (hbuf : ∀ d ∈ l.ring.records, d.length ≤ buffer.length) :
    Iterates D s buffer {} l.ring.records := by
  have hread := hl.readable hsizes
  cases hp : l.pending with
  | none =>
      rw [Stores, hp] at h
      cases hr : l.ring with
      | empty =>
          rw [hr] at h
          exact iterates_erased h.flash D.sectors_pos h.startAddress rfl
      | sectors first older newest =>
          have hS := hl.large (by simp [hr])
          rw [hr] at h hbuf hread
          obtain ⟨F, hF⟩ := h.flash
          rw [ringLayout, ← List.append_nil (newest.map Block.ready)] at hF
          exact iterates_layoutWith hF (by omega) h.startAddress hread trivial rfl hbuf
  | some p =>
      obtain ⟨w, k⟩ := p
      rw [Stores, hp] at h
      obtain ⟨first, older, newest, hr, hwriting⟩ := Waiting.writing h
      have hS := hl.large (hl.nonempty _ hp)
      have hpos : 0 < k := Waiting.missing h
      rw [hr] at hbuf hread ⊢
      obtain ⟨F, hF⟩ := hwriting.flash
      have hfits := hwriting.fits
      have hlen := hsizes.pending w k hp
      refine iterates_layoutWith hF (by omega) hwriting.startAddress hread ⟨?_, ?_, ?_, trivial⟩ rfl
        hbuf
      · intro hnil
        have := congrArg List.length hnil
        simp at this
        omega
      · rw [List.length_append, List.length_replicate]
        omega
      · -- the unfinished record does not end with the flash
        have hcur : D.sectorAt first older.length < D.numberOfSectors := sectorAt_lt
        have hsize : 1 + size (newest.map .ready ++ [.dataPending (w ++ List.replicate k blank)])
            = 1 + recordsSize newest + 3 + (w.length + k) := by
          simp [recordsSize, Block.body]
          omega
        rw [hsize]
        rw [Log.PendingAtFlashEnd, hr, hp] at hend
        by_contra hc
        rw [not_or] at hc
        exact hend ⟨by omega, by omega⟩

section

variable (hp : l.pending = none) (hsizes : ∀ d ∈ l.added, d.length ≤ 65535)
include hp hsizes

theorem Log.sizes_of_added : l.Sizes :=
  ⟨hsizes, fun w k hc => absurd (hp.symm.trans hc) (by simp)⟩

theorem Log.Consistent.readable_of_added (h : l.Consistent D) :
    ∀ d ∈ l.ring.records, d ≠ [] ∧ d.length < 65536 :=
  h.readable (Log.sizes_of_added hp hsizes)

/-- Where no record is unfinished, a new iterator returns the records of the ring and nothing else. -/
theorem Stores.iterates_iff (h : Stores D l s) (hl : l.Consistent D)
    (hbuf : ∀ d ∈ l.ring.records, d.length ≤ buffer.length) {ds : List (List UInt8)} :
    Iterates D s buffer {} ds ↔ ds = l.ring.records := by
  have hend : ¬ l.PendingAtFlashEnd D := by
    unfold Log.PendingAtFlashEnd
    rw [hp]
    cases l.ring <;> exact id
  have hit := h.iterates hl (Log.sizes_of_added hp hsizes) hend hbuf
  exact ⟨fun hds => hds.unique hit, fun heq => heq ▸ hit⟩

end

/-- The records that the ring has in a sector are at the front of that sector of the flash. -/
def InSectors (D : Device) (m : Memory) : Ring → Prop
  | .empty => True
  | .sectors first older newest => ∀ i rs, (older ++ [newest])[i]? = some rs → ∃ status rest,
      NorMemory.read m (D.sectorAt first i * D.sizeOfEachSector) D.sizeOfEachSector
        = [status] ++ rs.flatMap (fun d => (Block.ready d).bytes) ++ rest

theorem inSectors_layoutWith {m : Memory} {F : Nat → Sector}
    (h : Contains D m (layoutWith first older (newest.map .ready ++ extra)) F) :
    InSectors D m (.sectors first older newest) := by
  intro i rs hi
  have hlt : i < older.length + 1 := by
    obtain ⟨hlt, -⟩ := List.getElem?_eq_some_iff.mp hi
    simpa using hlt
  have holder : older.length < D.numberOfSectors := by simpa [layoutWith] using h.older_lt
  obtain ⟨mark, blocks, closed, hsec⟩ : ∃ mark blocks closed,
      F (D.sectorAt first i) = .inUse mark (rs.map .ready ++ blocks) closed := by
    have hF := h.sector i (by omega)
    rw [show (layoutWith first older (newest.map .ready ++ extra)).first = first from rfl] at hF
    rw [hF]
    by_cases hlast : i = older.length
    · subst hlast
      rw [List.getElem?_append_right (Nat.le_refl _), Nat.sub_self] at hi
      cases hi
      exact ⟨older.length == 0, extra, false, by simp [Layout.sector, layoutWith]⟩
    · have hin : i < older.length := by omega
      rw [List.getElem?_append_left hin, List.getElem?_eq_getElem hin, Option.some.injEq] at hi
      exact ⟨i == 0, [], true, by simp [Layout.sector, layoutWith, hin, hi]⟩
  obtain ⟨-, hread⟩ := h.holds (D.sectorAt first i) sectorAt_lt
  rw [hread, hsec, Sector.image, List.flatMap_append, List.flatMap_map, List.append_assoc,
    List.append_assoc, ← List.append_assoc]
  exact ⟨_, _, rfl⟩

theorem Stores.inSectors (h : Stores D l s) : InSectors D s.flash l.ring := by
  cases hp : l.pending with
  | none =>
      rw [Stores, hp] at h
      cases hr : l.ring with
      | empty => trivial
      | sectors first older newest =>
          rw [hr] at h
          obtain ⟨F, hF⟩ := h.flash
          rw [ringLayout, ← List.append_nil (newest.map Block.ready)] at hF
          exact inSectors_layoutWith hF
  | some p =>
      obtain ⟨w, k⟩ := p
      rw [Stores, hp] at h
      obtain ⟨first, older, newest, hr, hwriting⟩ := Waiting.writing h
      rw [hr]
      obtain ⟨F, hF⟩ := hwriting.flash
      exact inSectors_layoutWith hF

theorem Stores.assertionFailed (h : Stores D l s) : s.assertionFailed = false := by
  cases hp : l.pending with
  | none =>
      rw [Stores, hp] at h
      exact Idle.assertionFailed h
  | some p =>
      rw [Stores, hp] at h
      exact Waiting.assertionFailed h

/-- A new iterator returns all records that have been added but those that were in erased sectors,
unless a record is unfinished whose place ends with the flash. -/
theorem iterator_returns_added_records {ops : List Operation}
    (hops : Log.performAll D ops {} = some l) (hsizes : l.Sizes)
    (hend : ¬ l.PendingAtFlashEnd D) :
    (∃ s, History D ops s) ∧ ∀ s, History D ops s →
      s.assertionFailed = false ∧ InSectors D s.flash l.ring ∧
      l.added = l.lost ++ l.ring.records ∧
      ∀ buffer, (∀ d ∈ l.ring.records, d.length ≤ buffer.length) →
        ∀ ds, Iterates D s buffer {} ds ↔ ds = l.ring.records := by
  have hcons := Log.consistent_empty.performAll hops
  obtain ⟨hex, hall⟩ := history_stores hops
  refine ⟨hex, fun s hs => ?_⟩
  have hstores := hall s hs
  refine ⟨hstores.assertionFailed, hstores.inSectors, hcons.added, fun buffer hbuf ds => ?_⟩
  have hit := hstores.iterates hcons hsizes hend hbuf
  constructor
  · intro hds
    exact hds.unique hit
  · rintro rfl
    exact hit

end

/-! ## An unfinished record at the end of the flash -/

/-- A flash of two sectors of ten bytes. Behind its end there is what looks like another sector. -/
def tinyDevice : Device where
  numberOfSectors := 2
  sizeOfEachSector := 10
  size_pos := by decide
  sectors_pos := by decide
  fits := by decide
  two_le := by decide
  past := fun _ a =>
    if a = 20 then SectorStatus.used else if a = 21 then BlockStatus.dataReady
    else if a = 22 then 1 else if a = 23 then 0 else if a = 24 then 7 else 0xff

/-- A record fills the first sector, and a part of another record of `n` bytes is added. -/
def recordAndPart (n : Nat) : List Operation := [.add [1, 2, 3, 4, 5, 6], .addPartial [7] n]

/-- The contents then. -/
def recordAndPartLog (n : Nat) : Log where
  ring := .sectors 0 [[[1, 2, 3, 4, 5, 6]]] []
  pending := some ([7], n - 1)
  added := [[1, 2, 3, 4, 5, 6]]

theorem recordAndPart_returned : ∃ s, History tinyDevice (recordAndPart 5) s ∧
    ∀ ds, Iterates tinyDevice s [0, 0, 0, 0, 0, 0] {} ds ↔ ds = [[1, 2, 3, 4, 5, 6]] := by
  obtain ⟨⟨s, hs⟩, hall⟩ := iterator_returns_added_records
    (show Log.performAll tinyDevice (recordAndPart 5) {} = some (recordAndPartLog 5) from rfl)
    ⟨by decide, fun w k hp => by cases hp; decide⟩ (fun h => absurd h.2 (by decide))
  exact ⟨s, hs, (hall s hs).2.2.2 _ (by decide)⟩

/-- When the unfinished record ends with the flash, the iterator runs past the end. -/
theorem iterator_runs_past_end :
    Log.performAll tinyDevice (recordAndPart 6) {} = some (recordAndPartLog 6) ∧
    (recordAndPartLog 6).Sizes ∧ ∃ s, History tinyDevice (recordAndPart 6) s ∧
      Iterates tinyDevice s [0, 0, 0, 0, 0, 0] {} [[1, 2, 3, 4, 5, 6], [7]] ∧
      ¬ Iterates tinyDevice s [0, 0, 0, 0, 0, 0] {} (recordAndPartLog 6).ring.records := by
  refine ⟨rfl, ⟨by decide, fun w k hp => by cases hp; decide⟩, ?_⟩
  obtain ⟨s, hs, hit⟩ : ∃ s, History tinyDevice (recordAndPart 6) s ∧
      Iterates tinyDevice s [0, 0, 0, 0, 0, 0] {} [[1, 2, 3, 4, 5, 6], [7]] := by
    refine ⟨_, ⟨fun _ => blank, _, _, fun _ _ => rfl, Runs.of_interpret (n := 20) rfl,
      .cons ⟨_, Runs.of_interpret (n := 40) rfl⟩ (.cons ⟨_, Runs.of_interpret (n := 40) rfl⟩
        (.nil _))⟩, ?_⟩
    refine .more ⟨_, Runs.of_interpret (n := 40) rfl, rfl⟩ (by decide)
      (.more ⟨_, Runs.of_interpret (n := 40) rfl, rfl⟩ (by decide)
        (.stop ⟨_, Runs.of_interpret (n := 40) rfl, rfl⟩))
  exact ⟨s, hs, hit, fun hc => absurd (hit.unique hc) (by decide)⟩

end EmbeddedInfra.CyclicStore
