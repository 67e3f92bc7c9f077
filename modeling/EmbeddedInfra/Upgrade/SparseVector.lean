import EmbeddedInfra.Lib.ConsecutiveRuns

set_option autoImplicit false

/-! # The sparse vector of the pack builder

`application::SparseVector`, which keeps its elements as runs in a `std::map` with their first positions as keys.
`Insert` appends to a run that ends at the position, and begins a new run where there is none. It does not join runs:
an element in front of an existing one leaves two runs without a gap.
-/

namespace EmbeddedInfra.Upgrade

open ConsecutiveRuns

/-- A sum of two `std::size_t`. -/
def sizeAdd (a b : Nat) : Nat := (a + b) % 2 ^ 64

/-- `static_cast<std::ptrdiff_t>` -/
def toPtrdiff (position : Nat) : Int := if position < 2 ^ 63 then position else position - 2 ^ 64

/-- The buckets are in the order of their keys. -/
structure SparseVector (α : Type) where
  buckets : List (Run α)
  deriving DecidableEq

/-- What the loop of `Insert` ends with: the buckets, one of them with the element behind it; the exception; or no
bucket. -/
inductive Insertion (α : Type)
  | pushedBack (buckets : List (Run α))
  | overwrite
  | notFound

namespace SparseVector

variable {α : Type}

def empty : SparseVector α := { buckets := [] }

/-! ## The operations -/

def size (vector : SparseVector α) : Nat := (vector.buckets.map fun bucket => bucket.2.length).sum

def invariantLoop (currentAddress : Int) : List (Run α) → Bool
  | [] => true
  | bucket :: buckets =>
      if toPtrdiff bucket.1 ≤ currentAddress then false
      else invariantLoop (toPtrdiff (sizeAdd bucket.1 bucket.2.length)) buckets

def invariantHolds (vector : SparseVector α) : Bool := invariantLoop (-1) vector.buckets

def insertLoop (element : α) (position : Nat) : List (Run α) → Insertion α
  | [] => .notFound
  | bucket :: buckets =>
      if position = sizeAdd bucket.1 bucket.2.length then
        .pushedBack ((bucket.1, bucket.2 ++ [element]) :: buckets)
      else if bucket.1 ≤ position ∧ position < sizeAdd bucket.1 bucket.2.length then .overwrite
      else
        match insertLoop element position buckets with
        | .pushedBack buckets' => .pushedBack (bucket :: buckets')
        | .overwrite => .overwrite
        | .notFound => .notFound

/-- `buckets.insert`, which leaves a key alone that is there. -/
def mapInsert (key : Nat) (elements : List α) : List (Run α) → List (Run α)
  | [] => [(key, elements)]
  | bucket :: buckets =>
      if key < bucket.1 then (key, elements) :: bucket :: buckets
      else if key = bucket.1 then bucket :: buckets
      else bucket :: mapInsert key elements buckets

/-- `none` for the `OverwriteException`. -/
def insert (vector : SparseVector α) (element : α) (position : Nat) : Option (SparseVector α) :=
  match insertLoop element position vector.buckets with
  | .pushedBack buckets => some { buckets := buckets }
  | .overwrite => none
  | .notFound => some { buckets := mapInsert position [element] vector.buckets }

def atLoop (position : Nat) : List (Run α) → Option α
  | [] => none
  | bucket :: buckets =>
      if bucket.1 ≤ position ∧ position < sizeAdd bucket.1 bucket.2.length then bucket.2[position - bucket.1]?
      else atLoop position buckets

/-- `operator[]`, which aborts at the end. -/
def at? (vector : SparseVector α) (position : Nat) : Option α := atLoop position vector.buckets

def elementAtIndexLoop (position : Nat) : List (Run α) → Option (Nat × α)
  | [] => none
  | bucket :: buckets =>
      if position < bucket.2.length then
        bucket.2[position]?.map fun element => (sizeAdd bucket.1 position, element)
      else elementAtIndexLoop (position - bucket.2.length) buckets

/-- What an iterator stands at; it aborts at the end. -/
def elementAtIndex (vector : SparseVector α) (position : Nat) : Option (Nat × α) :=
  elementAtIndexLoop position vector.buckets

/-- What an iterator sees, from its position on, in as many steps. -/
def iterateFrom (vector : SparseVector α) : Nat → Nat → Option (List (Nat × α))
  | _, 0 => some []
  | position, left + 1 => do
      let element ← vector.elementAtIndex position
      let rest ← iterateFrom vector (position + 1) left
      some (element :: rest)

/-- What is seen from `begin()` to `end()`. -/
def iterate (vector : SparseVector α) : Option (List (Nat × α)) := vector.iterateFrom 0 vector.size

/-! ## What is promised -/

/-- The vector after some insertions, the first of which is the last in the list; where one throws, it stays as it
is. -/
def inserted : List (α × Nat) → SparseVector α
  | [] => empty
  | (element, position) :: insertions =>
      ((inserted insertions).insert element position).getD (inserted insertions)

/-- What has been inserted: the first element at each position. -/
def inserts : List (α × Nat) → Nat → Option α
  | [], _ => none
  | (element, position) :: insertions, query =>
      (inserts insertions query).or (if query = position then some element else none)

/-- The vector is the map. -/
structure IsMap (vector : SparseVector α) (map : Nat → Option α) : Prop where
  throws : ∀ element position, vector.insert element position = none ↔ map position ≠ none
  invariant : vector.invariantHolds = true
  element : ∀ position element, map position = some element → vector.at? position = some element
  iterates : ∃ pairs, vector.iterate = some pairs ∧ (pairs.Pairwise fun pair pair' => pair.1 < pair'.1) ∧
    ∀ position element, (position, element) ∈ pairs ↔ map position = some element

/-- **What is promised of sequences of insertions**: they make a map, and the same one from whatever sequences with
the same contents. -/
def IsFiniteMap (good : List (α × Nat) → Prop) (insertions : List (α × Nat)) : Prop :=
  IsMap (inserted insertions) (inserts insertions) ∧
    ∀ insertions', good insertions' → inserts insertions' = inserts insertions →
      inserted insertions' = inserted insertions

/-- An insertion that goes well: the position is taken, or it is not in front of one that is taken. A position in
the upper half of the address space needs a run that reaches it. -/
def Joins (insertions : List (α × Nat)) (position : Nat) : Prop :=
  inserts insertions position ≠ none ∨
    position + 1 < 2 ^ 64 ∧ inserts insertions (position + 1) = none ∧
      (position < 2 ^ 63 ∨ inserts insertions (2 ^ 63 - 1) ≠ none)

/-- All insertions go well. -/
def AllJoin : List (α × Nat) → Prop
  | [] => True
  | (_, position) :: insertions => Joins insertions position ∧ AllJoin insertions

variable {runs : List (Run α)} {map : Nat → Option α} {element : α} {position gap : Nat}

/-! ## Insertion -/

/-- No sum of a first position and a size wraps. -/
def Bounded (runs : List (Run α)) : Prop := ∀ run ∈ runs, run.1 + run.2.length < 2 ^ 64

theorem sizeAdd_of_bounded {a b : Nat} (h : a + b < 2 ^ 64) : sizeAdd a b = a + b := Nat.mod_eq_of_lt h

/-- The loop comes to a run that has the position, and not to one that ends there before. -/
def Taken (position : Nat) : List (Run α) → Prop
  | [] => False
  | run :: runs =>
      position ≠ run.1 + run.2.length ∧
        (run.1 ≤ position ∧ position < run.1 + run.2.length ∨ Taken position runs)

theorem insertLoop_eq_overwrite_iff (hbounded : Bounded runs) :
    insertLoop element position runs = .overwrite ↔ Taken position runs := by
  induction runs with
  | nil => simp [insertLoop, Taken]
  | cons run runs ih =>
      have hrest := ih fun run hrun => hbounded run (List.mem_cons_of_mem _ hrun)
      rw [insertLoop, sizeAdd_of_bounded (hbounded run List.mem_cons_self), Taken, ← hrest]
      split_ifs with hend hin
      · simp [hend]
      · simp [hend, hin]
      · cases insertLoop element position runs <;> simp [hend, hin]

theorem insert_eq_none_iff (hbounded : Bounded runs) :
    SparseVector.insert { buckets := runs } element position = none ↔ Taken position runs := by
  rw [← @insertLoop_eq_overwrite_iff _ _ element _ hbounded, SparseVector.insert]
  cases insertLoop element position runs <;> simp

/-- In runs without overlap these are the positions that have an element. -/
theorem taken_iff (hseparated : Separated runs) :
    Taken position runs ↔ ∃ run ∈ runs, run.1 ≤ position ∧ position < run.1 + run.2.length := by
  induction runs with
  | nil => simp [Taken]
  | cons run runs ih =>
      rw [Taken, ih hseparated.tail, List.exists_mem_cons_iff]
      refine and_iff_right_of_imp ?_
      rintro (⟨-, hlt⟩ | ⟨run', hrun', hle, -⟩)
      · exact hlt.ne
      · have hgap := hseparated.lt_first hrun'
        omega

/-- The loop finds the run that ends at the position, or none. -/
theorem insertLoop_of_not_mem (hbounded : Bounded runs)
    (hnot : ∀ run ∈ runs, ¬ (run.1 ≤ position ∧ position < run.1 + run.2.length)) :
    (∃ front run back, runs = front ++ run :: back ∧ position = run.1 + run.2.length ∧
        insertLoop element position runs = .pushedBack (front ++ (run.1, run.2 ++ [element]) :: back)) ∨
      insertLoop element position runs = .notFound ∧ ∀ run ∈ runs, position ≠ run.1 + run.2.length := by
  induction runs with
  | nil => exact Or.inr ⟨rfl, by simp⟩
  | cons run runs ih =>
      have hend := sizeAdd_of_bounded (hbounded run List.mem_cons_self)
      by_cases hhere : position = run.1 + run.2.length
      · refine Or.inl ⟨[], run, runs, rfl, hhere, ?_⟩
        rw [insertLoop, hend, if_pos hhere]
        rfl
      · have hrest := ih (fun run hrun => hbounded run (List.mem_cons_of_mem _ hrun))
          fun run hrun => hnot run (List.mem_cons_of_mem _ hrun)
        rw [insertLoop, hend, if_neg hhere, if_neg (hnot run List.mem_cons_self)]
        rcases hrest with ⟨front, run', back, rfl, hposition, hloop⟩ | ⟨hloop, hall⟩
        · refine Or.inl ⟨run :: front, run', back, rfl, hposition, ?_⟩
          rw [hloop]
          rfl
        · rw [hloop]
          refine Or.inr ⟨rfl, ?_⟩
          intro run' hmem
          rcases List.mem_cons.mp hmem with rfl | hmem
          · exact hhere
          · exact hall run' hmem

theorem contents_append (runs runs' : List (Run α)) :
    contents (runs ++ runs') = contents runs ++ contents runs' :=
  List.flatMap_append

theorem contents_cons (run : Run α) (runs : List (Run α)) :
    contents (run :: runs) = pairs run.1 run.2 ++ contents runs := List.flatMap_cons

/-- A run that is not there comes between those before it and those behind it. -/
theorem mapInsert_eq (hspaced : Spaced gap runs) {elements : List α}
    (hnot : ∀ run ∈ runs, ¬ (run.1 ≤ position ∧ position < run.1 + run.2.length))
    (hend : ∀ run ∈ runs, position ≠ run.1 + run.2.length) :
    ∃ front back, runs = front ++ back ∧ (∀ run ∈ front, run.1 + run.2.length < position) ∧
      (∀ run ∈ back, position < run.1) ∧ mapInsert position elements runs = front ++ (position, elements) :: back := by
  induction runs with
  | nil => exact ⟨[], [], rfl, by simp, by simp, rfl⟩
  | cons run runs ih =>
      have hhere := hnot run List.mem_cons_self
      have hbehind := hend run List.mem_cons_self
      rw [mapInsert]
      by_cases hbefore : position < run.1
      · refine ⟨[], run :: runs, rfl, by simp, ?_, by rw [if_pos hbefore]; rfl⟩
        intro run' hmem
        rcases List.mem_cons.mp hmem with rfl | hmem
        · exact hbefore
        · have hgap := hspaced.le_first hmem
          omega
      · have hlength := List.length_pos_of_ne_nil (hspaced.nonempty run List.mem_cons_self)
        obtain ⟨front, back, hruns, hfront, hback, hinsert⟩ := ih hspaced.tail
          (fun run hrun => hnot run (List.mem_cons_of_mem _ hrun))
          fun run hrun => hend run (List.mem_cons_of_mem _ hrun)
        refine ⟨run :: front, back, by rw [hruns]; rfl, ?_, hback, ?_⟩
        · intro run' hmem
          rcases List.mem_cons.mp hmem with rfl | hmem
          · omega
          · exact hfront run' hmem
        · rw [if_neg hbefore, if_neg (by omega), hinsert]
          rfl

/-- **A position that is not taken can be inserted.** In front of an element it leaves no gap. -/
theorem insert_of_not_mem (hspaced : Spaced gap runs) (hbounded : Bounded runs) (hgap : gap ≤ 1)
    (hnot : ∀ pair ∈ contents runs, pair.1 ≠ position)
    (hbehind : gap = 1 → ∀ pair ∈ contents runs, pair.1 ≠ position + 1) :
    ∃ runs', SparseVector.insert { buckets := runs } element position = some { buckets := runs' } ∧
      Spaced gap runs' ∧ (contents runs').Perm ((position, element) :: contents runs) := by
  have houtside : ∀ run ∈ runs, ¬ (run.1 ≤ position ∧ position < run.1 + run.2.length) := by
    rintro run hrun ⟨hle, hlt⟩
    obtain ⟨element', hmem⟩ := mem_contents_of_lt hrun hle hlt
    exact hnot _ hmem rfl
  have hfirst : ∀ run ∈ runs, position + 1 + gap ≤ run.1 ∨ run.1 + run.2.length ≤ position := by
    intro run hrun
    have hout := houtside run hrun
    have hlength := List.length_pos_of_ne_nil (hspaced.nonempty run hrun)
    obtain ⟨first, hmem⟩ := mem_contents_of_lt hrun le_rfl (by omega)
    have hne : gap = 1 → run.1 ≠ position + 1 := fun hone => hbehind hone _ hmem
    omega
  rw [SparseVector.insert]
  rcases @insertLoop_of_not_mem _ _ element _ hbounded houtside with
    ⟨front, run, back, rfl, hposition, hloop⟩ | ⟨hloop, hend⟩
  · have hapart := hspaced.apart
    rw [List.pairwise_append, List.pairwise_cons] at hapart
    obtain ⟨hfront, ⟨hrunback, hback⟩, hcross⟩ := hapart
    refine ⟨front ++ (run.1, run.2 ++ [element]) :: back, by rw [hloop], ⟨?_, ?_⟩, ?_⟩
    · intro run' hmem
      rcases List.mem_append.mp hmem with hmem | hmem
      · exact hspaced.nonempty run' (List.mem_append_left _ hmem)
      · rcases List.mem_cons.mp hmem with rfl | hmem
        · exact List.append_ne_nil_of_right_ne_nil _ (List.cons_ne_nil _ _)
        · exact hspaced.nonempty run' (List.mem_append_right _ (List.mem_cons_of_mem _ hmem))
    · rw [List.pairwise_append, List.pairwise_cons]
      refine ⟨hfront, ⟨?_, hback⟩, ?_⟩
      · intro run' hmem
        have hmem' : run' ∈ front ++ run :: back := List.mem_append_right front (List.mem_cons_of_mem _ hmem)
        have hle := hrunback run' hmem
        have hlength := List.length_pos_of_ne_nil (hspaced.nonempty run' hmem')
        have hnext := hfirst run' hmem'
        rw [List.length_append, List.length_singleton]
        dsimp only
        omega
      · intro run' hmem run'' hmem''
        rcases List.mem_cons.mp hmem'' with rfl | hmem''
        · exact hcross run' hmem run List.mem_cons_self
        · exact hcross run' hmem run'' (List.mem_cons_of_mem _ hmem'')
    · rw [contents_append, contents_append, contents_cons, contents_cons, pairs_append, ← hposition]
      simp only [pairs, List.append_assoc, List.singleton_append]
      exact (List.perm_middle.append_left _).trans List.perm_middle
  · obtain ⟨front, back, rfl, hbefore, hafter, hinsert⟩ := @mapInsert_eq _ _ _ _ hspaced [element] houtside hend
    have hapart := hspaced.apart
    rw [List.pairwise_append] at hapart
    refine ⟨front ++ (position, [element]) :: back, by rw [hloop, hinsert], ⟨?_, ?_⟩, ?_⟩
    · intro run' hmem
      rcases List.mem_append.mp hmem with hmem | hmem
      · exact hspaced.nonempty run' (List.mem_append_left _ hmem)
      · rcases List.mem_cons.mp hmem with rfl | hmem
        · exact List.cons_ne_nil _ _
        · exact hspaced.nonempty run' (List.mem_append_right _ hmem)
    · rw [List.pairwise_append, List.pairwise_cons]
      refine ⟨hapart.1, ⟨?_, hapart.2.1⟩, ?_⟩
      · intro run' hmem
        have hlt := hafter run' hmem
        have hnext := hfirst run' (List.mem_append_right front hmem)
        rw [List.length_singleton]
        dsimp only
        omega
      · intro run' hmem run'' hmem''
        rcases List.mem_cons.mp hmem'' with rfl | hmem''
        · exact (Nat.add_le_add_left hgap _).trans (hbefore run' hmem)
        · exact hapart.2.2 run' hmem run'' hmem''
    · rw [contents_append, contents_append, contents_cons]
      exact List.perm_middle

/-! ## Positions that are taken

Runs that are not joined may come to overlap. What counts then is whether the loop comes to a run that has the
position before one that ends there. -/

/-- The keys of a `std::map` ascend. -/
def Ascending (runs : List (Run α)) : Prop := runs.Pairwise fun run run' => run.1 < run'.1

/-- An element at the end of a run: the position is taken then, and the next one is not. -/
theorem taken_pushedBack (hascending : Ascending runs) (hbounded : Bounded runs) {runs' : List (Run α)}
    (h : insertLoop element position runs = .pushedBack runs') (query : Nat) :
    (∃ run ∈ runs, run.1 ≤ position) ∧ runs'.map Prod.fst = runs.map Prod.fst ∧
      (∀ run ∈ runs', run ∈ runs ∨ run.1 + run.2.length = position + 1) ∧
      (Taken query runs' ↔ query = position ∨ query ≠ position + 1 ∧ Taken query runs) := by
  induction runs generalizing runs' with
  | nil => cases h
  | cons run runs ih =>
      rw [insertLoop, sizeAdd_of_bounded (hbounded run List.mem_cons_self)] at h
      split_ifs at h with hend hin
      · cases h
        refine ⟨⟨run, List.mem_cons_self, by omega⟩, rfl, ?_, ?_⟩
        · intro run' hrun'
          rcases List.mem_cons.mp hrun' with rfl | hrun'
          · exact Or.inr (by simp; omega)
          · exact Or.inl (List.mem_cons_of_mem _ hrun')
        · simp only [Taken, List.length_append, List.length_singleton]
          by_cases hquery : query = position
          · simp only [hquery, true_or, iff_true]
            omega
          · have hless : query ≠ position + 1 → (query < run.1 + (run.2.length + 1) ↔ query < run.1 + run.2.length) := by
              omega
            by_cases hnext : query = position + 1
            · simp [hnext, hend]
              omega
            · simp [hquery, hnext, hless hnext]
              omega
      · split at h
        · rename_i runs'' hloop
          cases h
          obtain ⟨⟨run', hrun', hle⟩, hkeys, hmem, htaken⟩ := ih hascending.of_cons
            (fun run hrun => hbounded run (List.mem_cons_of_mem _ hrun)) hloop
          have hless := List.rel_of_pairwise_cons hascending hrun'
          refine ⟨⟨run', List.mem_cons_of_mem _ hrun', hle⟩, by simp [hkeys], ?_, ?_⟩
          · intro run'' hrun''
            rcases List.mem_cons.mp hrun'' with rfl | hrun''
            · exact Or.inl List.mem_cons_self
            · exact (hmem run'' hrun'').imp_left (List.mem_cons_of_mem _)
          · rw [Taken, Taken, htaken]
            by_cases hquery : query = position
            · simp [hquery, hend]
            · by_cases hnext : query = position + 1
              · simp only [hnext]
                omega
              · simp [hquery, hnext]
        · cases h
        · cases h

/-- A run of one element that begins where none ends. -/
theorem taken_mapInsert (hbounded : Bounded runs) (h : insertLoop element position runs = .notFound)
    (query : Nat) :
    (∀ run ∈ mapInsert position [element] runs, run ∈ runs ∨ run = (position, [element])) ∧
      (Ascending runs → Ascending (mapInsert position [element] runs)) ∧
      (Taken query (mapInsert position [element] runs) ↔ query = position ∨ query ≠ position + 1 ∧ Taken query runs) := by
  induction runs with
  | nil =>
      simp [mapInsert, Taken, Ascending]
      omega
  | cons run runs ih =>
      rw [insertLoop, sizeAdd_of_bounded (hbounded run List.mem_cons_self)] at h
      split_ifs at h with hend hin
      have hloop : insertLoop element position runs = .notFound := by
        split at h
        · cases h
        · cases h
        · assumption
      obtain ⟨hmem, hascending, htaken⟩ := ih (fun run hrun => hbounded run (List.mem_cons_of_mem _ hrun)) hloop
      rw [mapInsert]
      split_ifs with hbefore hsame
      · refine ⟨fun run' hrun' => (List.mem_cons.mp hrun').symm, fun hascends => ?_, ?_⟩
        · refine List.pairwise_cons.mpr ⟨List.forall_mem_cons.mpr ⟨hbefore, fun run' hrun' => ?_⟩, hascends⟩
          exact hbefore.trans (List.rel_of_pairwise_cons hascends hrun')
        · rw [Taken, List.length_singleton]
          by_cases hquery : query = position
          · simp [hquery]
          · rw [or_iff_right (by omega), or_iff_right hquery]
      · omega
      · refine ⟨?_, fun hascends => List.pairwise_cons.mpr ⟨fun run' hrun' => ?_, hascending hascends.of_cons⟩, ?_⟩
        · intro run' hrun'
          rcases List.mem_cons.mp hrun' with rfl | hrun'
          · exact Or.inl List.mem_cons_self
          · exact (hmem run' hrun').imp_left (List.mem_cons_of_mem _)
        · rcases hmem run' hrun' with hold | rfl
          · exact List.rel_of_pairwise_cons hascends hold
          · dsimp only
            omega
        · rw [Taken, Taken, htaken]
          by_cases hquery : query = position
          · simp [hquery, hend]
          · by_cases hnext : query = position + 1
            · simp only [hnext]
              omega
            · simp [hquery, hnext]

/-- **What an insertion makes of the positions that are taken**, joined runs or not. -/
theorem insert_cases (hascending : Ascending runs) (hbounded : Bounded runs) (hposition : position + 1 < 2 ^ 64) :
    SparseVector.insert { buckets := runs } element position = none ∧ Taken position runs ∨
      ∃ runs', SparseVector.insert { buckets := runs } element position = some { buckets := runs' } ∧
        ¬ Taken position runs ∧ Ascending runs' ∧ Bounded runs' ∧
        ∀ query, Taken query runs' ↔ query = position ∨ query ≠ position + 1 ∧ Taken query runs := by
  have htaken := @insertLoop_eq_overwrite_iff _ _ element position hbounded
  rw [SparseVector.insert]
  cases hloop : insertLoop element position runs with
  | overwrite => exact Or.inl ⟨rfl, htaken.mp hloop⟩
  | pushedBack runs' =>
      obtain ⟨-, hkeys, hmem, -⟩ := taken_pushedBack hascending hbounded hloop 0
      refine Or.inr ⟨runs', rfl, by simp [← htaken, hloop], ?_, ?_, fun query => ?_⟩
      · rw [Ascending, ← List.pairwise_map (f := Prod.fst) (R := (· < ·)), hkeys, List.pairwise_map]
        exact hascending
      · intro run hrun
        rcases hmem run hrun with hold | hend
        · exact hbounded run hold
        · omega
      · exact (taken_pushedBack hascending hbounded hloop query).2.2.2
  | notFound =>
      obtain ⟨hmem, hascending', -⟩ := taken_mapInsert hbounded hloop 0
      refine Or.inr ⟨_, rfl, by simp [← htaken, hloop], hascending' hascending, ?_, fun query => ?_⟩
      · intro run hrun
        rcases hmem run hrun with hold | rfl
        · exact hbounded run hold
        · exact hposition
      · exact (taken_mapInsert hbounded hloop query).2.2

/-! ## The invariant -/

/-- The map, with one more element. -/
def update (map : Nat → Option α) (element : α) (position query : Nat) : Option α :=
  (map query).or (if query = position then some element else none)

/-- The runs are those of the map, with gaps between them. -/
structure Holds (runs : List (Run α)) (map : Nat → Option α) : Prop where
  separated : Separated runs
  bounded : Bounded runs
  mem_iff : ∀ position element, (position, element) ∈ contents runs ↔ map position = some element
  reaches : ∀ position, 2 ^ 63 ≤ position → map position ≠ none → map (2 ^ 63 - 1) ≠ none

theorem Holds.outside (h : Holds runs map) (hnone : map position = none) :
    ∀ run ∈ runs, ¬ (run.1 ≤ position ∧ position < run.1 + run.2.length) := by
  rintro run hrun ⟨hle, hlt⟩
  obtain ⟨element, hmem⟩ := mem_contents_of_lt hrun hle hlt
  rw [h.mem_iff, hnone] at hmem
  cases hmem

theorem update_eq_some {query : Nat} {element' : α} (hnone : map position = none) :
    update map element position query = some element' ↔
      map query = some element' ∨ query = position ∧ element' = element := by
  rw [update]
  by_cases hquery : query = position
  · rw [hquery, hnone, if_pos rfl]
    simp [eq_comm]
  · simp [hquery]

/-- The map keeps reaching the upper half from below. -/
theorem reaches_update (hreaches : ∀ position, 2 ^ 63 ≤ position → map position ≠ none → map (2 ^ 63 - 1) ≠ none)
    (hjoins : position < 2 ^ 63 ∨ map (2 ^ 63 - 1) ≠ none) :
    ∀ query, 2 ^ 63 ≤ query → update map element position query ≠ none →
      update map element position (2 ^ 63 - 1) ≠ none := by
  have hkeeps (hmap : map (2 ^ 63 - 1) ≠ none) : update map element position (2 ^ 63 - 1) ≠ none := by
    obtain ⟨element', helement'⟩ := Option.ne_none_iff_exists'.mp hmap
    rw [update, helement', Option.some_or]
    exact Option.some_ne_none _
  intro query hquery hne
  rcases hjoins with hlt | hmap
  · refine hkeeps (hreaches query hquery ?_)
    rw [update, if_neg (by omega), Option.or_none] at hne
    exact hne
  · exact hkeeps hmap

/-- **What an insertion makes of the buckets** that is not in front of an element. -/
theorem Holds.insert (h : Holds runs map) (hnone : map position = none) (hbound : position + 1 < 2 ^ 64)
    (hbehind : map (position + 1) = none) (hjoins : position < 2 ^ 63 ∨ map (2 ^ 63 - 1) ≠ none) :
    ∃ runs', SparseVector.insert { buckets := runs } element position = some { buckets := runs' } ∧
      Holds runs' (update map element position) := by
  have hout {query : Nat} (hquery : map query = none) : ∀ pair ∈ contents runs, pair.1 ≠ query := by
    rintro ⟨position', element'⟩ hmem rfl
    rw [h.mem_iff, hquery] at hmem
    cases hmem
  obtain ⟨runs', hinsert, hspaced, hperm⟩ := insert_of_not_mem h.separated.spaced h.bounded le_rfl
    (hout hnone) fun _ => hout hbehind
  have hmem_iff (query : Nat) (element' : α) :
      (query, element') ∈ contents runs' ↔ update map element position query = some element' := by
    rw [hperm.mem_iff, List.mem_cons, h.mem_iff, update_eq_some hnone, Prod.mk.injEq, or_comm]
  refine ⟨runs', hinsert, hspaced.separated, ?_, hmem_iff, reaches_update h.reaches hjoins⟩
  intro run hrun
  have hlength := List.length_pos_of_ne_nil (hspaced.nonempty run hrun)
  obtain ⟨last, hlast⟩ := @mem_contents_of_lt _ _ _ (run.1 + run.2.length - 1) hrun (by omega) (by omega)
  rcases List.mem_cons.mp (hperm.mem_iff.mp hlast) with hhere | hthere
  · have hposition := (Prod.mk.inj hhere).1
    omega
  · obtain ⟨run', hrun', -, hlt⟩ := lt_of_mem_contents hthere
    have hbound := h.bounded run' hrun'
    omega

/-! ## What holds of the buckets of a map -/

theorem Holds.insert_none_iff (h : Holds runs map) :
    SparseVector.insert { buckets := runs } element position = none ↔ map position ≠ none := by
  rw [insert_eq_none_iff h.bounded, taken_iff h.separated]
  constructor
  · rintro ⟨run, hrun, hin⟩ hnone
    exact h.outside hnone run hrun hin
  · intro hne
    obtain ⟨element, helement⟩ := Option.ne_none_iff_exists'.mp hne
    exact lt_of_mem_contents ((h.mem_iff position element).mpr helement)

theorem atLoop_eq (hbounded : Bounded runs) (hseparated : Separated runs)
    (hmem : (position, element) ∈ contents runs) : atLoop position runs = some element := by
  induction runs with
  | nil => cases hmem
  | cons run runs ih =>
      rw [atLoop, sizeAdd_of_bounded (hbounded run List.mem_cons_self)]
      rw [contents_cons, List.mem_append] at hmem
      rcases hmem with hmem | hmem
      · obtain ⟨hle, helement⟩ := mem_pairs.mp hmem
        obtain ⟨hbound, -⟩ := List.getElem?_eq_some_iff.mp helement
        rw [if_pos ⟨hle, by omega⟩, helement]
      · obtain ⟨run', hrun', hle, -⟩ := lt_of_mem_contents hmem
        have hgap := hseparated.lt_first hrun'
        rw [if_neg (by omega)]
        exact ih (fun run hrun => hbounded run (List.mem_cons_of_mem _ hrun)) hseparated.tail hmem

theorem elementAtIndexLoop_eq (hbounded : Bounded runs) (position : Nat) :
    elementAtIndexLoop position runs = (contents runs)[position]? := by
  induction runs generalizing position with
  | nil => rfl
  | cons run runs ih =>
      have hend := hbounded run List.mem_cons_self
      rw [elementAtIndexLoop, contents_cons]
      split_ifs with hhere
      · rw [List.getElem?_append_left (by rwa [length_pairs]), getElem?_pairs, sizeAdd_of_bounded (by omega)]
      · rw [List.getElem?_append_right (by rw [length_pairs]; omega), length_pairs,
          ih fun run hrun => hbounded run (List.mem_cons_of_mem _ hrun)]

theorem size_eq (vector : SparseVector α) : vector.size = (contents vector.buckets).length := by
  obtain ⟨buckets⟩ := vector
  rw [size]
  induction buckets with
  | nil => rfl
  | cons bucket buckets ih =>
      rw [contents_cons, List.map_cons, List.sum_cons, List.length_append, length_pairs, ih]

theorem iterateFrom_eq {vector : SparseVector α} (hbounded : Bounded vector.buckets) (left position : Nat)
    (hleft : position + left = (contents vector.buckets).length) :
    vector.iterateFrom position left = some ((contents vector.buckets).drop position) := by
  induction left generalizing position with
  | zero => rw [iterateFrom, List.drop_of_length_le (by omega)]
  | succ left ih =>
      have hlt : position < (contents vector.buckets).length := by omega
      have hhere : vector.elementAtIndex position = some (contents vector.buckets)[position] := by
        rw [elementAtIndex, elementAtIndexLoop_eq hbounded, List.getElem?_eq_getElem hlt]
      rw [iterateFrom, hhere, ih (position + 1) (by omega), List.drop_eq_getElem_cons hlt]
      rfl

/-- The addresses ascend as signed numbers too: a run behind the middle of the address space has one in front of it
that reaches the middle. -/
theorem invariantLoop_eq (hbounded : Bounded runs) (hseparated : Separated runs) {currentAddress : Int}
    {reached : Nat} (hcurrent : currentAddress = -1 ∧ reached = 0 ∨
      currentAddress = toPtrdiff reached ∧ ∀ run ∈ runs, reached < run.1)
    (hreaches : ∀ run ∈ runs, 2 ^ 63 ≤ run.1 →
      2 ^ 63 ≤ reached ∨ ∃ run' ∈ runs, run'.1 < 2 ^ 63 ∧ 2 ^ 63 ≤ run'.1 + run'.2.length) :
    invariantLoop currentAddress runs = true := by
  induction runs generalizing currentAddress reached with
  | nil => rfl
  | cons run runs ih =>
      have hend := hbounded run List.mem_cons_self
      have hlength := List.length_pos_of_ne_nil (hseparated.nonempty run List.mem_cons_self)
      have hfirst : reached = 0 ∨ reached < run.1 := hcurrent.imp And.right fun h => h.2 run List.mem_cons_self
      have hhere : ¬ toPtrdiff run.1 ≤ currentAddress := by
        by_cases hlower : run.1 < 2 ^ 63
        · rw [toPtrdiff, if_pos hlower]
          rcases hcurrent with ⟨hstart, -⟩ | ⟨hreached, hlt⟩
          · omega
          · have hbefore := hlt run List.mem_cons_self
            rw [toPtrdiff, if_pos (by omega)] at hreached
            omega
        · -- the run that reaches the middle is not behind this one
          have hupper : 2 ^ 63 ≤ reached := by
            rcases hreaches run List.mem_cons_self (by omega) with hupper | ⟨run', hrun', hbelow, -⟩
            · exact hupper
            · rcases List.mem_cons.mp hrun' with rfl | hrun'
              · omega
              · have hgap := hseparated.lt_first hrun'
                omega
          rw [toPtrdiff, if_neg hlower]
          rcases hcurrent with ⟨-, hzero⟩ | ⟨hreached, hlt⟩
          · omega
          · have hbefore := hlt run List.mem_cons_self
            rw [toPtrdiff, if_neg (by omega)] at hreached
            omega
      rw [invariantLoop, if_neg hhere, sizeAdd_of_bounded hend]
      refine ih (fun run hrun => hbounded run (List.mem_cons_of_mem _ hrun)) hseparated.tail
        (Or.inr ⟨rfl, fun run' hrun' => hseparated.lt_first hrun'⟩) ?_
      intro run' hrun' hupper
      rcases hreaches run' (List.mem_cons_of_mem _ hrun') hupper with hreached | ⟨run'', hrun'', hbelow, habove⟩
      · exact Or.inl (by omega)
      · rcases List.mem_cons.mp hrun'' with rfl | hrun''
        · exact Or.inl habove
        · exact Or.inr ⟨run'', hrun'', hbelow, habove⟩

/-- **Buckets that hold a map are that map.** -/
theorem Holds.isMap {vector : SparseVector α} (h : Holds vector.buckets map) : IsMap vector map where
  throws := fun element position => h.insert_none_iff
  invariant := by
    refine invariantLoop_eq h.bounded h.separated (Or.inl ⟨rfl, rfl⟩) ?_
    intro run hrun hupper
    have hlength := List.length_pos_of_ne_nil (h.separated.nonempty run hrun)
    obtain ⟨first, hfirst⟩ := mem_contents_of_lt hrun le_rfl (by omega)
    have hmiddle : map (2 ^ 63 - 1) ≠ none := by
      refine h.reaches run.1 hupper ?_
      rw [(h.mem_iff _ _).mp hfirst]
      exact Option.some_ne_none _
    obtain ⟨element, helement⟩ := Option.ne_none_iff_exists'.mp hmiddle
    obtain ⟨run', hrun', hle, hlt⟩ := lt_of_mem_contents ((h.mem_iff _ _).mpr helement)
    exact Or.inr ⟨run', hrun', by omega, by omega⟩
  element := fun position element hmap => atLoop_eq h.bounded h.separated ((h.mem_iff position element).mpr hmap)
  iterates := by
    refine ⟨contents vector.buckets, ?_, h.separated.spaced.pairwise_contents, h.mem_iff⟩
    rw [iterate, iterateFrom_eq h.bounded _ _ (by rw [size_eq, Nat.zero_add]), List.drop_zero]

/-! ## Runs of insertions -/

theorem inserts_cons (insertions : List (α × Nat)) :
    inserts ((element, position) :: insertions) = update (inserts insertions) element position := rfl

/-- What holds after insertions that go well. -/
theorem AllJoin.holds {insertions : List (α × Nat)} (h : AllJoin insertions) :
    Holds (inserted insertions).buckets (inserts insertions) := by
  induction insertions with
  | nil =>
      constructor
      · exact { nonempty := fun _ hrun => (nomatch hrun), gaps := List.Pairwise.nil }
      · exact fun _ hrun => nomatch hrun
      · exact fun _ _ => ⟨fun hmem => (nomatch hmem), fun hmap => (nomatch hmap)⟩
      · exact fun _ _ hne => absurd rfl hne
  | cons insertion insertions ih =>
      obtain ⟨element, position⟩ := insertion
      obtain ⟨hjoins, hrest⟩ := h
      have hholds := ih hrest
      rw [inserted, inserts_cons]
      by_cases htaken : inserts insertions position = none
      · obtain ⟨hbound, hbehind, hmiddle⟩ := hjoins.resolve_left (not_not.mpr htaken)
        obtain ⟨runs', hinsert, hholds'⟩ := hholds.insert htaken hbound hbehind hmiddle
        have hvector : (inserted insertions).insert element position = some { buckets := runs' } := hinsert
        rw [hvector]
        exact hholds'
      · have hthrow : (inserted insertions).insert element position = none := hholds.insert_none_iff.mpr htaken
        have hsame : update (inserts insertions) element position = inserts insertions := by
          funext query
          rw [update]
          by_cases hquery : query = position
          · obtain ⟨element', helement'⟩ := Option.ne_none_iff_exists'.mp htaken
            rw [hquery, helement', Option.some_or]
          · rw [if_neg hquery, Option.or_none]
        rw [hthrow, hsame]
        exact hholds

/-- **A sparse vector is a finite map** where no element is inserted in front of an existing one. -/
theorem isFiniteMap_of_allJoin (insertions : List (α × Nat)) (h : AllJoin insertions) :
    IsFiniteMap AllJoin insertions := by
  constructor
  · exact h.holds.isMap
  · intro insertions' h' hsame
    have hbuckets : (inserted insertions').buckets = (inserted insertions).buckets := by
      refine h'.holds.separated.eq_of_mem h.holds.separated ?_
      rintro ⟨position, element⟩
      rw [h'.holds.mem_iff, h.holds.mem_iff, hsame]
    rcases hleft : inserted insertions' with ⟨buckets⟩
    rcases hright : inserted insertions with ⟨buckets'⟩
    rw [hleft, hright] at hbuckets
    exact congrArg SparseVector.mk hbuckets

theorem isFiniteMap_two_ascending : IsFiniteMap AllJoin [('b', 2), ('a', 0)] := by
  refine isFiniteMap_of_allJoin _ ⟨Or.inr ⟨by decide, by decide, Or.inl (by decide)⟩, ?_⟩
  exact ⟨Or.inr ⟨by decide, by decide, Or.inl (by decide)⟩, trivial⟩

/-- An element at 1 and then one at 0 leave two runs without a gap. -/
theorem not_isFiniteMap_descending : ¬ IsFiniteMap (fun _ => True) [('a', 0), ('b', 1)] := by
  rintro ⟨hmap, -⟩
  exact absurd hmap.invariant (by decide)

end SparseVector

end EmbeddedInfra.Upgrade
