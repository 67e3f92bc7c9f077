import EmbeddedInfra.Services.CyclicStore.Reading
import EmbeddedInfra.Services.CyclicStore.Writing

set_option autoImplicit false

/-! # The ring of sectors

The sectors in use form a ring: the oldest one, and after it, cyclically, the others up to the
newest one, in which records are added. The ring is here as the store means it (`Ring`), and as it
lies in the flash (`Layout`), with the intermediate forms it takes during an addition.
-/

namespace EmbeddedInfra.CyclicStore

open NorMemory

/-! ## Positions in the ring -/

section

variable {D : Device} {first i j e : Nat}

/-- The sector at position `i` of a ring that begins with sector `first`. -/
def Device.sectorAt (D : Device) (first i : Nat) : Nat := (first + i) % D.numberOfSectors

theorem sectorAt_lt : D.sectorAt first i < D.numberOfSectors := Nat.mod_lt _ D.sectors_pos

theorem sectorAt_zero (h : first < D.numberOfSectors) : D.sectorAt first 0 = first :=
  Nat.mod_eq_of_lt h

theorem sectorAt_first_zero (h : i < D.numberOfSectors) : D.sectorAt 0 i = i := by
  rw [Device.sectorAt, Nat.zero_add, Nat.mod_eq_of_lt h]

theorem nextSector_sectorAt : D.nextSector (D.sectorAt first i) = D.sectorAt first (i + 1) := by
  unfold FlashHomogeneous.nextSector Device.sectorAt
  rw [Nat.mod_add_mod, Nat.add_assoc]

/-- Moving the beginning of the ring shifts the positions. -/
theorem sectorAt_nextSector : D.sectorAt (D.nextSector first) i = D.sectorAt first (i + 1) := by
  unfold FlashHomogeneous.nextSector Device.sectorAt
  rw [Nat.mod_add_mod, Nat.add_assoc, Nat.add_comm 1 i]

/-- Once around. -/
theorem sectorAt_all (h : first < D.numberOfSectors) :
    D.sectorAt first D.numberOfSectors = first := by
  rw [Device.sectorAt, Nat.add_mod_right, Nat.mod_eq_of_lt h]

theorem sectorAt_eq (h : first < D.numberOfSectors) (hi : i < D.numberOfSectors) :
    D.sectorAt first i = if first + i < D.numberOfSectors then first + i
      else first + i - D.numberOfSectors := by
  unfold Device.sectorAt
  split
  · exact Nat.mod_eq_of_lt (by assumption)
  · rw [Nat.mod_eq_sub_mod (by omega), Nat.mod_eq_of_lt (by omega)]

theorem sectorAt_inj (h : first < D.numberOfSectors) (hi : i < D.numberOfSectors)
    (hj : j < D.numberOfSectors) (heq : D.sectorAt first i = D.sectorAt first j) : i = j := by
  rw [sectorAt_eq h hi, sectorAt_eq h hj] at heq
  split at heq <;> split at heq <;> omega

/-- Every sector has a position. -/
theorem exists_sectorAt (h : first < D.numberOfSectors) (he : e < D.numberOfSectors) :
    ∃ i < D.numberOfSectors, D.sectorAt first i = e := by
  by_cases hle : first ≤ e
  · refine ⟨e - first, by omega, ?_⟩
    rw [sectorAt_eq h (by omega), if_pos (by omega)]
    omega
  · refine ⟨e + D.numberOfSectors - first, by omega, ?_⟩
    rw [sectorAt_eq h (by omega), if_neg (by omega)]
    omega

end

/-! ## The ring and its records -/

/-- Which records are in which sector: none at all, or the sectors from the oldest one, `first`, to
the newest one. -/
inductive Ring where
  | empty
  | sectors (first : Nat) (older : List (List (List UInt8))) (newest : List (List UInt8))
deriving DecidableEq

/-- The bytes that records take. -/
def recordsSize (rs : List (List UInt8)) : Nat := size (rs.map .ready)

namespace Ring

/-- The sector with the oldest records. -/
def first : Ring → Nat
  | empty => 0
  | sectors first _ _ => first

/-- All records, oldest first. -/
def records : Ring → List (List UInt8)
  | empty => []
  | sectors _ older newest => (older ++ [newest]).flatten

/-- The number of sectors in use. -/
def used : Ring → Nat
  | empty => 0
  | sectors _ older _ => older.length + 1

variable (D : Device)

/-- There is room for a record of `n` bytes in the newest sector. -/
def HasRoom (n : Nat) : Ring → Prop
  | empty => False
  | sectors _ _ newest => 1 + recordsSize newest + 3 + n ≤ D.sizeOfEachSector

instance (n : Nat) (r : Ring) : Decidable (r.HasRoom D n) := by
  cases r <;> unfold HasRoom <;> infer_instance

/-- A further sector; when all are in use, the oldest one is given up for it. -/
def newSector : Ring → Ring
  | empty => sectors 0 [] []
  | sectors first older newest =>
      if older.length + 1 < D.numberOfSectors then sectors first (older ++ [newest]) []
      else sectors (D.nextSector first) (older ++ [newest]).tail []

/-- The ring in which a record of `n` bytes fits. -/
def makeRoom (n : Nat) (r : Ring) : Ring := if r.HasRoom D n then r else r.newSector D

/-- The record is placed in the newest sector. -/
def put (d : List UInt8) : Ring → Ring
  | empty => empty
  | sectors first older newest => sectors first older (newest ++ [d])

/-- A record is added. -/
def add (r : Ring) (d : List UInt8) : Ring := (r.makeRoom D d.length).put d

/-- Adding to this ring gives up the oldest sector. -/
def GivesUp (n : Nat) (r : Ring) : Prop := ¬ r.HasRoom D n ∧ r.used = D.numberOfSectors

instance (n : Nat) (r : Ring) : Decidable (r.GivesUp D n) := by
  unfold GivesUp
  infer_instance

/-- The ring is one that additions lead to: as long as sectors are left, it begins with sector
`0`. -/
def WellFormed : Ring → Prop
  | empty => True
  | sectors first older _ => first < D.numberOfSectors ∧ older.length < D.numberOfSectors ∧
      (first = 0 ∨ older.length + 1 = D.numberOfSectors)

variable {D} {r : Ring} {d : List UInt8} {n first : Nat} {older : List (List (List UInt8))}
  {oldest newest : List (List UInt8)}

theorem newSector_left (h : older.length + 1 < D.numberOfSectors) :
    newSector D (sectors first older newest) = sectors first (older ++ [newest]) [] := if_pos h

theorem newSector_full (h : older.length + 2 = D.numberOfSectors) :
    newSector D (sectors first (oldest :: older) newest)
      = sectors (D.nextSector first) (older ++ [newest]) [] :=
  if_neg (by simp only [List.length_cons]; omega)

/-- Sectors are left, or the oldest one is one of at least two. -/
theorem left_or_full (h : (sectors first older newest).WellFormed D) :
    older.length + 1 < D.numberOfSectors ∨
      ∃ oldest rest, older = oldest :: rest ∧ rest.length + 2 = D.numberOfSectors := by
  have h2 := D.two_le
  obtain ⟨-, ho, -⟩ := h
  by_cases hlt : older.length + 1 < D.numberOfSectors
  · exact .inl hlt
  · cases older with
    | nil => exact absurd ho (by simp only [List.length_nil] at hlt ⊢; omega)
    | cons oldest rest =>
        refine .inr ⟨oldest, rest, rfl, ?_⟩
        simp only [List.length_cons] at hlt ho
        omega

theorem wellFormed_newSector (h : r.WellFormed D) : (r.newSector D).WellFormed D := by
  have h2 := D.two_le
  cases r with
  | empty => exact ⟨by omega, by simp only [List.length_nil]; omega, .inl rfl⟩
  | sectors first older newest =>
      rcases left_or_full h with hlt | ⟨oldest, rest, rfl, hfull⟩
      · rw [newSector_left hlt]
        refine ⟨h.1, by simpa using hlt, .inl ?_⟩
        exact h.2.2.resolve_right (by omega)
      · rw [newSector_full hfull]
        refine ⟨FlashHomogeneous.nextSector_lt _ _, by simp; omega, .inr (by simp; omega)⟩

theorem wellFormed_makeRoom (h : r.WellFormed D) (n : Nat) : (r.makeRoom D n).WellFormed D := by
  unfold makeRoom
  split
  · exact h
  · exact wellFormed_newSector h

theorem wellFormed_put (h : r.WellFormed D) (d : List UInt8) : (r.put d).WellFormed D := by
  cases r with
  | empty => trivial
  | sectors first older newest => exact h

theorem wellFormed_add (h : r.WellFormed D) (d : List UInt8) : (r.add D d).WellFormed D :=
  wellFormed_put (wellFormed_makeRoom h _) d

theorem records_put (h : r ≠ .empty) (d : List UInt8) : (r.put d).records = r.records ++ [d] := by
  cases r with
  | empty => exact (h rfl).elim
  | sectors first older newest => simp [put, records]

theorem newSector_ne_empty (r : Ring) : r.newSector D ≠ .empty := by
  unfold newSector
  split
  · simp
  · split <;> simp

/-- A further sector is empty. -/
theorem newest_newSector (h : r.newSector D = sectors first older newest) : newest = [] := by
  unfold newSector at h
  split at h
  · cases h
    rfl
  · split at h <;> cases h <;> rfl

theorem makeRoom_ne_empty (r : Ring) (n : Nat) : r.makeRoom D n ≠ .empty := by
  unfold makeRoom
  split
  · rename_i h
    intro he
    rw [he] at h
    exact h
  · exact newSector_ne_empty r

theorem records_add (r : Ring) (d : List UInt8) :
    (r.add D d).records = (r.makeRoom D d.length).records ++ [d] :=
  records_put (makeRoom_ne_empty r _) d

/-- The records in the sector that making room for `n` bytes gives up. -/
def lost (D : Device) (n : Nat) (r : Ring) : List (List UInt8) :=
  match r with
  | empty => []
  | sectors _ older newest =>
      if r.GivesUp D n then (older ++ [newest]).headD [] else []

/-- Making room loses the records of the oldest sector, or nothing. -/
theorem records_makeRoom (h : r.WellFormed D) (n : Nat) :
    r.records = r.lost D n ++ (r.makeRoom D n).records := by
  cases r with
  | empty => rfl
  | sectors first older newest =>
      unfold lost makeRoom
      by_cases hroom : (sectors first older newest).HasRoom D n
      · have hgive : ¬ (sectors first older newest).GivesUp D n := fun hg => hg.1 hroom
        simp only [if_pos hroom, if_neg hgive, List.nil_append]
      · rcases left_or_full h with hlt | ⟨oldest, rest, rfl, hfull⟩
        · have hgive : ¬ (sectors first older newest).GivesUp D n := by
            intro hg
            have : older.length + 1 = D.numberOfSectors := hg.2
            omega
          simp only [if_neg hroom, if_neg hgive, newSector_left hlt]
          simp [records]
        · have hgive : (sectors first (oldest :: rest) newest).GivesUp D n :=
            ⟨hroom, by simp only [used, List.length_cons]; omega⟩
          simp only [if_neg hroom, if_pos hgive, newSector_full hfull]
          simp [records]

end Ring

/-! ## The ring in the flash -/

/-- How a ring that is not empty lies in the flash: whether its oldest sector is `marked` as the
first of the cycle, and whether its newest sector is `closed`. -/
structure Layout where
  first : Nat
  marked : Bool := true
  older : List (List Block)
  newest : List Block
  closed : Bool := false

namespace Layout

/-- The sector at position `i`. -/
def sector (L : Layout) (i : Nat) : Sector :=
  if i < L.older.length then .inUse (L.marked && i == 0) (L.older.getD i []) true
  else if i = L.older.length then .inUse (L.marked && i == 0) L.newest L.closed
  else .erased

/-- The newest sector. -/
def current (D : Device) (L : Layout) : Nat := D.sectorAt L.first L.older.length

/-- The complete records, oldest first. -/
def records (L : Layout) : List (List UInt8) := (L.older ++ [L.newest]).flatMap CyclicStore.records

variable {L : Layout} {i : Nat}

theorem sector_newest : L.sector L.older.length
    = .inUse (L.marked && L.older.length == 0) L.newest L.closed := by
  rw [sector, if_neg (Nat.lt_irrefl _), if_pos rfl]

theorem sector_beyond (h : L.older.length < i) : L.sector i = .erased := by
  rw [sector, if_neg (by omega), if_neg (by omega)]

theorem sector_older {pre suf : List (List Block)} {b : List Block} (h : L.older = pre ++ b :: suf) :
    L.sector pre.length = .inUse (L.marked && pre.length == 0) b true := by
  have hlt : pre.length < L.older.length := by
    rw [h]
    simp
  rw [sector, if_pos hlt, h]
  simp

end Layout

/-- The flash contains the ring as laid out. -/
structure Contains (D : Device) (m : Memory) (L : Layout) (F : Nat → Sector) : Prop where
  holds : Holds D m F
  first_lt : L.first < D.numberOfSectors
  older_lt : L.older.length < D.numberOfSectors
  sector : ∀ i < D.numberOfSectors, F (D.sectorAt L.first i) = L.sector i

namespace Contains

variable {D : Device} {m m' : Memory} {L L' : Layout} {F : Nat → Sector} {c : Sector} {i : Nat}

theorem newest (h : Contains D m L F) : F (L.current D)
    = .inUse (L.marked && L.older.length == 0) L.newest L.closed := by
  rw [Layout.current, h.sector _ h.older_lt, Layout.sector_newest]

theorem newest_fits (h : Contains D m L F) : 1 + size L.newest ≤ D.sizeOfEachSector := by
  have hfit := (h.holds (L.current D) sectorAt_lt).1
  rw [h.newest] at hfit
  exact hfit

/-- The sector after the newest one: erased, or the oldest one. -/
theorem next (h : Contains D m L F) : F (D.nextSector (L.current D))
    = if L.older.length + 1 < D.numberOfSectors then .erased else L.sector 0 := by
  rw [Layout.current, nextSector_sectorAt]
  split
  · rename_i hlt
    rw [h.sector _ hlt, Layout.sector_beyond (Nat.lt_succ_self _)]
  · have := h.older_lt
    have hall : L.older.length + 1 = D.numberOfSectors := by omega
    rw [hall, sectorAt_all h.first_lt, ← h.sector 0 D.sectors_pos, sectorAt_zero h.first_lt]

/-- The sector at position `j` changes. -/
theorem update (h : Contains D m L F) {j : Nat} (hj : j < D.numberOfSectors)
    (hm : Holds D m' (Function.update F (D.sectorAt L.first j) c)) (hfirst : L'.first = L.first)
    (hlt : L'.older.length < D.numberOfSectors) (hc : L'.sector j = c)
    (hother : ∀ i < D.numberOfSectors, i ≠ j → L'.sector i = L.sector i) :
    Contains D m' L' (Function.update F (D.sectorAt L.first j) c) := by
  refine ⟨hm, hfirst ▸ h.first_lt, hlt, fun i hi => ?_⟩
  rw [hfirst]
  by_cases hij : i = j
  · subst hij
    rw [Function.update_self, hc]
  · have hne : D.sectorAt L.first i ≠ D.sectorAt L.first j :=
      fun heq => hij (sectorAt_inj h.first_lt hi hj heq)
    rw [Function.update_of_ne hne, h.sector i hi, hother i hi hij]

/-- The newest sector changes. -/
theorem updateNewest (h : Contains D m L F) {blocks : List Block} {closed : Bool}
    (hm : Holds D m' (Function.update F (L.current D)
      (.inUse (L.marked && L.older.length == 0) blocks closed))) :
    Contains D m' { L with newest := blocks, closed := closed } (Function.update F (L.current D)
      (.inUse (L.marked && L.older.length == 0) blocks closed)) := by
  refine h.update h.older_lt hm rfl h.older_lt ?_ (fun i hi hne => ?_)
  · exact Layout.sector_newest (L := { L with newest := blocks, closed := closed })
  · simp only [Layout.sector, if_neg hne]

end Contains

/-! ## Iterating over the ring -/

section

variable {D : Device} {s : Store} {L : Layout} {F : Nat → Sector} {buffer : List UInt8}

/-- The sector at a position that is in use. -/
theorem Layout.sector_inUse {pre suf : List (List Block)} (h : L.older = pre ++ suf) :
    ∃ closed, L.sector pre.length
      = .inUse (L.marked && pre.length == 0) ((suf ++ [L.newest]).headD []) closed := by
  cases suf with
  | nil =>
      rw [List.append_nil] at h
      rw [← h]
      exact ⟨L.closed, Layout.sector_newest⟩
  | cons b suf => exact ⟨true, Layout.sector_older h⟩

/-- The oldest sector. -/
theorem Layout.sector_zero (L : Layout) :
    ∃ closed, L.sector 0 = .inUse L.marked ((L.older ++ [L.newest]).headD []) closed := by
  obtain ⟨closed, hsec⟩ := Layout.sector_inUse (show L.older = [] ++ L.older from rfl)
  exact ⟨closed, by simpa using hsec⟩

/-- The end of the newest sector is the end of the iteration. -/
theorem Contains.delivers_newest (h : Contains D s.flash L F)
    (hend : L.marked = true ∨ L.older.length + 1 < D.numberOfSectors) :
    Delivers D F (L.current D) L.newest [] [] := by
  have hfit := h.newest_fits
  have hnext : entryStatus F (D.nextSector (L.current D)) ≠ SectorStatus.used := by
    rw [entryStatus, h.next]
    by_cases hlt : L.older.length + 1 < D.numberOfSectors
    · rw [if_pos hlt]
      simp [SectorStatus.empty, SectorStatus.used]
    · rw [if_neg hlt]
      obtain ⟨closed, hsec⟩ := L.sector_zero
      rw [hsec, hend.resolve_right hlt]
      simp [SectorStatus.empty, SectorStatus.used]
  cases hc : L.closed with
  | true => exact .last h.newest (.inl hc) hnext
  | false =>
      by_cases hlt : 1 + size L.newest < D.sizeOfEachSector
      · exact .openEnd (hc ▸ h.newest) hlt
      · exact .last h.newest (.inr (by omega)) hnext

/-- An iteration that begins at some position delivers the records from there on. -/
theorem Contains.delivers (h : Contains D s.flash L F)
    (hend : L.marked = true ∨ L.older.length + 1 < D.numberOfSectors)
    (holder : ∀ blocks ∈ L.older, ∀ e, Walkable D e [] blocks)
    (hnewest : Walkable D (L.current D) [] L.newest) (suf : List (List Block)) :
    ∀ pre, L.older = pre ++ suf → Delivers D F (D.sectorAt L.first pre.length) []
      ((suf ++ [L.newest]).headD []) ((suf ++ [L.newest]).flatMap records) := by
  induction suf with
  | nil =>
      intro pre hpre
      rw [List.append_nil] at hpre
      have hnew := delivers_blocks (show F (L.current D) = .inUse _ ([] ++ L.newest) _ from h.newest)
        hnewest (h.delivers_newest hend)
      rw [← hpre]
      show Delivers D F (L.current D) [] _ _
      simpa using hnew
  | cons b suf ih =>
      intro pre hpre
      have hlen : pre.length + 1 < D.numberOfSectors := by
        have := h.older_lt
        rw [hpre, List.length_append, List.length_cons] at this
        omega
      have hsec : F (D.sectorAt L.first pre.length) = .inUse (L.marked && pre.length == 0) b true := by
        rw [h.sector _ (by omega), Layout.sector_older hpre]
      have hpre' : L.older = (pre ++ [b]) ++ suf := by rw [hpre, List.append_assoc]; rfl
      have hrest := ih (pre ++ [b]) hpre'
      rw [List.length_append, List.length_singleton] at hrest
      -- the next sector is not the first one of the cycle
      obtain ⟨closed, hnext⟩ := Layout.sector_inUse hpre'
      rw [List.length_append, List.length_singleton, ← h.sector _ hlen, ← nextSector_sectorAt,
        show (L.marked && pre.length + 1 == 0) = false by simp] at hnext
      rw [← nextSector_sectorAt] at hrest
      refine delivers_blocks
        (show F (D.sectorAt L.first pre.length) = .inUse _ ([] ++ b) true from hsec)
        (holder b (by rw [hpre]; simp) _) ?_
      exact .next hsec (.inl rfl) hnext hrest

/-- A new iterator delivers the records of the ring. -/
theorem Contains.iterates (h : Contains D s.flash L F) (hS : 1 < D.sizeOfEachSector)
    (hend : L.marked = true ∨ L.older.length + 1 < D.numberOfSectors)
    (holder : ∀ blocks ∈ L.older, ∀ e, Walkable D e [] blocks)
    (hnewest : Walkable D (L.current D) [] L.newest)
    (hstart : s.startAddress = L.first * D.sizeOfEachSector)
    (hbuf : ∀ d ∈ L.records, d.length ≤ buffer.length) : Iterates D s buffer {} L.records := by
  have hdel := h.delivers hend holder hnewest L.older [] rfl
  obtain ⟨closed, hsec⟩ := L.sector_zero
  rw [List.length_nil, sectorAt_zero h.first_lt] at hdel
  rw [← h.sector 0 D.sectors_pos, sectorAt_zero h.first_lt] at hsec
  exact iterates_of_delivers h.holds hS h.first_lt hstart hsec hdel hbuf

end

end EmbeddedInfra.CyclicStore
