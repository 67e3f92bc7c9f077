import Mathlib.Tactic

set_option autoImplicit false

/-! # Searching in a bounded string

The six families of searches of `infra::BoundedString` as its loops run, and where `std::string` finds something.
Iterators are counted from `begin()`; a loop that runs backwards stops in front of it. A character is read at a
position of the string or not at all: everything else has no result.

`find_last_of` and `find_last_not_of` start one in front of the position they are given, where `std::string` starts at
it. So they pass over a hit at the position itself (`agrees_iff`).
-/

namespace EmbeddedInfra.BoundedStringSearching

/-! ## What the loops use -/

/-- The characters `[i, i + count)` of the string. -/
def slice (s : List UInt8) (i count : Nat) : Option (List UInt8) :=
  if i + count ≤ s.length then some ((s.drop i).take count) else none

def compareImpl : List UInt8 → List UInt8 → Int
  | [], [] => 0
  | _ :: _, [] => 1
  | [], _ :: _ => -1
  | c :: range, c' :: range' => if c ≠ c' then (if c < c' then -1 else 1) else compareImpl range range'

def strlen : List UInt8 → Option Nat
  | [] => none
  | c :: memory => if c = 0 then some 0 else (strlen memory).map (· + 1)

/-! ## The loops

The result `npos` is `none`. -/

/-- `for (i = begin() + pos; i + count <= end(); ++i)` -/
def findLoop (s needle : List UInt8) (i : Nat) : Option (Option Nat) :=
  if i + needle.length ≤ s.length then
    match slice s i needle.length with
    | none => none
    | some range => if compareImpl range needle = 0 then some (some i) else findLoop s needle (i + 1)
  else some none
termination_by s.length + 1 - i

def find (s needle : List UInt8) (pos : Nat) : Option (Option Nat) :=
  if pos ≤ s.length then findLoop s needle pos else none

/-- `for (...; i >= begin(); --i)`, where as many positions are left. -/
def rfindLoop (s needle : List UInt8) : Nat → Option (Option Nat)
  | 0 => some none
  | i + 1 =>
      match slice s i needle.length with
      | none => none
      | some range => if compareImpl range needle = 0 then some (some i) else rfindLoop s needle i

/-- With a needle that is longer than the string, `end() - count` lies in front of `begin()`. -/
def rfind (s needle : List UInt8) (pos : Nat) : Option (Option Nat) :=
  let pos := min pos s.length
  if needle.length ≤ s.length then rfindLoop s needle (min pos (s.length - needle.length) + 1) else some none

/-- `for (i = begin() + pos; i != end(); ++i)` -/
def firstLoop (hit : UInt8 → Bool) (s : List UInt8) (i : Nat) : Option (Option Nat) :=
  if i = s.length then some none
  else if h : i < s.length then if hit s[i] then some (some i) else firstLoop hit s (i + 1)
  else none
termination_by s.length - i

/-- `for (i = begin() + pos - 1; i >= begin(); --i)` -/
def lastLoop (hit : UInt8 → Bool) (s : List UInt8) : Nat → Option (Option Nat)
  | 0 => some none
  | i + 1 =>
      match s[i]? with
      | none => none
      | some c => if hit c then some (some i) else lastLoop hit s i

def findFirstOf (s set : List UInt8) (pos : Nat) : Option (Option Nat) :=
  firstLoop (fun c => set.contains c) s (min pos s.length)

def findFirstNotOf (s set : List UInt8) (pos : Nat) : Option (Option Nat) :=
  firstLoop (fun c => !set.contains c) s (min pos s.length)

def findLastOf (s set : List UInt8) (pos : Nat) : Option (Option Nat) :=
  lastLoop (fun c => set.contains c) s (min pos s.length)

def findLastNotOf (s set : List UInt8) (pos : Nat) : Option (Option Nat) :=
  lastLoop (fun c => !set.contains c) s (min pos s.length)

/-! ## Calls -/

inductive Family
  | find
  | rfind
  | findFirstOf
  | findFirstNotOf
  | findLastOf
  | findLastNotOf
deriving DecidableEq

/-- What is searched for: another string, an array with a count, a C string, or a character. Of a pointer, the
characters from it on. -/
inductive Needle
  | string (other : List UInt8)
  | array (s : List UInt8) (count : Nat)
  | cString (s : List UInt8)
  | char (ch : UInt8)
deriving DecidableEq

/-- The characters that the overload with a count is given. -/
def Needle.characters : Needle → Option (List UInt8)
  | string other => some other
  | array s count => slice s 0 count
  | cString s => (strlen s).map fun count => s.take count
  | char ch => some [ch]

/-- The overload with a count. -/
def Family.search : Family → List UInt8 → List UInt8 → Nat → Option (Option Nat)
  | find => BoundedStringSearching.find
  | rfind => BoundedStringSearching.rfind
  | findFirstOf => BoundedStringSearching.findFirstOf
  | findFirstNotOf => BoundedStringSearching.findFirstNotOf
  | findLastOf => BoundedStringSearching.findLastOf
  | findLastNotOf => BoundedStringSearching.findLastNotOf

/-- `rfind` of another string clamps the position before the overload with a count does. -/
def Family.call (family : Family) (s : List UInt8) (needle : Needle) (pos : Nat) : Option (Option Nat) := do
  let characters ← needle.characters
  match family, needle with
  | rfind, .string _ => family.search s characters (min pos s.length)
  | _, _ => family.search s characters pos

/-! ## What `std::string` finds -/

/-- The lowest position with a property, if there is one. -/
def Lowest (P : Nat → Prop) (result : Option Nat) : Prop := ∀ i, result = some i ↔ P i ∧ ∀ j < i, ¬ P j

/-- The highest position with a property, if there is one. -/
def Highest (P : Nat → Prop) (result : Option Nat) : Prop := ∀ i, result = some i ↔ P i ∧ ∀ j, i < j → ¬ P j

/-- The characters occur at this position. -/
def OccursAt (s characters : List UInt8) (i : Nat) : Prop :=
  i + characters.length ≤ s.length ∧ (s.drop i).take characters.length = characters

/-- A position of the string whose character is a hit. -/
def HitAt (hit : UInt8 → Bool) (s : List UInt8) (i : Nat) : Prop := ∃ c, s[i]? = some c ∧ hit c = true

def Family.Finds : Family → List UInt8 → List UInt8 → Nat → Option Nat → Prop
  | find, s, characters, pos => Lowest fun i => pos ≤ i ∧ OccursAt s characters i
  | rfind, s, characters, pos => Highest fun i => i ≤ pos ∧ OccursAt s characters i
  | findFirstOf, s, characters, pos => Lowest fun i => pos ≤ i ∧ HitAt (fun c => characters.contains c) s i
  | findFirstNotOf, s, characters, pos => Lowest fun i => pos ≤ i ∧ HitAt (fun c => !characters.contains c) s i
  | findLastOf, s, characters, pos => Highest fun i => i ≤ pos ∧ HitAt (fun c => characters.contains c) s i
  | findLastNotOf, s, characters, pos => Highest fun i => i ≤ pos ∧ HitAt (fun c => !characters.contains c) s i

/-- The characters of the needle are there. -/
def Needle.Valid : Needle → Prop
  | array s count => count ≤ s.length
  | cString s => 0 ∈ s
  | _ => True

/-- The positions that a family admits: `find` asserts that there is one. -/
def Family.Admits : Family → List UInt8 → Nat → Prop
  | find, s, pos => pos ≤ s.length
  | _, _, _ => True

/-- **The condition**: the last families are not asked to look at a hit that lies at the position itself. -/
def Family.Condition : Family → List UInt8 → List UInt8 → Nat → Prop
  | findLastOf, s, characters, pos => ¬ HitAt (fun c => characters.contains c) s pos
  | findLastNotOf, s, characters, pos => ¬ HitAt (fun c => !characters.contains c) s pos
  | _, _, _, _ => True

/-! ## Where loops stop -/

section Loops

variable {P : Nat → Prop} {s needle : List UInt8} {hit : UInt8 → Bool} {result result' : Option Nat} {i n pos : Nat}

theorem Lowest.here (h : P i) : Lowest (fun j => i ≤ j ∧ P j) (some i) := by
  intro k
  constructor
  · intro hk
    obtain rfl := Option.some.inj hk
    exact ⟨⟨le_rfl, h⟩, fun j hj hle => absurd hle.1 (Nat.not_le_of_lt hj)⟩
  · rintro ⟨⟨hle, -⟩, hlow⟩
    rcases Nat.eq_or_lt_of_le hle with rfl | hlt
    · rfl
    · exact absurd ⟨le_rfl, h⟩ (hlow i hlt)

theorem Lowest.next (hnot : ¬ P i) (h : Lowest (fun j => i + 1 ≤ j ∧ P j) result) :
    Lowest (fun j => i ≤ j ∧ P j) result := by
  have hsame : (fun j => i ≤ j ∧ P j) = fun j => i + 1 ≤ j ∧ P j := by
    funext j
    apply propext
    constructor
    · rintro ⟨hle, hj⟩
      rcases Nat.eq_or_lt_of_le hle with rfl | hlt
      · exact absurd hj hnot
      · exact ⟨hlt, hj⟩
    · rintro ⟨hle, hj⟩
      exact ⟨Nat.le_of_succ_le hle, hj⟩
  rwa [hsame]

theorem Lowest.empty (h : ∀ j, ¬ P j) : Lowest P none := by
  intro i
  constructor
  · intro hi
    cases hi
  · rintro ⟨hi, -⟩
    exact absurd hi (h i)

theorem Highest.here (h : P i) : Highest (fun j => j < i + 1 ∧ P j) (some i) := by
  intro k
  constructor
  · intro hk
    obtain rfl := Option.some.inj hk
    exact ⟨⟨Nat.lt_succ_self _, h⟩, fun j hj hlt => absurd hlt.1 (Nat.not_lt_of_le hj)⟩
  · rintro ⟨⟨hlt, -⟩, hhigh⟩
    rcases Nat.eq_or_lt_of_le (Nat.le_of_lt_succ hlt) with rfl | hlt
    · rfl
    · exact absurd ⟨Nat.lt_succ_self _, h⟩ (hhigh i hlt)

theorem Highest.next (hnot : ¬ P i) : Highest (fun j => j < i + 1 ∧ P j) result ↔ Highest (fun j => j < i ∧ P j) result := by
  have hsame : (fun j => j < i + 1 ∧ P j) = fun j => j < i ∧ P j := by
    funext j
    apply propext
    constructor
    · rintro ⟨hlt, hj⟩
      rcases Nat.eq_or_lt_of_le (Nat.le_of_lt_succ hlt) with rfl | hlt
      · exact absurd hj hnot
      · exact ⟨hlt, hj⟩
    · rintro ⟨hlt, hj⟩
      exact ⟨Nat.lt_succ_of_lt hlt, hj⟩
  rw [hsame]

theorem Highest.empty (h : ∀ j, ¬ P j) : Highest P none := by
  intro i
  constructor
  · intro hi
    cases hi
  · rintro ⟨hi, -⟩
    exact absurd hi (h i)

theorem compareImpl_eq_zero_iff {range needle : List UInt8} : compareImpl range needle = 0 ↔ range = needle := by
  induction range generalizing needle with
  | nil => cases needle <;> simp [compareImpl]
  | cons c range ih =>
      cases needle with
      | nil => simp [compareImpl]
      | cons c' needle =>
          rw [compareImpl]
          by_cases hc : c = c'
          · rw [if_neg (by simpa using hc), ih, hc, List.cons.injEq, eq_self_iff_true, true_and]
          · have hne : (if c < c' then (-1 : Int) else 1) ≠ 0 := by split_ifs <;> decide
            rw [if_pos hc]
            exact iff_of_false hne fun hsame => hc (List.cons.inj hsame).1

theorem strlen_eq {memory : List UInt8} (h : 0 ∈ memory) : ∃ count, strlen memory = some count := by
  induction memory with
  | nil => cases h
  | cons c memory ih =>
      rw [strlen]
      split_ifs with hc
      · exact ⟨0, rfl⟩
      · obtain ⟨count, hcount⟩ := ih ((List.mem_cons.mp h).resolve_left fun hzero => hc hzero.symm)
        exact ⟨count + 1, by rw [hcount]; rfl⟩

/-! ## What the loops find -/

theorem findLoop_spec (s needle : List UInt8) (i : Nat) :
    ∃ result, findLoop s needle i = some result ∧ Lowest (fun j => i ≤ j ∧ OccursAt s needle j) result := by
  -- by the number of positions that are left
  induction hn : s.length + 1 - i using Nat.strong_induction_on generalizing i with
  | _ n ih =>
      rw [findLoop]
      split_ifs with hfits
      · rw [slice, if_pos hfits]
        dsimp only
        by_cases hequal : (s.drop i).take needle.length = needle
        · rw [if_pos (compareImpl_eq_zero_iff.mpr hequal)]
          exact ⟨some i, rfl, .here ⟨hfits, hequal⟩⟩
        · rw [if_neg fun hzero => hequal (compareImpl_eq_zero_iff.mp hzero)]
          obtain ⟨result, hloop, hresult⟩ := ih _ (by omega) (i + 1) rfl
          exact ⟨result, hloop, hresult.next fun hoccurs => hequal hoccurs.2⟩
      · refine ⟨none, rfl, .empty ?_⟩
        rintro j ⟨hle, hoccurs, -⟩
        omega

theorem rfindLoop_spec (h : n + needle.length ≤ s.length + 1) :
    ∃ result, rfindLoop s needle n = some result ∧ Highest (fun j => j < n ∧ OccursAt s needle j) result := by
  induction n with
  | zero => exact ⟨none, rfl, .empty fun j hj => absurd hj.1 (Nat.not_lt_zero j)⟩
  | succ i ih =>
      have hfits : i + needle.length ≤ s.length := by omega
      rw [rfindLoop, slice, if_pos hfits]
      dsimp only
      by_cases hequal : (s.drop i).take needle.length = needle
      · rw [if_pos (compareImpl_eq_zero_iff.mpr hequal)]
        exact ⟨some i, rfl, .here ⟨hfits, hequal⟩⟩
      · rw [if_neg fun hzero => hequal (compareImpl_eq_zero_iff.mp hzero)]
        obtain ⟨result, hloop, hresult⟩ := ih (by omega)
        exact ⟨result, hloop, (Highest.next fun hoccurs => hequal hoccurs.2).mpr hresult⟩

theorem hitAt_iff (h : i < s.length) : HitAt hit s i ↔ hit s[i] = true := by
  simp [HitAt, List.getElem?_eq_getElem h]

theorem HitAt.lt (h : HitAt hit s i) : i < s.length := by
  obtain ⟨c, hc, -⟩ := h
  exact (List.getElem?_eq_some_iff.mp hc).1

theorem firstLoop_spec (hit : UInt8 → Bool) (h : i ≤ s.length) :
    ∃ result, firstLoop hit s i = some result ∧ Lowest (fun j => i ≤ j ∧ HitAt hit s j) result := by
  induction hn : s.length - i using Nat.strong_induction_on generalizing i with
  | _ n ih =>
      rw [firstLoop]
      split_ifs with hend hlt hhit
      · refine ⟨none, rfl, .empty ?_⟩
        rintro j ⟨hle, hj⟩
        exact absurd hj.lt (by omega)
      · exact ⟨some i, rfl, .here ((hitAt_iff hlt).mpr hhit)⟩
      · obtain ⟨result, hloop, hresult⟩ := ih _ (by omega) hlt rfl
        exact ⟨result, hloop, hresult.next fun hi => hhit ((hitAt_iff hlt).mp hi)⟩
      · omega

theorem lastLoop_spec (hit : UInt8 → Bool) (h : n ≤ s.length) :
    ∃ result, lastLoop hit s n = some result ∧ Highest (fun j => j < n ∧ HitAt hit s j) result := by
  induction n with
  | zero => exact ⟨none, rfl, .empty fun j hj => absurd hj.1 (Nat.not_lt_zero j)⟩
  | succ i ih =>
      rw [lastLoop, List.getElem?_eq_getElem h]
      dsimp only
      split_ifs with hhit
      · exact ⟨some i, rfl, .here ((hitAt_iff h).mpr hhit)⟩
      · obtain ⟨result, hloop, hresult⟩ := ih (Nat.le_of_lt h)
        exact ⟨result, hloop, (Highest.next fun hi => hhit ((hitAt_iff h).mp hi)).mpr hresult⟩

/-! ## From loops to searches -/

/-- The clamp of the position leaves out nothing. -/
theorem findFirst_spec (hit : UInt8 → Bool) (s : List UInt8) (pos : Nat) :
    ∃ result, firstLoop hit s (min pos s.length) = some result ∧
      Lowest (fun i => pos ≤ i ∧ HitAt hit s i) result := by
  obtain ⟨result, hloop, hresult⟩ := firstLoop_spec hit (Nat.min_le_right pos s.length)
  refine ⟨result, hloop, ?_⟩
  have hsame : (fun i => pos ≤ i ∧ HitAt hit s i) = fun i => min pos s.length ≤ i ∧ HitAt hit s i := by
    funext i
    apply propext
    constructor
    · rintro ⟨hle, hi⟩
      exact ⟨Nat.le_trans (Nat.min_le_left _ _) hle, hi⟩
    · rintro ⟨hle, hi⟩
      have hlt := hi.lt
      exact ⟨by omega, hi⟩
  rwa [hsame]

/-- **A loop that starts in front of the position** finds the same where there is no hit at the position. -/
theorem findLast_spec (hit : UInt8 → Bool) (s : List UInt8) (pos : Nat) :
    ∃ result, lastLoop hit s (min pos s.length) = some result ∧
      (Highest (fun i => i ≤ pos ∧ HitAt hit s i) result ↔ ¬ HitAt hit s pos) := by
  obtain ⟨result, hloop, hresult⟩ := lastLoop_spec hit (Nat.min_le_right pos s.length)
  have hfront : (fun i => i < min pos s.length ∧ HitAt hit s i) = fun i => i < pos ∧ HitAt hit s i := by
    funext i
    apply propext
    constructor
    · rintro ⟨hlt, hi⟩
      exact ⟨Nat.lt_of_lt_of_le hlt (Nat.min_le_left _ _), hi⟩
    · rintro ⟨hlt, hi⟩
      exact ⟨Nat.lt_min.mpr ⟨hlt, hi.lt⟩, hi⟩
  have hupTo : (fun i => i ≤ pos ∧ HitAt hit s i) = fun i => i < pos + 1 ∧ HitAt hit s i := by
    funext i
    rw [Nat.lt_succ_iff]
  rw [hfront] at hresult
  rw [hupTo]
  refine ⟨result, hloop, ?_⟩
  constructor
  · intro hhighest hhit
    have hsame := (hhighest pos).mpr ⟨⟨Nat.lt_succ_self pos, hhit⟩, fun j hj hlt => absurd hlt.1 (by omega)⟩
    exact absurd ((hresult pos).mp hsame).1.1 (Nat.lt_irrefl pos)
  · intro hhit
    exact (Highest.next hhit).mpr hresult

theorem rfind_spec (s needle : List UInt8) (pos : Nat) :
    ∃ result, rfind s needle pos = some result ∧ Highest (fun i => i ≤ pos ∧ OccursAt s needle i) result := by
  rw [rfind]
  split_ifs with hfits
  · obtain ⟨result, hloop, hresult⟩ :=
      @rfindLoop_spec s needle (min (min pos s.length) (s.length - needle.length) + 1) (by omega)
    refine ⟨result, hloop, ?_⟩
    have hsame : (fun i => i ≤ pos ∧ OccursAt s needle i) =
        fun i => i < min (min pos s.length) (s.length - needle.length) + 1 ∧ OccursAt s needle i := by
      funext i
      apply propext
      constructor
      · rintro ⟨hle, hi⟩
        have hlength := hi.1
        exact ⟨by omega, hi⟩
      · rintro ⟨hlt, hi⟩
        exact ⟨by omega, hi⟩
    rwa [hsame]
  · refine ⟨none, rfl, .empty ?_⟩
    rintro i ⟨-, hi, -⟩
    omega

theorem rfind_min (s needle : List UInt8) (pos : Nat) : rfind s needle (min pos s.length) = rfind s needle pos := by
  have hmin := Nat.min_eq_left (Nat.min_le_right pos s.length)
  simp only [rfind, hmin]

theorem Needle.Valid.characters {needle : Needle} (h : needle.Valid) :
    ∃ characters, needle.characters = some characters := by
  cases needle with
  | string other => exact ⟨other, rfl⟩
  | array s count => exact ⟨_, if_pos (by rwa [Nat.zero_add])⟩
  | cString s =>
      obtain ⟨count, hcount⟩ := strlen_eq h
      exact ⟨s.take count, by rw [Needle.characters, hcount]; rfl⟩
  | char ch => exact ⟨[ch], rfl⟩

theorem Family.call_eq {family : Family} {needle : Needle} {characters : List UInt8}
    (h : needle.characters = some characters) : family.call s needle pos = family.search s characters pos := by
  rw [Family.call, h]
  cases family <;> cases needle <;> try rfl
  exact rfind_min s characters pos

end Loops

/-- **Which searches find what `std::string` finds**, and read characters of the string alone. -/
theorem agrees_iff (family : Family) (s : List UInt8) (needle : Needle) (pos : Nat) (hvalid : needle.Valid)
    (hadmits : family.Admits s pos) :
    ∃ characters result, needle.characters = some characters ∧ family.call s needle pos = some result ∧
      (family.Finds s characters pos result ↔ family.Condition s characters pos) := by
  obtain ⟨characters, hcharacters⟩ := hvalid.characters
  have hsearch : ∃ result, family.search s characters pos = some result ∧
      (family.Finds s characters pos result ↔ family.Condition s characters pos) := by
    cases family with
    | find =>
        obtain ⟨result, hloop, hresult⟩ := findLoop_spec s characters pos
        exact ⟨result, (if_pos hadmits).trans hloop, iff_of_true hresult trivial⟩
    | rfind =>
        obtain ⟨result, hloop, hresult⟩ := rfind_spec s characters pos
        exact ⟨result, hloop, iff_of_true hresult trivial⟩
    | findFirstOf =>
        obtain ⟨result, hloop, hresult⟩ := findFirst_spec (fun c => characters.contains c) s pos
        exact ⟨result, hloop, iff_of_true hresult trivial⟩
    | findFirstNotOf =>
        obtain ⟨result, hloop, hresult⟩ := findFirst_spec (fun c => !characters.contains c) s pos
        exact ⟨result, hloop, iff_of_true hresult trivial⟩
    | findLastOf => exact findLast_spec (fun c => characters.contains c) s pos
    | findLastNotOf => exact findLast_spec (fun c => !characters.contains c) s pos
  obtain ⟨result, hresult, hiff⟩ := hsearch
  exact ⟨characters, result, hcharacters, (Family.call_eq hcharacters).trans hresult, hiff⟩

theorem agrees_iff_lastOf :
    ∃ characters result, (Needle.char 0x62).characters = some characters ∧
      Family.findLastOf.call [0x61, 0x62, 0x63] (.char 0x62) 2 = some result ∧
      Family.findLastOf.Finds [0x61, 0x62, 0x63] characters 2 result := by
  obtain ⟨characters, result, hcharacters, hcall, hiff⟩ :=
    agrees_iff .findLastOf [0x61, 0x62, 0x63] (.char 0x62) 2 trivial trivial
  refine ⟨characters, result, hcharacters, hcall, hiff.mpr ?_⟩
  obtain rfl : [0x62] = characters := Option.some.inj hcharacters
  rintro ⟨c, hc, hhit⟩
  obtain rfl : 0x63 = c := Option.some.inj hc
  exact absurd hhit (by decide)

/-- `find_last_of('a', 0)` does not find the first character. -/
theorem not_agrees_first :
    ¬ ∀ (family : Family) (s : List UInt8) (needle : Needle) (pos : Nat), needle.Valid → family.Admits s pos →
      ∃ characters result, needle.characters = some characters ∧ family.call s needle pos = some result ∧
        family.Finds s characters pos result := by
  intro h
  obtain ⟨characters, result, hcharacters, hcall, hfinds⟩ := h .findLastOf [0x61] (.char 0x61) 0 trivial trivial
  obtain rfl : [0x61] = characters := Option.some.inj hcharacters
  obtain rfl : none = result := Option.some.inj hcall
  have hhit : HitAt (fun c => [(0x61 : UInt8)].contains c) [0x61] 0 := ⟨0x61, rfl, by decide⟩
  cases (hfinds 0).mpr ⟨⟨Nat.le_refl 0, hhit⟩, fun j hj hle => absurd hle.1 (by omega)⟩

end EmbeddedInfra.BoundedStringSearching
