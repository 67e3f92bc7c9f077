import EmbeddedInfra.Infra.Util.IntrusiveLists

set_option autoImplicit false

/-! # Runs of intrusive lists

What is seen of intrusive lists along any run of operations, and what `swap` does to two of them. `pop_back`
leaves the begin at the element that it pops when there is no other one. `swap` means to exchange the end
nodes, but the assignment of nodes does not copy what they are linked to.
-/

namespace EmbeddedInfra.IntrusiveLists

open EventSystem IntrusiveLists.Lists
open Function (update update_apply update_eq_self update_eq_self_iff update_of_ne update_self)

variable {ι α : Type} [DecidableEq ι] [DecidableEq α] {s s' : Lists ι α} {xs : ι → List α} {l other : ι} {a : α}
  {u v : List α}

/-! ## What a user sees -/

theorem Represents.visit_eq (h : Represents s xs) (hl : xs l = u ++ v) :
    s.visit l (v.length + 1) (firstPlace l v) = some v := by
  induction v generalizing u with
  | nil => simp [visit]
  | cons a v ih =>
      have hl' : xs l = (u ++ [a]) ++ v := by
        rw [hl, List.append_assoc, List.singleton_append]
      have hnext : s.next (.node a) = firstPlace l v := by
        have hafter := (h.between hl').1
        rwa [lastPlace_concat] at hafter
      rw [firstPlace_cons, List.length_cons, visit, if_neg (by simp), hnext, ih hl']
      rfl

theorem Represents.visitBack_eq (h : Represents s xs) (hl : xs l = u ++ v) :
    s.visitBack l (u.length + 1) (firstPlace l v) = some u.reverse := by
  induction u using List.reverseRecOn generalizing v with
  | nil =>
      rw [List.length_nil, visitBack, h.begins, hl]
      simp
  | append_singleton u a ih =>
      have hl' : xs l = u ++ (a :: v) := by
        rw [hl, List.append_assoc, List.singleton_append]
      have hprevious : s.previous (firstPlace l v) = .node a := by
        rw [(h.between hl).2, lastPlace_concat]
      have hne : firstPlace l v ≠ s.beginNode l := by
        intro heq
        have hbegin := h.begins l
        have hnodup := h.distinct l
        rw [hl] at hbegin hnodup
        rw [hbegin] at heq
        cases v with
        | nil => cases u <;> cases heq
        | cons b v =>
            cases u with
            | nil =>
                cases heq
                grind
            | cons c u =>
                cases heq
                grind
      rw [List.length_append, List.length_singleton, visitBack, if_neg hne, hprevious]
      dsimp only
      rw [← firstPlace_cons (l := l) (v := v), ih hl']
      simp

omit [DecidableEq ι] [DecidableEq α] in
theorem Represents.back_eq (h : Represents s xs) (l : ι) : s.back l = (xs l).getLast? := by
  rw [back, h.ends, lastPlace]
  cases (xs l).getLast? <;> rfl

theorem Represents.shows (h : Represents s xs) : Shows s xs where
  forward := by
    intro l
    refine ⟨(xs l).length + 1, ?_⟩
    rw [forward, h.begins]
    exact h.visit_eq (u := []) rfl
  backward := by
    intro l
    exact ⟨(xs l).length + 1, h.visitBack_eq (v := []) (List.append_nil _).symm⟩
  size := h.size
  front := by
    intro l a ha
    rw [front, h.begins]
    cases hxs : xs l with
    | nil =>
        rw [hxs] at ha
        cases ha
    | cons b ys =>
        rw [hxs] at ha
        cases ha
        rfl
  back := by
    intro l a ha
    rw [h.back_eq, ha]

/-! ## The step and the runs -/

theorem insertBefore_eq (hb : ∀ b ∈ u, firstPlace l v ≠ Pointer.node b) :
    insertBefore (firstPlace l v) a (u ++ v) = u ++ a :: v := by
  induction u with
  | nil =>
      cases v with
      | nil => rfl
      | cons b v => simp [insertBefore]
  | cons b u ih =>
      rw [List.cons_append, insertBefore, if_neg (hb b List.mem_cons_self),
        ih fun c hc => hb c (List.mem_cons_of_mem b hc)]
      rfl

theorem Represents.insert_position (h : Represents s xs) {position : Pointer ι α} (hfree : Free xs a)
    (hposition : position = .endNode l ∨ ∃ b ∈ xs l, position = .node b) :
    ∃ s', s.insert l position a = some s' ∧
      Represents s' (update xs l (insertBefore position a (xs l))) := by
  obtain ⟨u, v, hl, rfl, hu⟩ : ∃ u v, xs l = u ++ v ∧ position = firstPlace l v ∧
      ∀ b ∈ u, firstPlace l v ≠ Pointer.node b := by
    rcases hposition with rfl | ⟨b, hb, rfl⟩
    · exact ⟨xs l, [], (List.append_nil _).symm, rfl, by simp⟩
    · obtain ⟨u, v, hl⟩ := List.append_of_mem hb
      have hnodup := h.distinct l
      rw [hl] at hnodup
      refine ⟨u, b :: v, hl, rfl, ?_⟩
      rintro c hc ⟨⟩
      grind
  have hinsert := h.insert_spec hl hfree
  rwa [← insertBefore_eq hu, ← hl] at hinsert

/-- Not `pop_back` of the only element. -/
def Keeps (xs : ι → List α) : Event ι α → Prop
  | .popBack l => (xs l).length ≠ 1
  | _ => True

/-- **The step lemma**: the lists follow the sequences. -/
theorem Represents.step_spec (h : Represents s xs) {e : Event ι α} (hpossible : Possible xs e) (hkeeps : Keeps xs e) :
    ∃ s', stepLists s e = some s' ∧ Represents s' (after xs e) := by
  cases e with
  | pushFront l a => exact h.pushFront_spec hpossible
  | pushBack l a => exact h.pushBack_spec hpossible
  | popFront l =>
      cases hxs : xs l with
      | nil => exact absurd hxs hpossible
      | cons a ys =>
          rw [after, hxs]
          exact h.popFront_spec hxs
  | popBack l =>
      obtain ⟨u, a, hxs⟩ := (List.eq_nil_or_concat' (xs l)).resolve_left hpossible
      have hu : u ≠ [] := by
        rintro rfl
        exact hkeeps (by simp [hxs])
      rw [after, hxs, List.dropLast_concat]
      exact h.popBack_spec hxs hu
  | insert l position a => exact h.insert_position hpossible.1 hpossible.2
  | erase l a =>
      rcases hpossible with hmem | hfree
      · obtain ⟨u, v, hxs⟩ := List.append_of_mem hmem
        have hnodup := h.distinct l
        rw [hxs] at hnodup
        have ha : a ∉ u := by grind
        rw [after, hxs, List.erase_append_right _ ha, List.erase_cons_head]
        exact h.erase_of_mem hxs
      · refine ⟨s, h.erase_of_free hfree l, ?_⟩
        rwa [after, List.erase_of_not_mem (hfree l), update_eq_self]
  | clear l => exact h.clear_spec
  | assign l values => exact h.assign_spec hpossible.1 hpossible.2
  | moveAssign l other => exact h.moveAssign_spec l other

/-- `pop_back` of the only element leaves the begin at this element. -/
theorem Represents.not_shows_popBack (h : Represents s xs) (hl : (xs l).length = 1) (hpop : s.popBack l = some s') :
    ¬ Shows s' (update xs l (xs l).dropLast) := by
  obtain ⟨a, hxs⟩ := List.length_eq_one_iff.mp hl
  have hback : s.previous (.endNode l) = .node a := by
    rw [h.ends, hxs]
    rfl
  have hprevious : s.previous (.node a) = .null := (h.between (u := []) hxs).2
  have hbegin : s.beginNode l = .node a := by
    rw [h.begins, hxs, firstPlace_cons]
  have hbegin' : s'.beginNode l = .node a := by
    rw [← hbegin]
    simp [popBack, hback, hprevious, getPrevious, setPrevious, setSize] at hpop
    rw [← hpop]
  intro hshows
  obtain ⟨steps, hforward⟩ := hshows.forward l
  rw [hxs, forward, hbegin', update_self] at hforward
  cases steps with
  | zero => cases hforward
  | succ steps =>
      rw [visit, if_neg (by simp)] at hforward
      simp at hforward

/-- The run lemma: the lists show the sequences all the time if and only if every step keeps them. -/
theorem Represents.run_iff (h : Represents s xs) (events : List (Event ι α))
    (hpossible : EventSystem.Along step (fun s e => Possible s.2 e) (s, xs) events) :
    ((∃ s', run step (s, xs) events = some s') ∧
      EventSystem.Always step (fun s => Shows s.1 s.2) (s, xs) events) ↔
    EventSystem.Along step (fun s e => Keeps s.2 e) (s, xs) events := by
  refine run_always_iff_along (fun s => Represents s.1 s.2) (fun s hs => hs.shows) ?_ ?_ h hpossible
  · rintro ⟨s, xs⟩ e hs hp hk
    obtain ⟨s', hstep, hs'⟩ := hs.step_spec hp hk
    refine ⟨(s', after xs e), ?_, hs'⟩
    rw [step, hstep]
    rfl
  · rintro ⟨s, xs⟩ e ⟨s', ys⟩ hs - hk hstep
    obtain ⟨s'', hlists, heq⟩ := Option.map_eq_some_iff.mp hstep
    cases heq
    cases e with
    | popBack l => exact hs.not_shows_popBack (by simpa [Keeps] using hk) hlists
    | _ => exact absurd trivial hk

/-- **Intrusive lists follow the sequences of their elements** along every run in which `pop_back` never pops
the only element, and along no other one. -/
theorem intrusiveLists_refine_sequences (events : List (Event ι α))
    (hpossible : EventSystem.Along step (fun s e => Possible s.2 e) (create, fun _ => []) events) :
    ((∃ s', run step (create, fun _ => []) events = some s') ∧
      EventSystem.Always step (fun s => Shows s.1 s.2) (create, fun _ => []) events) ↔
    EventSystem.Along step (fun s e => Keeps s.2 e) (create, fun _ => []) events :=
  represents_create.run_iff events hpossible

theorem intrusiveLists_refine_sequences_two :
    (∃ s', run step (create, fun _ => [])
        ([.pushBack () 1, .pushFront () 2, .popBack ()] : List (Event Unit Nat)) = some s') ∧
      EventSystem.Always step (fun s => Shows s.1 s.2) (create, fun _ => [])
        ([.pushBack () 1, .pushFront () 2, .popBack ()] : List (Event Unit Nat)) := by
  refine (intrusiveLists_refine_sequences _ ?_).mpr ?_
  · refine ⟨by simp [Possible, Free], ?_⟩
    intro s' hs'
    cases hs'
    refine ⟨by simp [Possible, Free, after], ?_⟩
    intro s' hs'
    cases hs'
    refine ⟨by simp [Possible, after], fun _ _ => trivial⟩
  · refine ⟨trivial, ?_⟩
    intro s' hs'
    cases hs'
    refine ⟨trivial, ?_⟩
    intro s' hs'
    cases hs'
    exact ⟨by simp [Keeps, after], fun _ _ => trivial⟩

/-- A list from which its only element is popped at the back. -/
theorem popBack_of_one_shows_it :
    EventSystem.Along step (fun s e => Possible s.2 e) (create, fun _ => [])
      ([.pushBack () 1, .popBack ()] : List (Event Unit Nat)) ∧
    ∃ s', run step (create, fun _ => [])
        ([.pushBack () 1, .popBack ()] : List (Event Unit Nat)) = some s' ∧
      s'.1.forward () 2 = some [1] ∧ ¬ Shows s'.1 s'.2 := by
  constructor
  · refine ⟨by simp [Possible, Free], ?_⟩
    intro s' hs'
    cases hs'
    exact ⟨by simp [Possible, after], fun _ _ => trivial⟩
  · obtain ⟨s₁, hpush, h₁⟩ := (represents_create (ι := Unit) (α := Nat)).pushBack_spec (l := ()) (a := 1)
      (by simp [Free])
    cases hpush
    refine ⟨_, rfl, rfl, ?_⟩
    exact h₁.not_shows_popBack (l := ()) rfl rfl

/-! ## `swap` -/

/-- The elements of two lists exchanged. -/
def exchanged (xs : ι → List α) (l other : ι) : ι → List α := fun m => xs (Equiv.swap l other m)

/-- `push_front`, `push_back` or `erase`, of one of two lists. -/
def Later (l other : ι) : Event ι α → Prop
  | .pushFront m _ => m = l ∨ m = other
  | .pushBack m _ => m = l ∨ m = other
  | .erase m _ => m = l ∨ m = other
  | _ => False

/-- After `swap`, the lists have exchanged their elements, and go on as lists of these elements. -/
def SwapExchanges (s : Lists ι α) (xs : ι → List α) (l other : ι) : Prop :=
  ∃ s', s.swap l other = some s' ∧
    ∀ events : List (Event ι α), (∀ e ∈ events, Later l other e) →
      EventSystem.Along step (fun s e => Possible s.2 e) (s', exchanged xs l other) events →
      (∃ s'', run step (s', exchanged xs l other) events = some s'') ∧
        EventSystem.Always step (fun s => Shows s.1 s.2) (s', exchanged xs l other) events

/-- The pointers at the end of a list are set already. -/
theorem Represents.swapEnd_eq (h : Represents s xs) (l : ι) : s.swapEnd l = some s := by
  have hend := h.ends l
  have hfollowing := (h.between (v := []) (List.append_nil (xs l)).symm).1
  rw [← hend] at hfollowing
  by_cases hnull : s.previous (.endNode l) = .null
  · rw [hnull] at hfollowing
    have hbegin : update s.beginNode l (.endNode l) = s.beginNode := by
      rw [update_eq_self_iff]
      exact hfollowing.symm
    rw [swapEnd, if_neg (by simpa using hnull), setBegin, hbegin]
  · rw [following_of_ne hnull] at hfollowing
    have hnext : update s.next (s.previous (.endNode l)) (.endNode l) = s.next := by
      rw [update_eq_self_iff, hfollowing, firstPlace_nil]
    rw [swapEnd, if_pos hnull, setNext, if_neg hnull, hnext]

theorem swapEnd_previous (s : Lists ι α) (l : ι) : ∃ s', s.swapEnd l = some s' ∧ s'.previous = s.previous := by
  by_cases hnull : s.previous (.endNode l) = .null
  · exact ⟨_, if_neg (by simpa using hnull), rfl⟩
  · refine ⟨{ s with next := update s.next (s.previous (.endNode l)) (.endNode l) }, ?_, rfl⟩
    rw [swapEnd, if_pos hnull, setNext, if_neg hnull]

/-- `swap` leaves the pointers to the last elements where they are. -/
theorem swap_previous (s : Lists ι α) (l other : ι) :
    ∃ s', s.swap l other = some s' ∧ s'.previous = s.previous := by
  obtain ⟨s₁, h₁, hprevious₁⟩ := swapEnd_previous
    ((((s.setBegin l (s.beginNode other)).setBegin other (s.beginNode l)).setSize l (s.numberOfElements other)).setSize
      other (s.numberOfElements l)) l
  obtain ⟨s₂, h₂, hprevious₂⟩ := swapEnd_previous s₁ other
  refine ⟨s₂, ?_, hprevious₂.trans hprevious₁⟩
  rw [← h₂]
  exact (congrArg (Option.bind · fun s => s.swapEnd other) h₁ :)

/-- Two lists that begin and count alike, such as a list and itself, are exchanged by `swap`. -/
theorem Represents.swap_eq (h : Represents s xs) (hl : l = other ∨ (xs l = [] ∧ xs other = [])) :
    s.swap l other = some s ∧ exchanged xs l other = xs := by
  rcases hl with rfl | ⟨hl, hother⟩
  · refine ⟨?_, ?_⟩
    · have hsame : (((s.setBegin l (s.beginNode l)).setBegin l (s.beginNode l)).setSize l
          (s.numberOfElements l)).setSize l (s.numberOfElements l) = s := by
        simp [setBegin, setSize]
      have hend := h.swapEnd_eq l
      have hswap : s.swap l l = (((((s.setBegin l (s.beginNode l)).setBegin l (s.beginNode l)).setSize l
          (s.numberOfElements l)).setSize l (s.numberOfElements l)).swapEnd l).bind fun s => s.swapEnd l := by
        simp [swap, assignNode, setBegin, setSize]
      rw [hswap, hsame, hend, Option.bind_some, hend]
    · funext m
      simp [exchanged]
  · have hendl := h.ends l
    have hendo := h.ends other
    have hbeginl := h.begins l
    have hbegino := h.begins other
    rw [hl] at hendl hbeginl
    rw [hother] at hendo hbegino
    have hsizel := h.size l
    have hsizeo := h.size other
    rw [hl, List.length_nil] at hsizel
    rw [hother, List.length_nil] at hsizeo
    refine ⟨?_, ?_⟩
    · have hsizes : update (update s.numberOfElements l 0) other 0 = s.numberOfElements := by
        have hsame : update s.numberOfElements l 0 = s.numberOfElements :=
          update_eq_self_iff.mpr hsizel.symm
        rw [hsame]
        exact update_eq_self_iff.mpr hsizeo.symm
      have hbegins : ∀ b : ι → Pointer ι α, (∀ m, m ≠ l → m ≠ other → b m = s.beginNode m) →
          update (update b l (.endNode l)) other (.endNode other) = s.beginNode := by
        intro b hb
        funext m
        by_cases hmo : m = other
        · rw [hmo, update_self, hbegino, firstPlace_nil]
        · by_cases hml : m = l
          · rw [update_of_ne hmo, hml, update_self, hbeginl, firstPlace_nil]
          · rw [update_of_ne hmo, update_of_ne hml, hb m hml hmo]
      simp only [swap, assignNode, setBegin, setSize, swapEnd, hendl, hendo,
        lastPlace_nil, hsizel, hsizeo, hsizes, ne_eq, not_true_eq_false, if_false, Option.bind_eq_bind,
        Option.bind_some]
      rw [hbegins]
      intro m hml hmo
      rw [update_of_ne hmo, update_of_ne hml]
    · funext m
      by_cases hm : m = l
      · simp [exchanged, hm, hl, hother]
      · by_cases hm' : m = other
        · simp [exchanged, hm', hl, hother]
        · rw [exchanged, Equiv.swap_apply_of_ne_of_ne hm hm']

/-- With an element in one of them, the last elements of two lists are not exchanged. -/
theorem Represents.not_swapExchanges (h : Represents s xs) (hne : l ≠ other)
    (hempty : ¬ (xs l = [] ∧ xs other = [])) : ¬ SwapExchanges s xs l other := by
  rintro ⟨s', hswap, hall⟩
  obtain ⟨_, hswap', hprevious⟩ := swap_previous s l other
  cases hswap.symm.trans hswap'
  have hshows : Shows s' (exchanged xs l other) := (hall [] (by simp) trivial).2 [] List.nil_prefix _ rfl
  -- a last element of one list would be the last one of the other list
  have hback : ∀ m n a, exchanged xs l other m = xs n → (xs n).getLast? = some a → a ∈ xs m := by
    intro m n a hmn ha
    have hm := hshows.back m a (hmn ▸ ha)
    rw [back, hprevious, ← back, h.back_eq] at hm
    exact List.mem_of_getLast? hm
  rcases not_and_or.mp hempty with hl | hother
  · obtain ⟨a, ha⟩ : ∃ a, (xs l).getLast? = some a := Option.isSome_iff_exists.mp (by simpa using hl)
    have hmem := hback other l a (by simp [exchanged]) ha
    exact hne (h.disjoint l other a (List.mem_of_getLast? ha) hmem)
  · obtain ⟨a, ha⟩ : ∃ a, (xs other).getLast? = some a := Option.isSome_iff_exists.mp (by simpa using hother)
    have hmem := hback l other a (by simp [exchanged]) ha
    exact hne (h.disjoint l other a hmem (List.mem_of_getLast? ha))

/-- **`swap` exchanges the elements of two lists** if and only if both are empty, or they are the same list. -/
theorem swap_exchanges_iff (h : Represents s xs) :
    SwapExchanges s xs l other ↔ l = other ∨ (xs l = [] ∧ xs other = []) := by
  constructor
  · intro hexchanges
    by_contra hnot
    rw [not_or] at hnot
    exact h.not_swapExchanges hnot.1 hnot.2 hexchanges
  · intro hl
    obtain ⟨hswap, hxs⟩ := h.swap_eq hl
    refine ⟨s, hswap, ?_⟩
    rw [hxs]
    intro events hlater hpossible
    refine (h.run_iff events hpossible).mpr (along_of_forall ?_)
    intro e he s
    have hkind := hlater e he
    cases e with
    | popBack m => exact absurd hkind id
    | _ => trivial

/-- Two lists with an element each. -/
theorem represents_two :
    ∃ s xs, run step (create, fun _ => [])
        ([.pushBack false 1, .pushBack true 2] : List (Event Bool Nat)) = some (s, xs) ∧
      Represents s xs ∧ xs false = [1] ∧ xs true = [2] := by
  obtain ⟨s₁, hpush₁, h₁⟩ := (represents_create (ι := Bool) (α := Nat)).pushBack_spec (l := false) (a := 1)
    (by simp [Free])
  obtain ⟨s₂, hpush₂, h₂⟩ := h₁.pushBack_spec (l := true) (a := 2) (by simp [Free, update_apply])
  have hrun : run step (create, fun _ => [])
      ([.pushBack false 1, .pushBack true 2] : List (Event Bool Nat)) = some (s₂, _) :=
    run_cons.mpr ⟨_, congrArg (Option.map (·, _)) hpush₁,
      run_cons.mpr ⟨_, congrArg (Option.map (·, _)) hpush₂, rfl⟩⟩
  exact ⟨s₂, _, hrun, h₂, rfl, rfl⟩

/-- Of these lists one is exchanged with itself, and not with the other one. -/
theorem swap_exchanges_iff_two :
    ∃ s xs, run step (create, fun _ => [])
        ([.pushBack false 1, .pushBack true 2] : List (Event Bool Nat)) = some (s, xs) ∧
      SwapExchanges s xs false false ∧ ¬ SwapExchanges s xs false true := by
  obtain ⟨s, xs, hrun, h, hfalse, -⟩ := represents_two
  refine ⟨s, xs, hrun, (swap_exchanges_iff h).mpr (Or.inl rfl), ?_⟩
  rw [swap_exchanges_iff h, hfalse]
  simp

theorem swap_of_two_keeps_back :
    ∃ s xs, run step (create, fun _ => [])
        ([.pushBack false 1, .pushBack true 2] : List (Event Bool Nat)) = some (s, xs) ∧
      (s.swap false true).map (fun s' => s'.back false) = some (some 1) ∧ ¬ SwapExchanges s xs false true := by
  obtain ⟨s, xs, hrun, h, hfalse, -⟩ := represents_two
  refine ⟨s, xs, hrun, ?_, h.not_swapExchanges (by simp) (by simp [hfalse])⟩
  obtain ⟨s', hswap, hprevious⟩ := swap_previous s false true
  rw [hswap, Option.map_some, back, hprevious, h.ends, hfalse]
  rfl

end EmbeddedInfra.IntrusiveLists
