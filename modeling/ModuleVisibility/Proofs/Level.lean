import Mathlib.Data.List.Basic
import Mathlib.Data.List.Chain
import Mathlib.Order.Bounds.Basic
import ModuleVisibility.Composition.Level
import ModuleVisibility.Proofs.Distinct
import ModuleVisibility.Proofs.UseGraph

/-!
Levels of a use graph. While levels are placed, every trait waits for just the traits it uses that
have not been placed; so a level is made of those that use only traits placed before it, however
what a trait uses is listed. Where walks end every trait gets a level, and its number is the length
of the longest walk from there.
-/
namespace ModuleVisibility.UseGraph

variable {g : UseGraph} {deps : SymbolId → List SymbolId} {placed level : List SymbolId}
  {waiting : List (SymbolId × Nat)} {id : SymbolId}

/-- What each trait uses is listed by `deps`, each once. -/
structure Enumerates (g : UseGraph) (deps : SymbolId → List SymbolId) : Prop where
  nodup : ∀ id, (deps id).Nodup
  mem : ∀ {id used}, used ∈ deps id ↔ g.Leads id used

theorem enumerates_dependencies (g : UseGraph) : g.Enumerates g.dependencies where
  nodup user := by
    have hnodup := nodup_distinctBy id (g.targets user)
    rwa [List.map_id] at hnodup
  mem {user used} := by
    rw [← mem_targets]
    exact mem_distinctBy_iff fun _ _ _ _ hsame => hsame

/-! Counting down. -/

theorem lookup_decrement (user : SymbolId) (waiting : List (SymbolId × Nat)) (id : SymbolId) :
    (decrement user waiting).lookup id =
      (waiting.lookup id).map fun left => if id = user then left - 1 else left :=
  lookup_map_value (fun id left => if id = user then left - 1 else left) waiting id

theorem lookup_foldl_tick (users : List SymbolId) (c : Countdown) (id : SymbolId) :
    (users.foldl Countdown.tick c).waiting.lookup id =
      (c.waiting.lookup id).map (· - users.count id) := by
  induction users generalizing c with
  | nil => simp
  | cons user rest ih =>
    rw [List.foldl_cons, ih, Countdown.tick, lookup_decrement, Option.map_map]
    congr 1
    funext left
    simp only [Function.comp_apply, List.count_cons]
    by_cases h : id = user
    · subst h
      simp only [if_true, beq_self_eq_true]
      omega
    · have hne : (user == id) = false := beq_eq_false_iff_ne.2 fun heq => h heq.symm
      simp [h, hne]

/-- A trait is free when it has been counted down as often as it waited. -/
theorem mem_free_foldl_tick {users : List SymbolId} {c : Countdown} :
    id ∈ (users.foldl Countdown.tick c).free ↔
      id ∈ c.free ∨ ∃ left, c.waiting.lookup id = some left ∧ 0 < left ∧ left ≤ users.count id := by
  induction users generalizing c with
  | nil =>
    simp only [List.foldl_nil, List.count_nil, iff_self_or, forall_exists_index, and_imp]
    intro left _ hpos hle
    omega
  | cons user rest ih =>
    rw [List.foldl_cons, ih, Countdown.tick, lookup_decrement, List.count_cons]
    cases hleft : c.waiting.lookup id with
    | none =>
      have hfree : id ∈ (if c.waiting.lookup user = some 1 then c.free ++ [user] else c.free) ↔
          id ∈ c.free := by
        split
        · next hone =>
          have hne : id ≠ user := fun heq => by simp [← heq, hleft] at hone
          simp [hne]
        · rfl
      simp [hfree]
    | some left =>
      by_cases h : id = user
      · subst h
        by_cases hone : left = 1
        · subst hone
          simp [hleft]
        · have hnot : ¬ some left = some 1 := by simpa using hone
          simp only [hleft, hnot, if_false, Option.map_some, if_true, Option.some.injEq,
            exists_eq_left', beq_self_eq_true]
          refine or_congr_right ⟨fun hrest => ?_, fun hrest => ?_⟩ <;> omega
      · have hne : (user == id) = false := beq_eq_false_iff_ne.2 fun heq => h heq.symm
        have hfree : id ∈ (if c.waiting.lookup user = some 1 then c.free ++ [user] else c.free) ↔
            id ∈ c.free := by
          split <;> simp [h]
        simp [hfree, h, hne]

/-- No trait becomes free twice. -/
theorem nodup_free_foldl_tick {users : List SymbolId} {c : Countdown} (hnodup : c.free.Nodup)
    (hfree : ∀ id ∈ c.free, c.waiting.lookup id = some 0) :
    (users.foldl Countdown.tick c).free.Nodup := by
  induction users generalizing c with
  | nil => exact hnodup
  | cons user rest ih =>
    have hstill : ∀ id ∈ c.free, (decrement user c.waiting).lookup id = some 0 := by
      intro id hid
      rw [lookup_decrement, hfree id hid]
      simp
    refine ih ?_ ?_
    · simp only [Countdown.tick]
      split
      · next hone =>
        have hfresh : user ∉ c.free := fun hmem => by simp [hfree user hmem] at hone
        exact List.nodup_append.2 ⟨hnodup, by simp, fun a ha b hb => by
          rw [List.mem_singleton.1 hb]
          exact fun heq => hfresh (heq ▸ ha)⟩
      · exact hnodup
    · simp only [Countdown.tick]
      split
      · next hone =>
        intro id hid
        rcases List.mem_append.1 hid with hold | hnew
        · exact hstill id hold
        · rw [List.mem_singleton.1 hnew, lookup_decrement, hone]
          simp
      · exact hstill

/-! Stages of the count. -/

/-- Of two lists without repetitions, as many elements of the one are in the other as the other way
round. -/
theorem countP_mem_comm {l l' : List SymbolId} (hl : l.Nodup) (hl' : l'.Nodup) :
    l.countP (· ∈ l') = l'.countP (· ∈ l) := by
  rw [List.countP_eq_length_filter, List.countP_eq_length_filter]
  refine List.Perm.length_eq ((List.perm_ext_iff_of_nodup (hl.filter _) (hl'.filter _)).2 ?_)
  intro a
  simp only [List.mem_filter, decide_eq_true_eq]
  exact and_comm

/-- What is not placed before a level is not placed with it either, or it is in the level. -/
theorem countP_not_mem_append (hlevel : ∀ id ∈ level, id ∉ placed) (l : List SymbolId) :
    l.countP (· ∉ placed) = l.countP (· ∉ placed ++ level) + l.countP (· ∈ level) := by
  induction l with
  | nil => rfl
  | cons id rest ih =>
    simp only [List.countP_cons, ih, List.mem_append, not_or, decide_eq_true_eq]
    by_cases hid : id ∈ level
    · simp only [hid, hlevel id hid, not_false_eq_true, not_true_eq_false, and_false, if_true,
        if_false]
      omega
    · simp only [hid, not_false_eq_true, and_true, if_false]
      omega

/-- Each trait is counted down once for each trait of the level that it uses. -/
theorem count_dependents (htraits : g.traits.Nodup) (hid : id ∈ g.traits) (level : List SymbolId) :
    (level.flatMap (g.dependents deps)).count id = level.countP (· ∈ deps id) := by
  induction level with
  | nil => rfl
  | cons head rest ih =>
    have hhead : (g.dependents deps head).count id = if head ∈ deps id then 1 else 0 := by
      have hnodup : (g.dependents deps head).Nodup := htraits.filter _
      rw [hnodup.count]
      simp [dependents, hid]
    rw [List.flatMap_cons, List.count_append, ih, hhead, List.countP_cons]
    simp only [decide_eq_true_eq]
    omega

/-- The traits to place next: they use only traits that are placed. -/
def ready (g : UseGraph) (placed : List SymbolId) : List SymbolId :=
  g.traits.filter fun id => id ∉ placed ∧ ∀ used ∈ g.targets id, used ∈ placed

theorem mem_ready : id ∈ g.ready placed ↔
    id ∈ g.traits ∧ id ∉ placed ∧ ∀ used, g.Leads id used → used ∈ placed := by
  simp [ready, mem_targets]

/-- What is known before `level` is placed on top of `placed`. -/
structure Stage (g : UseGraph) (deps : SymbolId → List SymbolId) (waiting : List (SymbolId × Nat))
    (placed level : List SymbolId) : Prop where
  waits : ∀ id ∈ g.traits, waiting.lookup id = some ((deps id).countP (· ∉ placed))
  used : ∀ id ∈ placed, ∀ used, g.Leads id used → used ∈ placed
  level : level = g.ready placed

theorem stage_first (hdeps : g.Enumerates deps) :
    Stage g deps (waitingAtFirst g deps) [] (g.traits.filter fun id => (deps id).isEmpty) where
  waits id hid := by
    have hlookup := lookup_filterMap_key (fun id => some (deps id).length) g.traits id
    simp only [Option.map_some, List.filterMap_eq_map', if_pos hid] at hlookup
    simpa [waitingAtFirst] using hlookup
  used := by simp
  level := by
    refine List.filter_congr fun id _ => ?_
    rw [Bool.eq_iff_iff]
    simp [List.eq_nil_iff_forall_not_mem, hdeps.mem, mem_targets]

/-- In the order of the graph, traits are as if they had been picked out of it. -/
theorem inOrder_eq_filter (htraits : g.traits.Nodup) {ids : List SymbolId} (hids : ids.Nodup)
    {p : SymbolId → Bool} (hmem : ∀ id, id ∈ ids ↔ id ∈ g.traits ∧ p id = true) :
    g.inOrder ids = g.traits.filter p := by
  have hperm : (g.inOrder ids).Perm (g.traits.filter p) := by
    refine (List.mergeSort_perm _ _).trans ?_
    refine (List.perm_ext_iff_of_nodup hids (htraits.filter _)).2 fun id => ?_
    rw [hmem, List.mem_filter]
  have hsorted : (g.inOrder ids).Pairwise fun a b => g.traits.idxOf a ≤ g.traits.idxOf b := by
    have hmerge : (g.inOrder ids).Pairwise fun a b =>
        decide (g.traits.idxOf a ≤ g.traits.idxOf b) = true :=
      List.pairwise_mergeSort (fun a b c hab hbc => by simp only [decide_eq_true_eq] at *; omega)
        (fun a b => by simp only [Bool.or_eq_true, decide_eq_true_eq]; omega) ids
    exact hmerge.imp of_decide_eq_true
  have hkept : (g.traits.filter p).Pairwise fun a b => g.traits.idxOf a ≤ g.traits.idxOf b := by
    refine List.Pairwise.filter _ (List.pairwise_iff_getElem.2 fun i j hi hj hij => ?_)
    rw [htraits.idxOf_getElem, htraits.idxOf_getElem]
    exact Nat.le_of_lt hij
  refine List.Perm.eq_of_pairwise (fun a b ha _ hab hba => ?_) hsorted hkept hperm
  have htrait : a ∈ g.traits := ((hmem a).1 ((List.mergeSort_perm _ _).mem_iff.1 ha)).1
  exact (List.idxOf_inj htrait).1 (Nat.le_antisymm hab hba)

theorem Stage.mem_level (h : Stage g deps waiting placed level) :
    id ∈ level ↔ id ∈ g.traits ∧ id ∉ placed ∧ ∀ used, g.Leads id used → used ∈ placed := by
  rw [h.level, mem_ready]

/-- A trait waits for as many traits less as it uses of the level. -/
theorem Stage.countP_placed (htraits : g.traits.Nodup) (hdeps : g.Enumerates deps)
    (h : Stage g deps waiting placed level) (id : SymbolId) :
    (deps id).countP (· ∉ placed) =
      (deps id).countP (· ∉ placed ++ level) + level.countP (· ∈ deps id) := by
  have hnodup : level.Nodup := h.level ▸ htraits.filter _
  rw [countP_mem_comm hnodup (hdeps.nodup id)]
  exact countP_not_mem_append (fun used hused => (h.mem_level.1 hused).2.1) (deps id)

theorem Enumerates.countP_eq_zero_iff (hdeps : g.Enumerates deps) (id : SymbolId)
    (placed : List SymbolId) :
    (deps id).countP (· ∉ placed) = 0 ↔ ∀ used, g.Leads id used → used ∈ placed := by
  simp [List.countP_eq_zero, hdeps.mem]

/-- What becomes free when a level is placed is what can be placed next. -/
theorem Stage.mem_free (htraits : g.traits.Nodup) (hdeps : g.Enumerates deps)
    (h : Stage g deps waiting placed level) :
    id ∈ (placeLevel g deps waiting level).free ↔ id ∈ g.ready (placed ++ level) := by
  unfold placeLevel
  rw [mem_free_foldl_tick, mem_ready]
  by_cases hid : id ∈ g.traits
  · have hcount := h.countP_placed htraits hdeps id
    have hbefore := hdeps.countP_eq_zero_iff id placed
    have hafter := hdeps.countP_eq_zero_iff id (placed ++ level)
    rw [h.waits id hid, count_dependents htraits hid]
    simp only [hid, true_and, List.not_mem_nil, false_or, Option.some.injEq, exists_eq_left']
    rw [← hafter, List.mem_append, h.mem_level]
    constructor
    · rintro ⟨hpos, hle⟩
      have hwaits : ¬ ∀ used, g.Leads id used → used ∈ placed := fun hall => by
        have := hbefore.2 hall
        omega
      refine ⟨?_, by omega⟩
      rintro (hold | ⟨_, _, hall⟩)
      · exact hwaits (h.used id hold)
      · exact hwaits hall
    · rintro ⟨hnew, hzero⟩
      have hwaits : (deps id).countP (· ∉ placed) ≠ 0 := fun hnone =>
        have hall := hbefore.1 hnone
        hnew (Decidable.or_iff_not_imp_left.2 fun hold => ⟨hid, hold, hall⟩)
      omega
  · have hnone : (level.flatMap (g.dependents deps)).count id = 0 := by
      refine List.count_eq_zero.2 fun hmem => hid ?_
      obtain ⟨_, _, huser⟩ := List.mem_flatMap.1 hmem
      exact (List.mem_filter.1 huser).1
    simp only [hnone, hid, false_and, iff_false, List.not_mem_nil, false_or]
    rintro ⟨left, _, hpos, hle⟩
    omega

/-- Placing a level leads to the next stage. -/
theorem Stage.next (htraits : g.traits.Nodup) (hdeps : g.Enumerates deps)
    (h : Stage g deps waiting placed level) :
    Stage g deps (placeLevel g deps waiting level).waiting (placed ++ level)
      (g.inOrder (placeLevel g deps waiting level).free) where
  waits id hid := by
    have hcount := h.countP_placed htraits hdeps id
    unfold placeLevel
    rw [lookup_foldl_tick, h.waits id hid, count_dependents htraits hid, Option.map_some]
    congr 1
    omega
  used id hid used hleads := by
    rcases List.mem_append.1 hid with hold | hnew
    · exact List.mem_append_left _ (h.used id hold used hleads)
    · exact List.mem_append_left _ ((h.mem_level.1 hnew).2.2 used hleads)
  level := by
    have hnodup : (placeLevel g deps waiting level).free.Nodup :=
      nodup_free_foldl_tick List.nodup_nil (by simp)
    refine inOrder_eq_filter htraits hnodup fun id => ?_
    rw [h.mem_free htraits hdeps, ready, List.mem_filter]

/-! The levels. -/

/-- Each level brings new traits that use only traits placed before it. -/
def Layered (g : UseGraph) : List SymbolId → List (List SymbolId) → Prop
  | _, [] => True
  | placed, level :: rest =>
    (∀ id ∈ level, id ∉ placed ∧ ∀ used, g.Leads id used → used ∈ placed) ∧
      Layered g (placed ++ level) rest

theorem Stage.layered (htraits : g.traits.Nodup) (hdeps : g.Enumerates deps)
    (h : Stage g deps waiting placed level) :
    Layered g placed (levelsFrom g deps waiting level) := by
  fun_induction levelsFrom g deps waiting level generalizing placed with
  | case1 => trivial
  | case2 waiting level _ ih =>
    exact ⟨fun id hid => (h.mem_level.1 hid).2, ih (h.next htraits hdeps)⟩

theorem Stage.sublist (htraits : g.traits.Nodup) (hdeps : g.Enumerates deps)
    (h : Stage g deps waiting placed level) {other : List SymbolId}
    (hother : other ∈ levelsFrom g deps waiting level) : other.Sublist g.traits := by
  fun_induction levelsFrom g deps waiting level generalizing placed with
  | case1 => cases hother
  | case2 waiting level _ ih =>
    rcases List.mem_cons.1 hother with rfl | hrest
    · rw [h.level]
      exact List.filter_sublist
    · exact ih (h.next htraits hdeps) hrest

/-- If no trait is ready, each that is not placed uses another such, so walks among them never
end. -/
theorem mem_placed_of_ready_eq_nil (hclosed : g.Closed) (hready : g.ready placed = [])
    (hends : g.Ends id) (hid : id ∈ g.traits) : id ∈ placed := by
  induction hends with
  | intro id _ ih =>
    by_contra hnot
    have hmem : id ∈ g.ready placed :=
      mem_ready.2 ⟨hid, hnot, fun used hleads => ih used hleads (hclosed id used hleads)⟩
    rw [hready] at hmem
    cases hmem

theorem Stage.mem_flatten (htraits : g.traits.Nodup) (hdeps : g.Enumerates deps)
    (hclosed : g.Closed) (hends : ∀ id, g.Ends id) (h : Stage g deps waiting placed level) :
    id ∈ (levelsFrom g deps waiting level).flatten ↔ id ∈ g.traits ∧ id ∉ placed := by
  fun_induction levelsFrom g deps waiting level generalizing placed with
  | case1 waiting =>
    have hall := mem_placed_of_ready_eq_nil hclosed h.level.symm (hends id)
    simpa using hall
  | case2 waiting level _ ih =>
    have hlevel : id ∈ level → id ∈ g.traits ∧ id ∉ placed := fun hid =>
      have hready := h.mem_level.1 hid
      ⟨hready.1, hready.2.1⟩
    rw [List.flatten_cons, List.mem_append, ih (h.next htraits hdeps), List.mem_append, not_or]
    constructor
    · rintro (hid | ⟨hid, hnot, _⟩)
      · exact hlevel hid
      · exact ⟨hid, hnot⟩
    · rintro ⟨hid, hnot⟩
      by_cases hnow : id ∈ level
      · exact .inl hnow
      · exact .inr ⟨hid, hnot, hnow⟩

/-- The lengths of the walks from a trait. -/
def walkLengths (g : UseGraph) (id : SymbolId) : Set Nat :=
  {n | ∃ walk, List.IsChain g.Leads (id :: walk) ∧ walk.length = n}

theorem zero_mem_walkLengths (g : UseGraph) (id : SymbolId) : 0 ∈ g.walkLengths id :=
  ⟨[], List.isChain_singleton _, rfl⟩

theorem succ_mem_walkLengths {n : Nat} :
    n + 1 ∈ g.walkLengths id ↔ ∃ used, g.Leads id used ∧ n ∈ g.walkLengths used := by
  constructor
  · rintro ⟨walk, hwalk, hlength⟩
    cases walk with
    | nil => cases hlength
    | cons used rest =>
      obtain ⟨hleads, hrest⟩ := List.isChain_cons_cons.1 hwalk
      exact ⟨used, hleads, rest, hrest, Nat.succ.inj hlength⟩
  · rintro ⟨used, hleads, walk, hwalk, hlength⟩
    exact ⟨used :: walk, List.isChain_cons_cons.2 ⟨hleads, hwalk⟩, by simp [hlength]⟩

/-- When the traits placed are those with walks shorter than `n`, the traits ready are those whose
longest walks have length `n`. -/
theorem isGreatest_of_mem_ready {n : Nat}
    (hplaced : ∀ id, id ∈ placed ↔ id ∈ g.traits ∧ ∀ k ∈ g.walkLengths id, k < n)
    (hid : id ∈ g.ready placed) : IsGreatest (g.walkLengths id) n := by
  obtain ⟨htrait, hnew, hused⟩ := mem_ready.1 hid
  have hle : ∀ k ∈ g.walkLengths id, k ≤ n := by
    intro k hk
    cases k with
    | zero => exact Nat.zero_le n
    | succ k =>
      obtain ⟨used, hleads, hk⟩ := succ_mem_walkLengths.1 hk
      exact ((hplaced used).1 (hused used hleads)).2 k hk
  have hlong : ∃ k ∈ g.walkLengths id, n ≤ k := by
    by_contra hshort
    refine hnew ((hplaced id).2 ⟨htrait, fun k hk => ?_⟩)
    by_contra hge
    exact hshort ⟨k, hk, Nat.not_lt.1 hge⟩
  obtain ⟨k, hk, hge⟩ := hlong
  have heq : k = n := Nat.le_antisymm (hle k hk) hge
  exact ⟨heq ▸ hk, hle⟩

theorem mem_placed_append (hclosed : g.Closed) {n : Nat}
    (hplaced : ∀ id, id ∈ placed ↔ id ∈ g.traits ∧ ∀ k ∈ g.walkLengths id, k < n) :
    id ∈ placed ++ g.ready placed ↔ id ∈ g.traits ∧ ∀ k ∈ g.walkLengths id, k < n + 1 := by
  rw [List.mem_append]
  constructor
  · rintro (hold | hnow)
    · obtain ⟨htrait, hshort⟩ := (hplaced id).1 hold
      exact ⟨htrait, fun k hk => Nat.lt_succ_of_lt (hshort k hk)⟩
    · exact ⟨(mem_ready.1 hnow).1, fun k hk =>
        Nat.lt_succ_of_le ((isGreatest_of_mem_ready hplaced hnow).2 hk)⟩
  · rintro ⟨htrait, hshort⟩
    by_cases hold : id ∈ placed
    · exact .inl hold
    · refine .inr (mem_ready.2 ⟨htrait, hold, fun used hleads => ?_⟩)
      refine (hplaced used).2 ⟨hclosed id used hleads, fun k hk => ?_⟩
      exact Nat.lt_of_succ_lt_succ (hshort (k + 1) (succ_mem_walkLengths.2 ⟨used, hleads, hk⟩))

/-- The number of a level is the length of the longest walks from each of its traits. -/
theorem Stage.isGreatest (htraits : g.traits.Nodup) (hdeps : g.Enumerates deps)
    (hclosed : g.Closed) (h : Stage g deps waiting placed level) {n : Nat}
    (hplaced : ∀ id, id ∈ placed ↔ id ∈ g.traits ∧ ∀ k ∈ g.walkLengths id, k < n) {i : Nat}
    {other : List SymbolId} (hother : (levelsFrom g deps waiting level)[i]? = some other)
    (hid : id ∈ other) : IsGreatest (g.walkLengths id) (n + i) := by
  fun_induction levelsFrom g deps waiting level generalizing placed n i with
  | case1 => cases hother
  | case2 waiting level _ ih =>
    cases i with
    | zero =>
      cases hother
      exact isGreatest_of_mem_ready hplaced (h.level ▸ hid)
    | succ i =>
      have hnext : ∀ id, id ∈ placed ++ level ↔
          id ∈ g.traits ∧ ∀ k ∈ g.walkLengths id, k < n + 1 := by
        intro id
        rw [h.level]
        exact mem_placed_append hclosed hplaced
      have hgreatest := ih (h.next htraits hdeps) hnext hother
      rwa [Nat.add_assoc, Nat.add_comm 1] at hgreatest

/-- What the count makes next depends only on what has been placed. -/
theorem Stage.levelsFrom_eq (htraits : g.traits.Nodup) {deps' : SymbolId → List SymbolId}
    {waiting' : List (SymbolId × Nat)} {level' : List SymbolId} (hdeps : g.Enumerates deps)
    (hdeps' : g.Enumerates deps') (h : Stage g deps waiting placed level)
    (h' : Stage g deps' waiting' placed level') :
    levelsFrom g deps waiting level = levelsFrom g deps' waiting' level' := by
  have hlevel : level' = level := h'.level.trans h.level.symm
  subst hlevel
  fun_induction levelsFrom g deps waiting level' generalizing placed waiting' with
  | case1 =>
    rw [levelsFrom, dif_pos rfl]
  | case2 waiting level hlevel ih =>
    have hnext := h.next htraits hdeps
    have hnext' := h'.next htraits hdeps'
    have hsame := hnext'.level.trans hnext.level.symm
    rw [hsame] at hnext'
    conv_rhs => rw [levelsFrom, dif_neg hlevel, hsame]
    exact congrArg (level :: ·) (ih hnext' hnext)

/-- In what order the traits that a trait uses are listed makes no difference. -/
theorem levelsBy_eq_levels (htraits : g.traits.Nodup) (hdeps : g.Enumerates deps) :
    g.levelsBy deps = g.levels :=
  (stage_first hdeps).levelsFrom_eq htraits hdeps g.enumerates_dependencies
    (stage_first g.enumerates_dependencies)

/-- The traits alone decide how a count goes on. -/
theorem levelsFrom_congr {g' : UseGraph} (h : g'.traits = g.traits)
    (deps : SymbolId → List SymbolId)
    (waiting : List (SymbolId × Nat)) (level : List SymbolId) :
    g'.levelsFrom deps waiting level = g.levelsFrom deps waiting level := by
  have hplace : ∀ waiting level, g'.placeLevel deps waiting level =
      g.placeLevel deps waiting level := by
    intro waiting level
    unfold placeLevel dependents
    rw [h]
  have horder : g'.inOrder = g.inOrder := by
    funext ids
    unfold inOrder
    rw [h]
  fun_induction g.levelsFrom deps waiting level with
  | case1 => rw [levelsFrom, dif_pos rfl]
  | case2 waiting level hlevel ih => rw [levelsFrom, dif_neg hlevel, hplace, horder, ih]

/-- Graphs with the same traits and the same uses have the same levels. -/
theorem levels_congr {g' : UseGraph} (htraits : g'.traits = g.traits) (hnodup : g.traits.Nodup)
    (hleads : ∀ a b, g'.Leads a b ↔ g.Leads a b) : g'.levels = g.levels := by
  have hlevels : g'.levels = g.levelsBy g'.dependencies := by
    unfold levels levelsBy waitingAtFirst
    rw [htraits, levelsFrom_congr htraits]
  have hdeps : g.Enumerates g'.dependencies :=
    ⟨g'.enumerates_dependencies.nodup, g'.enumerates_dependencies.mem.trans (hleads _ _)⟩
  rw [hlevels, levelsBy_eq_levels hnodup hdeps]

theorem layered_levels (htraits : g.traits.Nodup) : Layered g [] g.levels :=
  (stage_first g.enumerates_dependencies).layered htraits g.enumerates_dependencies

/-- Where walks end, the levels hold exactly the traits. -/
theorem mem_flatten_levels (htraits : g.traits.Nodup) (hclosed : g.Closed)
    (hends : ∀ id, g.Ends id) : id ∈ g.levels.flatten ↔ id ∈ g.traits := by
  have hflatten : id ∈ g.levels.flatten ↔ id ∈ g.traits ∧ id ∉ [] :=
    (stage_first g.enumerates_dependencies).mem_flatten htraits g.enumerates_dependencies hclosed
      hends
  rwa [and_iff_left List.not_mem_nil] at hflatten

/-- Every trait is in exactly one level, whose number is the length of the longest walk from the
trait, and each level is in the order of the graph. -/
structure Leveled (g : UseGraph) (levels : List (List SymbolId)) : Prop where
  unique : ∀ id ∈ g.traits, ∃! i : Nat, ∃ level, levels[i]? = some level ∧ id ∈ level
  number : ∀ (i : Nat) level, levels[i]? = some level →
    ∀ id ∈ level, IsGreatest (g.walkLengths id) i
  order : ∀ level ∈ levels, level.Sublist g.traits

theorem leveled_levels (htraits : g.traits.Nodup) (hclosed : g.Closed)
    (hends : ∀ id, g.Ends id) : Leveled g g.levels := by
  have hstage := stage_first g.enumerates_dependencies
  have hnone : ∀ id, id ∈ ([] : List SymbolId) ↔
      id ∈ g.traits ∧ ∀ k ∈ g.walkLengths id, k < 0 := by
    intro id
    simp only [List.not_mem_nil, false_iff, not_and]
    exact fun _ hall => absurd (hall 0 (g.zero_mem_walkLengths id)) (Nat.lt_irrefl 0)
  have hnumber : ∀ (i : Nat) level, g.levels[i]? = some level → ∀ id ∈ level,
      IsGreatest (g.walkLengths id) i := by
    intro i level hlevel id hid
    have hgreatest := hstage.isGreatest htraits g.enumerates_dependencies hclosed hnone hlevel hid
    rwa [Nat.zero_add] at hgreatest
  refine ⟨fun id hid => ?_, hnumber, fun level hlevel =>
    hstage.sublist htraits g.enumerates_dependencies hlevel⟩
  obtain ⟨level, hlevel, hmem⟩ :=
    List.mem_flatten.1 ((mem_flatten_levels htraits hclosed hends).2 hid)
  obtain ⟨i, hi⟩ := List.mem_iff_getElem?.1 hlevel
  refine ⟨i, ⟨level, hi, hmem⟩, ?_⟩
  rintro j ⟨other, hj, hother⟩
  exact (hnumber j other hj id hother).unique (hnumber i level hi id hmem)

end ModuleVisibility.UseGraph
