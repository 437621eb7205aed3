import ModuleVisibility.Composition.CycleSearch
import ModuleVisibility.Proofs.UseGraph

/-!
The cycle search is complete: without the clauses that it found to close a cycle, no walk goes on
for ever. The invariant says of every clause that has been read where it leads; a trait that the
search leaves has only settled clauses, so walks from it end because those from done traits do.
-/
namespace ModuleVisibility.CycleSearch

variable {g : UseGraph} {s : CycleSearch} {id : SymbolId}

theorem lookup_setMark (id other : SymbolId) (mark : Mark) (marks : List (SymbolId × Mark)) :
    (setMark id mark marks).lookup other =
      (marks.lookup other).map fun old => if other = id then mark else old :=
  lookup_map_value (fun other old => if other = id then mark else old) marks other

theorem keys_setMark (id : SymbolId) (mark : Mark) (marks : List (SymbolId × Mark)) :
    (setMark id mark marks).map Prod.fst = marks.map Prod.fst := by
  simp [setMark]

/-- The clause closes a cycle, or it leads to a trait that the search is done with. -/
def Settled (s : CycleSearch) (clause : ClauseRef) (target : SymbolId) : Prop :=
  clause ∈ s.closing ∨ s.mark? target = some .done

/-- What is known of a trait on the path when `above` is the next trait of the path: the last
clause read leads there, and every other one that has been read is settled. -/
structure FrameValid (g : UseGraph) (s : CycleSearch) (above : Option SymbolId) (f : Frame) :
    Prop where
  reaches : ∀ next, above = some next →
    ∃ c, f.cursor = c + 1 ∧ (g.uses f.node)[c]? = some (some next)
  settled : ∀ i < f.cursor, ∀ target, (g.uses f.node)[i]? = some (some target) →
    s.Settled ⟨f.node, i⟩ target ∨ above = some target

def PathValid (g : UseGraph) (s : CycleSearch) : Option SymbolId → List Frame → Prop
  | _, [] => True
  | above, f :: below => FrameValid g s above f ∧ PathValid g s (some f.node) below

/-- The invariant of the search. -/
structure Valid (g : UseGraph) (s : CycleSearch) : Prop where
  keys : s.marks.map Prod.fst = g.traits
  visiting : ∀ id, s.mark? id = some .visiting ↔ id ∈ s.stack.map Frame.node
  nodup : (s.stack.map Frame.node).Nodup
  path : PathValid g s none s.stack
  settled : ∀ a, s.mark? a = some .done → ∀ i target,
    (g.uses a)[i]? = some (some target) → s.Settled ⟨a, i⟩ target
  ends : ∀ a, s.mark? a = some .done → (g.drop s.closing).Ends a
  cycles : ∀ cycle ∈ s.cycles, ∀ id ∈ cycle, id ∈ g.traits

theorem PathValid.mono {s s' : CycleSearch} (hsettled : ∀ clause target,
    s.Settled clause target → s'.Settled clause target) {above : Option SymbolId}
    {stack : List Frame} (h : PathValid g s above stack) : PathValid g s' above stack := by
  induction stack generalizing above with
  | nil => trivial
  | cons f below ih =>
    obtain ⟨hframe, hbelow⟩ := h
    refine ⟨⟨hframe.reaches, fun i hi target htarget => ?_⟩, ih hbelow⟩
    exact (hframe.settled i hi target htarget).imp_left (hsettled _ _)

theorem Valid.mark?_eq_none_iff (h : Valid g s) : s.mark? id = none ↔ id ∉ g.traits := by
  rw [← h.keys, mark?, List.lookup_eq_none_iff]
  simp only [List.mem_map, not_exists, not_and, bne_iff_ne]
  exact ⟨fun h p hp heq => h p hp heq.symm, fun h p hp heq => h p hp heq.symm⟩

theorem Valid.mem_traits (h : Valid g s) {mark : Mark} (hmark : s.mark? id = some mark) :
    id ∈ g.traits := by
  rw [← h.keys]
  exact List.mem_map.2 ⟨_, mem_of_lookup_eq_some hmark, rfl⟩

theorem valid_start (g : UseGraph) : Valid g (start g) := by
  have hmark : ∀ id mark, (start g).mark? id = some mark → mark = .unseen := by
    intro id mark hid
    obtain ⟨_, _, heq⟩ := List.mem_map.1 (mem_of_lookup_eq_some hid)
    exact (Prod.mk.inj heq).2.symm
  have hkeys : (start g).marks.map Prod.fst = g.traits := by
    simp [start, Function.comp_def]
  refine ⟨hkeys, fun id => ?_, List.nodup_nil, trivial, ?_, ?_, by simp [start]⟩
  · constructor
    · intro hid
      cases hmark id _ hid
    · intro hid
      cases hid
  · intro a ha
    cases hmark a _ ha
  · intro a ha
    cases hmark a _ ha

/-! Entering a trait. -/

theorem mark?_enter (s : CycleSearch) (id other : SymbolId) :
    (s.enter id).mark? other =
      (s.mark? other).map fun old => if other = id then .visiting else old :=
  lookup_setMark id other .visiting s.marks

theorem done_enter (hid : s.mark? id = some .unseen) {other : SymbolId} :
    (s.enter id).mark? other = some .done ↔ s.mark? other = some .done := by
  rw [mark?_enter]
  by_cases h : other = id
  · subst h
    simp [hid]
  · simp [h]

/-- Entering an unseen trait keeps the invariant, if the path with moved cursors leads there. -/
theorem Valid.enter (h : Valid g s) (hid : s.mark? id = some .unseen) (stack : List Frame)
    (hnodes : stack.map Frame.node = s.stack.map Frame.node)
    (hpath : PathValid g s (some id) stack) : Valid g ({ s with stack }.enter id) := by
  have hfresh : id ∉ stack.map Frame.node := by
    rw [hnodes, ← h.visiting, hid]
    simp
  have hnodup : (stack.map Frame.node).Nodup := hnodes ▸ h.nodup
  have hdone : ∀ {a}, ({ s with stack }.enter id).mark? a = some .done ↔ s.mark? a = some .done :=
    done_enter hid
  have hpath' : PathValid g ({ s with stack }.enter id) (some id) stack := by
    refine hpath.mono fun _ _ hclause => ?_
    exact hclause.imp_right hdone.2
  refine ⟨(keys_setMark ..).trans h.keys, fun other => ?_, List.nodup_cons.2 ⟨hfresh, hnodup⟩,
    ⟨⟨by simp, by simp⟩, hpath'⟩, ?_, ?_, h.cycles⟩
  · rw [mark?_enter]
    by_cases hother : other = id
    · subst hother
      have hmark : ({ s with stack } : CycleSearch).mark? other = some .unseen := hid
      simp [CycleSearch.enter, hmark]
    · have hvisiting := h.visiting other
      rw [← hnodes] at hvisiting
      simpa [CycleSearch.enter, hother, mark?] using hvisiting
  · intro a ha i target htarget
    exact (h.settled a (hdone.1 ha) i target htarget).imp_right hdone.2
  · intro a ha
    exact h.ends a (hdone.1 ha)

/-! Reading a clause that does not lengthen the path. -/

variable {top : Frame} {below : List Frame}

/-- Moving the cursor over a clause that is settled then keeps the invariant. -/
theorem Valid.advance (h : Valid g s) (hs : s.stack = top :: below) (closed : List ClauseRef)
    (found : List (List SymbolId))
    (hread : ∀ target, (g.uses top.node)[top.cursor]? = some (some target) →
      ⟨top.node, top.cursor⟩ ∈ s.closing ++ closed ∨ s.mark? target = some .done)
    (hfound : ∀ cycle ∈ found, ∀ id ∈ cycle, id ∈ g.traits) :
    Valid g ⟨s.marks, ⟨top.node, top.cursor + 1⟩ :: below, s.closing ++ closed,
      s.cycles ++ found⟩ := by
  have hmore : ∀ clause target, s.Settled clause target →
      Settled ⟨s.marks, ⟨top.node, top.cursor + 1⟩ :: below, s.closing ++ closed,
        s.cycles ++ found⟩ clause target :=
    fun _ _ => Or.imp_left (List.mem_append_left _)
  have hpath := h.path
  have hvisiting := h.visiting
  have hnodup := h.nodup
  rw [hs] at hpath hvisiting hnodup
  refine ⟨h.keys, hvisiting, hnodup, ⟨⟨by simp, fun i hi target htarget => ?_⟩,
    hpath.2.mono hmore⟩, fun a ha i target htarget => hmore _ _ (h.settled a ha i target htarget),
    fun a ha => (h.ends a ha).of_subset fun c hc => List.mem_append_left _ hc, ?_⟩
  · rcases Nat.lt_succ_iff_lt_or_eq.1 hi with hlt | rfl
    · exact (hpath.1.settled i hlt target htarget).imp_left (hmore _ _)
    · exact .inl (hread target htarget)
  · intro cycle hcycle
    rcases List.mem_append.1 hcycle with hold | hnew
    · exact h.cycles cycle hold
    · exact hfound cycle hnew

/-! Leaving a trait. -/

/-- The search when it is done with the trait `id`, with `below` the path that led there. -/
def leaveTo (s : CycleSearch) (id : SymbolId) (below : List Frame) : CycleSearch :=
  { s with marks := setMark id .done s.marks, stack := below }

theorem mark?_leaveTo (hid : s.mark? id = some .visiting) (below : List Frame) (other : SymbolId) :
    (s.leaveTo id below).mark? other = if other = id then some .done else s.mark? other := by
  refine (lookup_setMark id other .done s.marks).trans ?_
  by_cases hother : other = id
  · subst hother
    simp only [mark?] at hid
    simp [hid]
  · simp [hother, mark?]

theorem done_leaveTo (hid : s.mark? id = some .visiting) (below : List Frame) {a : SymbolId}
    (ha : s.mark? a = some .done) : (s.leaveTo id below).mark? a = some .done := by
  rw [mark?_leaveTo hid]
  split
  · rfl
  · exact ha

/-- Where the cursor of the last trait of the path is behind all clauses, they are settled: the path
does not go on from there. -/
theorem Valid.settled_top (h : Valid g s) (hs : s.stack = top :: below)
    (hread : (g.uses top.node)[top.cursor]? = none) {i : Nat} {target : SymbolId}
    (htarget : (g.uses top.node)[i]? = some (some target)) : s.Settled ⟨top.node, i⟩ target := by
  have hpath := h.path
  rw [hs] at hpath
  have hlt : i < top.cursor := by
    have hbound := (List.getElem?_eq_some_iff.1 htarget).1
    have hend := List.getElem?_eq_none_iff.1 hread
    omega
  exact (hpath.1.settled i hlt target htarget).resolve_right (by simp)

/-- Walks from a trait end if all of its clauses are settled. -/
theorem Valid.ends_of_settled (h : Valid g s) {a : SymbolId}
    (hsettled : ∀ i target, (g.uses a)[i]? = some (some target) → s.Settled ⟨a, i⟩ target) :
    (g.drop s.closing).Ends a := by
  refine Acc.intro _ fun target htarget => ?_
  obtain ⟨i, hi, hkept⟩ := UseGraph.leads_drop.1 htarget
  exact h.ends target ((hsettled i target hi).resolve_left hkept)

/-- The clause that led to the trait that is left has become a settled one. -/
theorem PathValid.leaveTo (hid : s.mark? id = some .visiting) (h : PathValid g s (some id) below) :
    PathValid g (s.leaveTo id below) none below := by
  have hmore : ∀ clause target, s.Settled clause target →
      (s.leaveTo id below).Settled clause target :=
    fun _ _ => Or.imp_right (done_leaveTo hid below)
  cases below with
  | nil => trivial
  | cons f rest =>
    obtain ⟨hframe, hrest⟩ := h
    refine ⟨⟨by simp, fun i hi target htarget => .inl ?_⟩, hrest.mono hmore⟩
    rcases hframe.settled i hi target htarget with hold | habove
    · exact hmore _ _ hold
    · cases habove
      exact .inr ((mark?_leaveTo hid _ _).trans (if_pos rfl))

/-- Leaving a trait whose clauses have all been read keeps the invariant. -/
theorem Valid.leave (h : Valid g s) (hs : s.stack = top :: below)
    (hread : (g.uses top.node)[top.cursor]? = none) : Valid g (s.leaveTo top.node below) := by
  have hpath := h.path
  have hvisiting := h.visiting
  have hnodup := h.nodup
  rw [hs] at hpath hvisiting hnodup
  obtain ⟨hfresh, hnodup⟩ := List.nodup_cons.1 hnodup
  have htop : s.mark? top.node = some .visiting := (hvisiting _).2 List.mem_cons_self
  refine ⟨(keys_setMark ..).trans h.keys, fun other => ?_, hnodup, hpath.2.leaveTo htop, ?_, ?_,
    h.cycles⟩
  · rw [mark?_leaveTo htop]
    by_cases hother : other = top.node
    · subst hother
      simpa [leaveTo] using hfresh
    · simpa [leaveTo, hother] using hvisiting other
  · intro a ha i target htarget
    refine Or.imp_right (done_leaveTo htop below) ?_
    rw [mark?_leaveTo htop] at ha
    split at ha
    · next heq =>
      subst heq
      exact h.settled_top hs hread htarget
    · exact h.settled a ha i target htarget
  · intro a ha
    rw [mark?_leaveTo htop] at ha
    split at ha
    · next heq =>
      subst heq
      exact h.ends_of_settled fun _ _ htarget => h.settled_top hs hread htarget
    · exact h.ends a ha

/-! Steps and runs. -/

theorem mem_traits_of_mem_pathFrom (h : Valid g s) {node : SymbolId}
    (hmem : id ∈ pathFrom s.stack node) : id ∈ g.traits := by
  have hstack : id ∈ s.stack.map Frame.node :=
    List.mem_reverse.1 ((List.dropWhile_sublist _).subset hmem)
  exact h.mem_traits ((h.visiting id).2 hstack)

theorem Valid.follow (hg : g.Closed) (h : Valid g s) (hs : s.stack = top :: below)
    {target : Option SymbolId} (hread : (g.uses top.node)[top.cursor]? = some target) :
    Valid g (follow { s with stack := ⟨top.node, top.cursor + 1⟩ :: below }
      ⟨top.node, top.cursor⟩ target) := by
  have hskip : (∀ next, target = some next → s.mark? next = some .done) →
      Valid g { s with stack := ⟨top.node, top.cursor + 1⟩ :: below } := by
    intro hdone
    have hadvance := h.advance hs [] []
      (fun next hnext => .inr (hdone next (Option.some.inj (hread.symm.trans hnext)))) (by simp)
    simpa using hadvance
  unfold CycleSearch.follow
  cases target with
  | none => exact hskip (by simp)
  | some next =>
    have hpath := h.path
    rw [hs] at hpath
    cases hmark : s.mark? next with
    | none =>
      have hmem : next ∈ g.traits := hg _ _ (List.mem_of_getElem? hread)
      exact absurd hmem (h.mark?_eq_none_iff.1 hmark)
    | some mark =>
      have hmark' : CycleSearch.mark?
          { s with stack := ⟨top.node, top.cursor + 1⟩ :: below } next = some mark := hmark
      cases mark with
      | unseen =>
        simp only [hmark']
        refine h.enter hmark _ (by simp [hs])
          ⟨⟨fun _ heq => ?_, fun i hi other hother => ?_⟩, hpath.2⟩
        · cases heq
          exact ⟨top.cursor, rfl, hread⟩
        · rcases Nat.lt_succ_iff_lt_or_eq.1 hi with hlt | rfl
          · exact .inl ((hpath.1.settled i hlt other hother).resolve_right (by simp))
          · exact .inr (Option.some.inj (hread.symm.trans hother))
      | visiting =>
        simp only [hmark']
        refine h.advance hs _ _ (fun _ _ => .inl (by simp)) fun cycle hcycle id hid => ?_
        rw [List.mem_singleton.1 hcycle] at hid
        have hpath : id ∈ pathFrom s.stack next := by simpa [pathFrom, hs] using hid
        exact mem_traits_of_mem_pathFrom h hpath
      | done =>
        simp only [hmark']
        refine hskip fun _ heq => ?_
        cases heq
        exact hmark

theorem Valid.step (hg : g.Closed) (h : Valid g s) : Valid g (step g s) := by
  unfold CycleSearch.step
  split
  · exact h
  · next top below hs =>
    split
    · next hread => exact h.leave hs hread
    · next target hread => exact h.follow hg hs hread

theorem Valid.run (hg : g.Closed) (h : Valid g s) : Valid g (run g s) := by
  fun_induction CycleSearch.run g s with
  | case1 => exact h
  | case2 s _ ih => exact ih (h.step hg)

/-! No trait is forgotten. -/

theorem seen_setMark {mark : Mark} (hmark : mark ≠ .unseen) {marks : List (SymbolId × Mark)}
    {a : SymbolId} (h : marks.lookup a ≠ some .unseen) (id : SymbolId) :
    (setMark id mark marks).lookup a ≠ some .unseen := by
  rw [lookup_setMark]
  intro heq
  obtain ⟨old, hold, hnew⟩ := Option.map_eq_some_iff.1 heq
  split at hnew
  · exact hmark hnew
  · exact h (hnew ▸ hold)

theorem seen_step {a : SymbolId} (h : s.mark? a ≠ some .unseen) :
    (step g s).mark? a ≠ some .unseen := by
  unfold step
  split
  · exact h
  · split
    · exact seen_setMark (by decide) h _
    · unfold follow
      split
      · exact h
      · split
        · exact seen_setMark (by decide) h _
        · exact h
        · exact h

theorem seen_run {a : SymbolId} (h : s.mark? a ≠ some .unseen) :
    (run g s).mark? a ≠ some .unseen := by
  fun_induction run g s with
  | case1 => exact h
  | case2 s _ ih => exact ih (seen_step h)

theorem stack_run (g : UseGraph) (s : CycleSearch) : (run g s).stack = [] := by
  fun_induction CycleSearch.run g s with
  | case1 _ h => exact h
  | case2 _ _ ih => exact ih

theorem Valid.visit (hg : g.Closed) (h : Valid g s) (hs : s.stack = []) (root : SymbolId) :
    Valid g (visit g s root) ∧ (visit g s root).stack = [] := by
  unfold CycleSearch.visit
  split
  · next hroot =>
    have henter := h.enter hroot [] (by simp [hs]) trivial
    rw [← hs] at henter
    exact ⟨henter.run hg, stack_run g _⟩
  · exact ⟨h, hs⟩

theorem seen_visit_root (g : UseGraph) (s : CycleSearch) (root : SymbolId) :
    (visit g s root).mark? root ≠ some .unseen := by
  unfold visit
  split
  · next hroot =>
    refine seen_run ?_
    rw [mark?_enter, hroot]
    simp
  · next hroot => exact hroot

theorem seen_visit {a : SymbolId} (h : s.mark? a ≠ some .unseen) (root : SymbolId) :
    (visit g s root).mark? a ≠ some .unseen := by
  unfold visit
  split
  · exact seen_run (seen_setMark (by decide) h root)
  · exact h

theorem Valid.visits (hg : g.Closed) (roots : List SymbolId) :
    ∀ {s : CycleSearch}, Valid g s → s.stack = [] →
      Valid g (roots.foldl (CycleSearch.visit g) s) ∧
        (roots.foldl (CycleSearch.visit g) s).stack = [] := by
  induction roots with
  | nil => exact fun h hs => ⟨h, hs⟩
  | cons root roots ih =>
    intro s h hs
    obtain ⟨hvalid, hstack⟩ := h.visit hg hs root
    exact ih hvalid hstack

theorem seen_visits {roots : List SymbolId} {a : SymbolId}
    (h : a ∈ roots ∨ s.mark? a ≠ some .unseen) :
    (roots.foldl (visit g) s).mark? a ≠ some .unseen := by
  induction roots generalizing s with
  | nil => exact h.resolve_left List.not_mem_nil
  | cons root roots ih =>
    refine ih ?_
    rcases h with hmem | hseen
    · rcases List.mem_cons.1 hmem with rfl | hmem
      · exact .inr (seen_visit_root g s a)
      · exact .inl hmem
    · exact .inr (seen_visit hseen root)

theorem valid_ofGraph (hg : g.Closed) : Valid g (ofGraph g) :=
  ((valid_start g).visits hg g.traits rfl).1

/-- What holds before the search, when a path starts and after each step holds of its result. -/
theorem ofGraph_induction (hg : g.Closed) {P : CycleSearch → Prop} (hstart : P (start g))
    (henter : ∀ s root, Valid g s → s.stack = [] → P s → s.mark? root = some .unseen →
      P (s.enter root))
    (hstep : ∀ s, Valid g s → P s → P (step g s)) : P (ofGraph g) := by
  have hrun : ∀ s, Valid g s → P s → P (CycleSearch.run g s) := by
    intro s hvalid h
    fun_induction CycleSearch.run g s with
    | case1 => exact h
    | case2 s _ ih => exact ih (hvalid.step hg) (hstep s hvalid h)
  have hvisits : ∀ (roots : List SymbolId) (s : CycleSearch), Valid g s → s.stack = [] → P s →
      P (roots.foldl (CycleSearch.visit g) s) := by
    intro roots
    induction roots with
    | nil => exact fun s _ _ h => h
    | cons root roots ih =>
      intro s hvalid hs h
      obtain ⟨hvalid', hs'⟩ := hvalid.visit hg hs root
      refine ih _ hvalid' hs' ?_
      unfold CycleSearch.visit
      split
      · next hroot =>
        have hentered := hvalid.enter hroot [] (by simp [hs]) trivial
        rw [← hs] at hentered
        exact hrun _ hentered (henter s root hvalid hs h hroot)
      · exact h
  exact hvisits g.traits (start g) (valid_start g) rfl hstart

/-- The search ends with every trait done. -/
theorem done_ofGraph (hg : g.Closed) {a : SymbolId} (ha : a ∈ g.traits) :
    (ofGraph g).mark? a = some .done := by
  obtain ⟨hvalid, hstack⟩ := (valid_start g).visits hg g.traits rfl
  have hseen : (ofGraph g).mark? a ≠ some .unseen := seen_visits (.inl ha)
  cases hmark : (ofGraph g).mark? a with
  | none => exact absurd ha (hvalid.mark?_eq_none_iff.1 hmark)
  | some mark =>
    cases mark with
    | unseen => exact absurd hmark hseen
    | visiting =>
      have hmem := (hvalid.visiting a).1 hmark
      rw [hstack] at hmem
      cases hmem
    | done => rfl

/-- Without the clauses that close a cycle every walk ends. -/
theorem ends_drop_closing (hg : g.Closed) (a : SymbolId) :
    (g.drop (ofGraph g).closing).Ends a := by
  refine Acc.intro a fun b hab => ?_
  exact (valid_ofGraph hg).ends b (done_ofGraph hg (hg a b hab.of_drop))

end ModuleVisibility.CycleSearch

namespace ModuleVisibility.SymbolTable

variable {t : SymbolTable} {id : SymbolId} {owner : Symbol}

/-- The traits that the clauses of `owner` bring in, in order, without those by which a cycle
closes. -/
def keptUses (t : SymbolTable) (id : SymbolId) (owner : Symbol) : List SymbolId :=
  owner.uses.zipIdx.filterMap fun (clause, index) =>
    if ⟨id, index⟩ ∈ (CycleSearch.ofGraph t.useGraph).closing then none else t.useTarget? clause

/-- The use graph that is left when no cycle closes. -/
def keptGraph (t : SymbolTable) : UseGraph :=
  t.useGraph.drop (CycleSearch.ofGraph t.useGraph).closing

theorem targets_keptGraph (h : t.get? id = some owner) :
    t.keptGraph.targets id = t.keptUses id owner := by
  unfold UseGraph.targets keptGraph keptUses
  rw [UseGraph.uses_drop, uses_useGraph h, List.mapIdx_eq_zipIdx_map, List.filterMap_map,
    List.zipIdx_map, List.filterMap_map]
  rfl

theorem leads_keptGraph (h : t.get? id = some owner) {used : SymbolId} :
    t.keptGraph.Leads id used ↔ used ∈ t.keptUses id owner := by
  rw [← targets_keptGraph h, UseGraph.mem_targets]

theorem ends_keptGraph (t : SymbolTable) (id : SymbolId) : t.keptGraph.Ends id :=
  CycleSearch.ends_drop_closing t.closed_useGraph id

end ModuleVisibility.SymbolTable
