import ModuleVisibility.Proofs.CycleSearch
import ModuleVisibility.Proofs.Level

/-!
Use graphs with more traits. Traits that come behind those of a graph and use none of them neither
take part in its cycles nor move its traits to other levels: the search goes through the graph as
before, and then through what has been added.
-/
namespace ModuleVisibility

/-- The graph `g'` has the traits of `g` and behind them the traits `added`, which use none of the
others. -/
structure UseGraph.Extended (g : UseGraph) (added : List SymbolId) (g' : UseGraph) : Prop where
  traits : g'.traits = g.traits ++ added
  fresh : ∀ id ∈ added, id ∉ g.traits
  uses : ∀ id ∈ g.traits, g'.uses id = g.uses id
  apart : ∀ id ∈ added, ∀ used, g'.Leads id used → used ∈ added

namespace CycleSearch

variable {g g' : UseGraph} {added : List SymbolId} {s : CycleSearch} {id : SymbolId}

/-! The search of the graph itself. -/

/-- The state when there are the traits `added` too, none of which has been seen. -/
def widen (added : List SymbolId) (s : CycleSearch) : CycleSearch :=
  { s with marks := s.marks ++ added.map (·, .unseen) }

theorem mark?_widen {mark : Mark} (h : s.mark? id = some mark) :
    (s.widen added).mark? id = some mark := by
  have hlookup : s.marks.lookup id = some mark := h
  unfold mark? widen
  rw [List.lookup_append, hlookup]
  rfl

theorem setMark_widen (hid : id ∉ added) (mark : Mark) :
    setMark id mark (s.widen added).marks = setMark id mark s.marks ++ added.map (·, .unseen) := by
  unfold widen setMark
  rw [List.map_append, List.map_map]
  congr 1
  refine List.map_congr_left fun other hother => ?_
  have hne : other ≠ id := fun heq => hid (heq ▸ hother)
  simp [hne]

theorem enter_widen (hid : id ∉ added) : (s.widen added).enter id = (s.enter id).widen added := by
  unfold enter
  rw [setMark_widen hid]
  rfl

theorem follow_widen (hfresh : ∀ id ∈ added, id ∉ g.traits) (hg : g.Closed) (h : Valid g s)
    {a : SymbolId} {target : Option SymbolId} (htarget : target ∈ g.uses a) (stack : List Frame)
    (clause : ClauseRef) :
    follow { s.widen added with stack } clause target =
      (follow { s with stack } clause target).widen added := by
  cases target with
  | none => rfl
  | some next =>
    have htrait : next ∈ g.traits := hg a next htarget
    obtain ⟨mark, hmark⟩ : ∃ mark, s.mark? next = some mark := by
      refine Option.isSome_iff_exists.1 (Option.isSome_iff_ne_none.2 fun hnone => ?_)
      exact h.mark?_eq_none_iff.1 hnone htrait
    have hsmall : CycleSearch.mark? { s with stack } next = some mark := hmark
    have hwide : CycleSearch.mark? { s.widen added with stack } next = some mark :=
      mark?_widen hmark
    have hold : next ∉ added := fun hnew => hfresh next hnew htrait
    unfold follow
    simp only [hsmall, hwide]
    cases mark with
    | unseen => exact enter_widen (s := { s with stack }) hold
    | visiting => rfl
    | done => rfl

variable (h : g.Extended added g') (hg : g.Closed)
include h hg

theorem step_widen (hs : Valid g s) : step g' (s.widen added) = (step g s).widen added := by
  have hstack : (s.widen added).stack = s.stack := rfl
  unfold step
  rw [hstack]
  cases hpath : s.stack with
  | nil => rfl
  | cons top below =>
    have htop : top.node ∈ g.traits :=
      hs.mem_traits ((hs.visiting top.node).2 (by simp [hpath]))
    have hold : top.node ∉ added := fun hnew => h.fresh _ hnew htop
    simp only [h.uses _ htop]
    cases hread : (g.uses top.node)[top.cursor]? with
    | none =>
      simp only [setMark_widen hold]
      rfl
    | some target => exact follow_widen h.fresh hg hs (List.mem_of_getElem? hread) _ _

theorem run_widen (hs : Valid g s) : run g' (s.widen added) = (run g s).widen added := by
  fun_induction run g s with
  | case1 s hempty =>
    have hempty' : (s.widen added).stack = [] := hempty
    rw [run, dif_pos hempty']
  | case2 s hpath ih =>
    have hpath' : (s.widen added).stack ≠ [] := hpath
    rw [run, dif_neg hpath', step_widen h hg hs]
    exact ih (hs.step hg)

theorem visit_widen (hs : Valid g s) (hstack : s.stack = []) {root : SymbolId}
    (hroot : root ∈ g.traits) : visit g' (s.widen added) root = (visit g s root).widen added := by
  obtain ⟨mark, hmark⟩ : ∃ mark, s.mark? root = some mark := by
    refine Option.isSome_iff_exists.1 (Option.isSome_iff_ne_none.2 fun hnone => ?_)
    exact hs.mark?_eq_none_iff.1 hnone hroot
  have hold : root ∉ added := fun hnew => h.fresh _ hnew hroot
  unfold visit
  rw [mark?_widen hmark, hmark]
  by_cases hunseen : mark = .unseen
  · have hentered := hs.enter (hmark.trans (congrArg some hunseen)) [] (by simp [hstack]) trivial
    rw [← hstack] at hentered
    rw [if_pos (congrArg some hunseen), if_pos (congrArg some hunseen), enter_widen hold]
    exact run_widen h hg hentered
  · have hseen : ¬ some mark = some Mark.unseen := fun heq => hunseen (Option.some.inj heq)
    rw [if_neg hseen, if_neg hseen]

theorem visits_widen (roots : List SymbolId) (hroots : ∀ root ∈ roots, root ∈ g.traits)
    (hs : Valid g s) (hstack : s.stack = []) :
    roots.foldl (visit g') (s.widen added) = (roots.foldl (visit g) s).widen added := by
  induction roots generalizing s with
  | nil => rfl
  | cons root rest ih =>
    obtain ⟨hvalid, hempty⟩ := hs.visit hg hstack root
    rw [List.foldl_cons, List.foldl_cons, visit_widen h hg hs hstack (hroots root (by simp))]
    exact ih (fun other hother => hroots other (List.mem_cons_of_mem _ hother)) hvalid hempty

/-- The search goes through the traits of `g` first. -/
theorem ofGraph_extended :
    ofGraph g' = added.foldl (visit g') ((ofGraph g).widen added) := by
  have hstart : start g' = (start g).widen added := by
    unfold start widen
    rw [h.traits, List.map_append]
  unfold ofGraph
  rw [hstart, h.traits, List.foldl_append,
    visits_widen h hg g.traits (fun _ hroot => hroot) (valid_start g) rfl]

omit h hg

/-! The search of what has been added. -/

/-- What is known of the search once it is among the traits `added`: the path and all that is found
from then on is of these. -/
structure Beyond (added : List SymbolId) (base s : CycleSearch) : Prop where
  stack : ∀ f ∈ s.stack, f.node ∈ added
  closing : ∃ more, s.closing = base.closing ++ more ∧ ∀ clause ∈ more, clause.owner ∈ added
  cycles : ∃ more, s.cycles = base.cycles ++ more ∧ ∀ cycle ∈ more, ∀ id ∈ cycle, id ∈ added

variable {base : CycleSearch}

theorem Beyond.enter (hs : Beyond added base s) (hid : id ∈ added) :
    Beyond added base (s.enter id) where
  stack f hf := by
    rcases List.mem_cons.1 hf with rfl | hf
    · exact hid
    · exact hs.stack f hf
  closing := hs.closing
  cycles := hs.cycles

/-- A clause that closes a cycle is one of the last trait of the path. -/
theorem Beyond.close (hs : Beyond added base s) {clause : ClauseRef}
    (hclause : clause.owner ∈ added)
    (next : SymbolId) :
    Beyond added base { s with
      closing := s.closing ++ [clause]
      cycles := s.cycles ++ [pathFrom s.stack next] } where
  stack := hs.stack
  closing := by
    obtain ⟨more, hmore, howners⟩ := hs.closing
    refine ⟨more ++ [clause], by simp [hmore], fun other hother => ?_⟩
    rcases List.mem_append.1 hother with hold | hnew
    · exact howners other hold
    · rw [List.mem_singleton.1 hnew]
      exact hclause
  cycles := by
    obtain ⟨more, hmore, hids⟩ := hs.cycles
    refine ⟨more ++ [pathFrom s.stack next], by simp [hmore], fun cycle hcycle id hid => ?_⟩
    rcases List.mem_append.1 hcycle with hold | hnew
    · exact hids cycle hold id hid
    · rw [List.mem_singleton.1 hnew] at hid
      have hpath := (List.dropWhile_sublist _).subset hid
      obtain ⟨f, hf, rfl⟩ := List.mem_map.1 (List.mem_reverse.1 hpath)
      exact hs.stack f hf

theorem Beyond.follow (hs : Beyond added base s) {clause : ClauseRef}
    (hclause : clause.owner ∈ added) {target : Option SymbolId}
    (htarget : ∀ next, target = some next → next ∈ added) :
    Beyond added base (follow s clause target) := by
  unfold CycleSearch.follow
  split
  · exact hs
  · next next =>
    split
    · exact hs.enter (htarget next rfl)
    · exact hs.close hclause next
    · exact hs

theorem Beyond.step (hs : Beyond added base s)
    (hapart : ∀ id ∈ added, ∀ used, g'.Leads id used → used ∈ added) :
    Beyond added base (step g' s) := by
  unfold CycleSearch.step
  split
  · exact hs
  · next top below hpath =>
    have htop : top.node ∈ added := hs.stack top (by simp [hpath])
    have hbelow : ∀ f ∈ below, f.node ∈ added := fun f hf => hs.stack f (by simp [hpath, hf])
    split
    · exact ⟨hbelow, hs.closing, hs.cycles⟩
    · next target hread =>
      have hmoved : Beyond added base { s with stack := ⟨top.node, top.cursor + 1⟩ :: below } := by
        refine ⟨fun f hf => ?_, hs.closing, hs.cycles⟩
        rcases List.mem_cons.1 hf with rfl | hf
        · exact htop
        · exact hbelow f hf
      refine hmoved.follow htop fun next hnext => hapart _ htop next ?_
      rw [hnext] at hread
      exact List.mem_of_getElem? hread

theorem Beyond.run (hs : Beyond added base s)
    (hapart : ∀ id ∈ added, ∀ used, g'.Leads id used → used ∈ added) :
    Beyond added base (run g' s) := by
  fun_induction CycleSearch.run g' s with
  | case1 => exact hs
  | case2 s _ ih => exact ih (hs.step hapart)

theorem Beyond.visits (roots : List SymbolId) (hroots : ∀ root ∈ roots, root ∈ added)
    (hs : Beyond added base s) (hapart : ∀ id ∈ added, ∀ used, g'.Leads id used → used ∈ added) :
    Beyond added base (roots.foldl (visit g') s) := by
  induction roots generalizing s with
  | nil => exact hs
  | cons root rest ih =>
    refine ih (fun other hother => hroots other (List.mem_cons_of_mem _ hother)) ?_
    unfold visit
    split
    · exact (hs.enter (hroots root (by simp))).run hapart
    · exact hs

/-- What is found in `g` is found first, and what is found besides is among the traits `added`. -/
theorem beyond_ofGraph (h : g.Extended added g') (hg : g.Closed) :
    Beyond added (ofGraph g) (ofGraph g') := by
  have hempty : (ofGraph g).stack = [] := ((valid_start g).visits hg g.traits rfl).2
  have hbase : Beyond added (ofGraph g) ((ofGraph g).widen added) :=
    { stack := fun f hf => by
        have hf : f ∈ (ofGraph g).stack := hf
        rw [hempty] at hf
        cases hf
      closing := ⟨[], (List.append_nil _).symm, by simp⟩
      cycles := ⟨[], (List.append_nil _).symm, by simp⟩ }
  rw [ofGraph_extended h hg]
  exact hbase.visits added (fun _ hroot => hroot) h.apart

end CycleSearch

/-! The graph that is left without cycles, and its levels. -/

namespace UseGraph

variable {g g' : UseGraph} {added : List SymbolId} {id : SymbolId}

/-- Dropping clauses of other owners besides changes nothing for an owner. -/
theorem uses_drop_append (clauses : List ClauseRef) {more : List ClauseRef}
    (huses : g'.uses id = g.uses id)
    (hmore : ∀ clause ∈ more, clause.owner ≠ id) :
    (g'.drop (clauses ++ more)).uses id = (g.drop clauses).uses id := by
  have hmem : ∀ i, (⟨id, i⟩ : ClauseRef) ∈ clauses ++ more ↔ ⟨id, i⟩ ∈ clauses := by
    intro i
    rw [List.mem_append]
    exact or_iff_left fun hnew => hmore _ hnew rfl
  rw [uses_drop, uses_drop, huses]
  simp only [hmem]

theorem Extended.drop (h : g.Extended added g') (clauses : List ClauseRef) {more : List ClauseRef}
    (hmore : ∀ clause ∈ more, clause.owner ∈ added) :
    (g.drop clauses).Extended added (g'.drop (clauses ++ more)) where
  traits := h.traits
  fresh := h.fresh
  uses id hid := uses_drop_append clauses (h.uses id hid) fun clause hclause heq =>
    h.fresh _ (hmore clause hclause) (heq ▸ hid)
  apart id hid used hleads := h.apart id hid used hleads.of_drop

theorem Extended.leads_iff (h : g.Extended added g') (hid : id ∈ g.traits) {used : SymbolId} :
    g'.Leads id used ↔ g.Leads id used := by
  unfold Leads
  rw [h.uses id hid]

section

variable {deps deps' : SymbolId → List SymbolId} {waiting waiting' : List (SymbolId × Nat)}
  {placed placed' level level' : List SymbolId}

/-- What can be placed in `g` is what can be placed of its traits in the extended graph. -/
theorem Extended.ready (h : g.Extended added g') (hclosed : g.Closed)
    (hplaced : ∀ id ∈ g.traits, id ∈ placed' ↔ id ∈ placed) :
    (g'.ready placed').filter (· ∈ g.traits) = g.ready placed := by
  have hadded : (added.filter fun id =>
      id ∉ placed' ∧ ∀ used ∈ g'.targets id, used ∈ placed').filter (· ∈ g.traits) = [] := by
    refine List.filter_eq_nil_iff.2 fun id hid => ?_
    simpa using h.fresh id (List.mem_filter.1 hid).1
  unfold UseGraph.ready
  rw [h.traits, List.filter_append, List.filter_append, hadded, List.append_nil, List.filter_filter]
  refine List.filter_congr fun id hid => ?_
  have hused : (∀ used ∈ g'.targets id, used ∈ placed') ↔ ∀ used ∈ g.targets id, used ∈ placed := by
    simp only [mem_targets, h.leads_iff hid]
    exact forall_congr' fun used => forall_congr' fun hleads =>
      hplaced used (hclosed id used hleads)
  simp only [hid, decide_true, Bool.true_and, hplaced id hid, hused]

theorem Stage.level_extended (h : g.Extended added g') (hclosed : g.Closed)
    (hstage : Stage g deps waiting placed level) (hstage' : Stage g' deps' waiting' placed' level')
    (hplaced : ∀ id ∈ g.traits, id ∈ placed' ↔ id ∈ placed) :
    level'.filter (· ∈ g.traits) = level := by
  rw [hstage.level, hstage'.level, h.ready hclosed hplaced]

/-- The traits of `g` are placed in the same order. -/
theorem Stage.flatten_extended (h : g.Extended added g') (hclosed : g.Closed)
    (htraits : g.traits.Nodup) (htraits' : g'.traits.Nodup) (hdeps : g.Enumerates deps)
    (hdeps' : g'.Enumerates deps') (hstage : Stage g deps waiting placed level)
    (hstage' : Stage g' deps' waiting' placed' level')
    (hplaced : ∀ id ∈ g.traits, id ∈ placed' ↔ id ∈ placed) :
    (levelsFrom g' deps' waiting' level').flatten.filter (· ∈ g.traits) =
      (levelsFrom g deps waiting level).flatten := by
  fun_induction levelsFrom g' deps' waiting' level' generalizing placed placed' waiting level with
  | case1 =>
    have hlevel : level = [] := (hstage.level_extended h hclosed hstage' hplaced).symm
    rw [levelsFrom, dif_pos hlevel]
    rfl
  | case2 waiting' level' _ ih =>
    have hlevel := hstage.level_extended h hclosed hstage' hplaced
    have hnext' := hstage'.next htraits' hdeps'
    have hplaced' : ∀ id ∈ g.traits, id ∈ placed' ++ level' ↔ id ∈ placed ++ level := by
      intro id hid
      rw [List.mem_append, List.mem_append, hplaced id hid, ← hlevel, List.mem_filter,
        and_iff_left (decide_eq_true hid)]
    rw [List.flatten_cons, List.filter_append, hlevel]
    by_cases hempty : level = []
    · -- The levels of `g` have come to an end, and what follows holds none of its traits.
      rw [hempty, List.append_nil] at hplaced'
      rw [ih hstage hnext' hplaced', hempty, List.nil_append]
    · rw [ih (hstage.next htraits hdeps) hnext' hplaced', ← List.flatten_cons]
      conv_rhs => rw [levelsFrom, dif_neg hempty]

theorem flatten_levels_extended (h : g.Extended added g') (hclosed : g.Closed)
    (htraits : g.traits.Nodup) (htraits' : g'.traits.Nodup) :
    g'.levels.flatten.filter (· ∈ g.traits) = g.levels.flatten :=
  (stage_first g.enumerates_dependencies).flatten_extended h hclosed htraits htraits'
    g.enumerates_dependencies g'.enumerates_dependencies (stage_first g'.enumerates_dependencies)
    fun _ _ => Iff.rfl

end

end UseGraph

end ModuleVisibility
