import Mathlib.Data.List.Perm.Basic
import ModuleVisibility.Proofs.CycleOrder

/-!
What a report of a cycle says is so. Each report is about a cycle of use clauses in which no trait
comes twice, is written from the least name back to it, and stands at the first clause by which the
trait of that name uses the next one. No two reports are about the same traits, every trait that is
listed as cyclic is in one of them, and there is none exactly if no trait uses itself.
-/
namespace ModuleVisibility

namespace CycleReport

variable {t : SymbolTable} {sources : SourceMap} {cycle other : List SymbolId} {first : SymbolId}
  {others : List SymbolId} {d : Diagnostic}

/-- The diagnostic reports the cycle from `first` over `others`. -/
structure Reports (t : SymbolTable) (sources : SourceMap) (first : SymbolId)
    (others : List SymbolId)
    (d : Diagnostic) : Prop where
  cycle : t.useGraph.IsCycle (first :: others)
  least : ∀ id ∈ others, t.name first < t.name id
  message : d.message = "trait composition cycle: " ++
    String.intercalate " -> " (t.name first :: others.map t.name ++ [t.name first])
  place : ∃ head before clause after, t.get? first = some head ∧
    head.uses = before ++ clause :: after ∧
    t.useTarget? clause = some (others.headD first) ∧ clause.name = t.name (others.headD first) ∧
    (∀ earlier ∈ before, earlier.name ≠ t.name (others.headD first)) ∧
    d.location = sources.locate head.unit clause.span

theorem leads_headD (h : t.useGraph.IsCycle (first :: others)) :
    t.useGraph.Leads first (others.headD first) := by
  cases others with
  | nil => exact h.closed first rfl first rfl
  | cons next rest => exact (List.isChain_cons_cons.1 h.chain).1

/-- A clause is known by the name of the trait that it brings in. -/
theorem name_of_useTarget? {clause : UseClause} {target : SymbolId}
    (h : t.useTarget? clause = some target) : clause.name = t.name target := by
  obtain ⟨s, hfind, hget, _⟩ := SymbolTable.useTarget?_eq_some_iff.1 h
  obtain ⟨s', hget', hname⟩ := SymbolTable.get?_of_find? hfind
  rw [SymbolTable.name, hget', Option.map_some, Option.getD_some, hname]

/-- The least of different names is less than every other one. -/
theorem lt_of_least (hnames : t.DistinctNames) (hcycle : t.useGraph.IsCycle (first :: others))
    (hleast : ∀ id ∈ first :: others, t.name first ≤ t.name id) :
    ∀ id ∈ others, t.name first < t.name id := by
  intro id hid
  have hmem : id ∈ first :: others := List.mem_cons_of_mem first hid
  have hne : first ≠ id := fun heq => (List.nodup_cons.1 hcycle.nodup).1 (heq ▸ hid)
  refine String.not_le.1 fun hle => hne ?_
  exact hnames.eq_of_name (isSome_get?_of_isCycle hcycle List.mem_cons_self)
    (isSome_get?_of_isCycle hcycle hmem) (String.le_antisymm (hleast id hmem) hle)

/-- The report of a cycle that is written from its least name on. -/
theorem reports_ofRotated? (sources : SourceMap) (hcycle : t.useGraph.IsCycle (first :: others))
    (hleast : ∀ id ∈ others, t.name first < t.name id) :
    ∃ d, ofRotated? t sources (first :: others) = some d ∧ Reports t sources first others d := by
  obtain ⟨head, hhead⟩ := Option.isSome_iff_exists.1
    (isSome_get?_of_isCycle hcycle List.mem_cons_self)
  have hleads : some (others.headD first) ∈ t.useGraph.uses first := leads_headD hcycle
  rw [SymbolTable.uses_useGraph hhead] at hleads
  obtain ⟨wanted, hwanted, htarget⟩ := List.mem_map.1 hleads
  have hsome : (head.uses.find? (·.name == t.name (others.headD first))).isSome :=
    List.find?_isSome.2 ⟨wanted, hwanted, by simp [name_of_useTarget? htarget]⟩
  obtain ⟨clause, hclause⟩ := Option.isSome_iff_exists.1 hsome
  obtain ⟨hname, before, after, huses, hearlier⟩ := List.find?_eq_some_iff_append.1 hclause
  have hsame : clause.name = t.name (others.headD first) := beq_iff_eq.1 hname
  refine ⟨_, by rw [ofRotated?, hhead, Option.map_some], hcycle, hleast, rfl,
    head, before, clause, after, hhead, huses, ?_, hsame,
    fun c hc => by simpa using hearlier c hc, ?_⟩
  · rw [← htarget, SymbolTable.useTarget?, SymbolTable.useTarget?, hsame,
      name_of_useTarget? htarget]
  · simp only [Finding.report, clauseSpan, hclause]

/-- Lists of names of the same traits are the same in order. -/
theorem nameSet_eq (hnodup : cycle.Nodup) (hnodup' : other.Nodup)
    (h : ∀ id, id ∈ cycle ↔ id ∈ other) :
    nameSet t cycle = nameSet t other := by
  have hperm : (nameSet t cycle).Perm (nameSet t other) :=
    ((List.mergeSort_perm _ nameLe).trans
      (((List.perm_ext_iff_of_nodup hnodup hnodup').2 h).map t.name)).trans
      (List.mergeSort_perm _ nameLe).symm
  have hsorted : ∀ names : List String, (names.mergeSort nameLe).Pairwise fun a b =>
      nameLe a b = true :=
    List.pairwise_mergeSort
      (fun a b c hab hbc => decide_eq_true
        (String.le_trans (of_decide_eq_true hab) (of_decide_eq_true hbc)))
      (fun a b => by simpa [nameLe] using String.le_total a b)
  exact hperm.eq_of_pairwise (fun a b _ _ hab hba =>
    String.le_antisymm (of_decide_eq_true hab) (of_decide_eq_true hba)) (hsorted _) (hsorted _)

/-- The diagnostics report the cycles one by one, each cycle of its own traits. -/
structure ReportsEach (t : SymbolTable) (sources : SourceMap) (cycles : List (List SymbolId))
    (ds : List Diagnostic) : Prop where
  reports : List.Forall₂ (fun cycle d => ∃ first others, cycle = first :: others ∧
    Reports t sources first others d) cycles ds
  apart : cycles.Pairwise fun cycle other => ∃ id, ¬ (id ∈ cycle ↔ id ∈ other)

/-- If a cycle is written from its least name on, its report says so. -/
theorem reports_rotate (hnames : t.DistinctNames) (sources : SourceMap)
    (h : t.useGraph.IsCycle cycle) :
    ∃ first others d, rotate t cycle = first :: others ∧
      ofRotated? t sources (rotate t cycle) = some d ∧
      Reports t sources first others d := by
  obtain ⟨first, others, hrotate, hfirst⟩ := name_head_rotate h.nonempty
  have hcycle : t.useGraph.IsCycle (first :: others) := hrotate ▸ isCycle_rotate h
  have hleast : ∀ id ∈ first :: others, t.name first ≤ t.name id := by
    intro id hid
    rw [hfirst]
    refine (least_mem (by simpa using h.nonempty)).2 _ (List.mem_map_of_mem ?_)
    exact (perm_rotate t cycle).mem_iff.1 (hrotate ▸ hid)
  obtain ⟨d, hd, hreports⟩ :=
    reports_ofRotated? sources hcycle (lt_of_least hnames hcycle hleast)
  exact ⟨first, others, d, hrotate, hrotate ▸ hd, hreports⟩

theorem reportsEach_diagnostics (hnames : t.DistinctNames) (sources : SourceMap)
    {cycles : List (List SymbolId)} (hcycles : ∀ cycle ∈ cycles, t.useGraph.IsCycle cycle) :
    ReportsEach t sources ((distinctBy (nameSet t) cycles).map (rotate t))
      (diagnostics t sources cycles) where
  reports := by
    have hall : ∀ cycle ∈ distinctBy (nameSet t) cycles, t.useGraph.IsCycle cycle :=
      fun cycle hcycle => hcycles cycle (mem_of_mem_distinctBy hcycle)
    unfold diagnostics
    generalize distinctBy (nameSet t) cycles = kept at hall ⊢
    induction kept with
    | nil => exact .nil
    | cons cycle rest ih =>
      obtain ⟨first, others, d, hrotate, hd, hreports⟩ :=
        reports_rotate hnames sources (hall cycle List.mem_cons_self)
      rw [List.map_cons,
        List.filterMap_cons_some (f := fun cycle => ofRotated? t sources (rotate t cycle)) hd]
      exact .cons ⟨first, others, hrotate, hreports⟩
        (ih fun other hother => hall other (List.mem_cons_of_mem cycle hother))
  apart := by
    refine List.pairwise_map.2
      ((List.pairwise_map.1 (nodup_distinctBy (nameSet t) cycles)).imp_of_mem ?_)
    intro cycle other hcycle hother hne
    by_contra hsame
    push Not at hsame
    refine hne (nameSet_eq (hcycles cycle (mem_of_mem_distinctBy hcycle)).nodup
      (hcycles other (mem_of_mem_distinctBy hother)).nodup fun id => ?_)
    rw [← (perm_rotate t cycle).mem_iff, hsame id, (perm_rotate t other).mem_iff]

/-- What reports cycles one by one does so in any order. -/
theorem ReportsEach.perm {cycles : List (List SymbolId)} {ds ds' : List Diagnostic}
    (h : ReportsEach t sources cycles ds) (hperm : ds.Perm ds') :
    ∃ cycles', cycles.Perm cycles' ∧ ReportsEach t sources cycles' ds' := by
  obtain ⟨cycles', hreports, hcycles⟩ := List.perm_comp_forall₂ hperm.symm h.reports.flip
  refine ⟨cycles', hcycles.symm, hreports.flip, ?_⟩
  exact hcycles.symm.pairwise h.apart fun hne => hne.imp fun id hid hsame => hid hsame.symm

end CycleReport

namespace CycleSearch

variable {g : UseGraph}

/-- The search finds cycles exactly if there are any. -/
theorem cycles_eq_nil_iff (hg : g.Closed) : (ofGraph g).cycles = [] ↔ g.Acyclic := by
  have hfound := found_ofGraph hg
  refine ⟨fun hnil => (closing_eq_nil_iff hg).1
    (List.eq_nil_iff_forall_not_mem.2 fun clause hclause => ?_),
    fun hacyclic => List.eq_nil_iff_forall_not_mem.2 fun cycle hcycle => ?_⟩
  · obtain ⟨cycle, hcycle, _⟩ := hfound.closing clause hclause
    rw [hnil] at hcycle
    cases hcycle
  · obtain ⟨first, _, hfirst, _⟩ := (hfound.cycles cycle hcycle).exists_ends
    exact hacyclic first ((hfound.cycles cycle hcycle).usesItself (List.mem_of_mem_head? hfirst))

end CycleSearch

namespace Analysis

/-- Every report of a cycle is about a cycle of its own, which has its least name first; each trait
that is listed as cyclic is on one of these cycles, and there is none exactly if no trait uses
itself. -/
theorem cycleReports_genuine (settings : DiagnosticSettings) (units : List ParsedUnit) :
    let a := ofUnits (.ofSettings settings) units
    let t := (collected units).symbols
    ∃ cycles, CycleReport.ReportsEach t (texts units) cycles
        (a.diagnostics.filter (·.kind = .cyclicTraitComposition)) ∧
      (∀ id ∈ a.flattening.cyclic, ∃ cycle ∈ cycles, id ∈ cycle) ∧
      (a.diagnostics.filter (·.kind = .cyclicTraitComposition) = [] ↔ t.useGraph.Acyclic) := by
  intro a t
  have hfound := CycleSearch.found_ofGraph t.closed_useGraph
  have hnames : t.DistinctNames := (Collection.sound_ofUnits _ _).names
  have hperm :
      (a.diagnostics.filter (·.kind = .cyclicTraitComposition)).Perm (cycleDiagnostics units) :=
    filter_cyclic_found units ▸ perm_filter_diagnostics settings units rfl
  have hreports := CycleReport.reportsEach_diagnostics hnames (texts units) hfound.cycles
  obtain ⟨cycles, hcycles, heach⟩ := hreports.perm hperm.symm
  refine ⟨cycles, heach, fun id hid => ?_, ?_⟩
  · -- The cycle on which the trait was found has the names of one that is reported.
    obtain ⟨_, cycle, hcycle, hmem⟩ := CycleSearch.mem_cyclic.1 hid
    obtain ⟨kept, hkept, hsame⟩ := exists_mem_distinctBy (CycleReport.nameSet t) hcycle
    obtain ⟨other, hother, hname⟩ := List.mem_map.1
      ((CycleReport.perm_of_nameSet_eq hsame).mem_iff.2 (List.mem_map_of_mem (f := t.name) hmem))
    have hcycleKept := hfound.cycles kept (mem_of_mem_distinctBy hkept)
    obtain rfl : other = id :=
      hnames.eq_of_name (CycleReport.isSome_get?_of_isCycle hcycleKept hother)
      (CycleReport.isSome_get?_of_isCycle (hfound.cycles cycle hcycle) hmem) hname
    exact ⟨CycleReport.rotate t kept, hcycles.mem_iff.1 (List.mem_map_of_mem hkept),
      (CycleReport.perm_rotate t kept).mem_iff.2 hother⟩
  · rw [← CycleSearch.cycles_eq_nil_iff t.closed_useGraph, ← List.length_eq_zero_iff,
      ← heach.reports.length_eq, ← hcycles.length_eq, List.length_map, List.length_eq_zero_iff]
    constructor
    · intro hnil
      refine List.eq_nil_iff_forall_not_mem.2 fun cycle hcycle => ?_
      obtain ⟨kept, hkept, _⟩ := exists_mem_distinctBy (CycleReport.nameSet t) hcycle
      rw [hnil] at hkept
      cases hkept
    · intro hnil
      rw [hnil]
      rfl

end Analysis
end ModuleVisibility
