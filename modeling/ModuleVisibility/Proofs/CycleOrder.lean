import ModuleVisibility.Proofs.CyclicTraits
import ModuleVisibility.Proofs.Reordering

/-!
The reports of cycles in another order of the units. Where no two cycles share a trait the reports
are those of all cycles, each from its least name on, and so do not depend on the order. Where
cycles meet they do: it decides which of these cycles the search runs into.
-/
namespace ModuleVisibility

namespace CycleReport

variable {t t' : SymbolTable} {sources sources' : SourceMap} {cycle other : List SymbolId}
  {d : Diagnostic} {ρ : Renumbering}

theorem least_cons_cons (first second : String) (rest : List String) :
    least (first :: second :: rest) = least ((if second < first then second else first) :: rest) :=
  rfl

theorem least_cons_mem (first : String) (rest : List String) :
    least (first :: rest) ∈ first :: rest ∧
      ∀ name ∈ first :: rest, least (first :: rest) ≤ name := by
  induction rest generalizing first with
  | nil => exact ⟨List.mem_singleton_self _, by simp [least]⟩
  | cons second rest ih =>
    rw [least_cons_cons]
    obtain ⟨hmem, hle⟩ := ih (if second < first then second else first)
    have hless : (if second < first then second else first) ∈ [first, second] ∧
        ∀ name ∈ [first, second], (if second < first then second else first) ≤ name := by
      by_cases h : second < first
      · simp [h, String.not_lt.1 (String.lt_asymm h)]
      · simp [h, String.not_lt.1 h]
    refine ⟨?_, fun name hname => ?_⟩
    · rcases List.mem_cons.1 hmem with hhere | hrest
      · rw [hhere]
        exact List.mem_append_left rest hless.1
      · exact List.mem_cons_of_mem _ (List.mem_cons_of_mem _ hrest)
    · rcases List.mem_append.1 (show name ∈ [first, second] ++ rest from hname) with hhere | hrest
      · exact String.le_trans (hle _ List.mem_cons_self) (hless.2 name hhere)
      · exact hle name (List.mem_cons_of_mem _ hrest)

theorem least_mem {names : List String} (h : names ≠ []) :
    least names ∈ names ∧ ∀ name ∈ names, least names ≤ name := by
  obtain ⟨first, rest, rfl⟩ := List.exists_cons_of_ne_nil h
  exact least_cons_mem first rest

theorem least_perm {names names' : List String} (h : names.Perm names') :
    least names = least names' := by
  by_cases hnil : names = []
  · subst hnil
    rw [h.nil_eq]
  · have hnil' : names' ≠ [] := fun heq => hnil (heq ▸ h).eq_nil
    obtain ⟨hmem, hle⟩ := least_mem hnil
    obtain ⟨hmem', hle'⟩ := least_mem hnil'
    exact String.le_antisymm (hle _ (h.mem_iff.2 hmem')) (hle' _ (h.mem_iff.1 hmem))

/-- What is written from the least name on is the same cycle. -/
theorem isCycle_rotate (h : t.useGraph.IsCycle cycle) : t.useGraph.IsCycle (rotate t cycle) := by
  refine UseGraph.IsCycle.append_comm ?_
  rw [List.takeWhile_append_dropWhile]
  exact h

theorem name_head_rotate (h : cycle ≠ []) :
    ∃ first rest, rotate t cycle = first :: rest ∧ t.name first = least (cycle.map t.name) := by
  have hnames : cycle.map t.name ≠ [] := by simpa using h
  obtain ⟨id, hid, hname⟩ := List.mem_map.1 (least_mem hnames).1
  have hstop := List.head?_dropWhile_not (fun id => decide (t.name id ≠ least (cycle.map t.name)))
    cycle
  simp only [rotate]
  cases hdrop : cycle.dropWhile fun id => decide (t.name id ≠ least (cycle.map t.name)) with
  | nil =>
    have hall := List.dropWhile_eq_nil_iff.1 hdrop id hid
    simp [hname] at hall
  | cons first rest =>
    rw [hdrop] at hstop
    exact ⟨first, _, rfl, by simpa using hstop⟩

theorem isSome_get?_of_isCycle (h : t.useGraph.IsCycle cycle) {id : SymbolId} (hid : id ∈ cycle) :
    (t.get? id).isSome := by
  obtain ⟨last, _, hlast⟩ := Relation.TransGen.tail'_iff.1 (h.usesItself hid)
  exact SymbolTable.isSome_of_mem_ofKind (t.closed_useGraph last id hlast)

/-- Cycles with a common trait are written in one way, if all such are the same. -/
theorem rotate_eq (hnames : t.DistinctNames) (hapart : t.useGraph.CyclesApart)
    (h : t.useGraph.IsCycle cycle) (h' : t.useGraph.IsCycle other) {id : SymbolId}
    (hid : id ∈ cycle) (hid' : id ∈ other) : rotate t cycle = rotate t other := by
  have hperm : cycle.Perm other := h.perm hapart h' hid hid'
  obtain ⟨first, rest, hrotate, hfirst⟩ := name_head_rotate h.nonempty
  obtain ⟨first', rest', hrotate', hfirst'⟩ := name_head_rotate h'.nonempty
  have hcycle := isCycle_rotate h
  have hcycle' := isCycle_rotate h'
  rw [hrotate] at hcycle ⊢
  rw [hrotate'] at hcycle' ⊢
  have hname : t.name first = t.name first' := by
    rw [hfirst, hfirst', least_perm (hperm.map t.name)]
  have hsame : first = first' := hnames.eq_of_name
    (isSome_get?_of_isCycle hcycle List.mem_cons_self)
    (isSome_get?_of_isCycle hcycle' List.mem_cons_self) hname
  subst hsame
  exact hcycle.eq_of_head hapart hcycle'

/-- Where no two cycles share a trait, every cycle has its report, and there is no other. -/
theorem mem_diagnostics_iff_of_apart (hnames : t.DistinctNames)
    (hapart : t.useGraph.CyclesApart) :
    d ∈ diagnostics t sources (CycleSearch.ofGraph t.useGraph).cycles ↔
      ∃ cycle, t.useGraph.IsCycle cycle ∧ ofRotated? t sources (rotate t cycle) = some d := by
  have hfound := CycleSearch.found_ofGraph t.closed_useGraph
  unfold diagnostics
  rw [List.mem_filterMap]
  constructor
  · rintro ⟨cycle, hcycle, hreport⟩
    exact ⟨cycle, hfound.cycles cycle (mem_of_mem_distinctBy hcycle), hreport⟩
  · rintro ⟨cycle, hcycle, hreport⟩
    obtain ⟨found, hmem, hcycle', id, hid, _, _, _, hid', _⟩ :=
      CycleSearch.exists_found_of_isCycle t.closed_useGraph hcycle
    obtain ⟨kept, hkept, hset⟩ := exists_mem_distinctBy (nameSet t) hmem
    have hkept' := hfound.cycles kept (mem_of_mem_distinctBy hkept)
    -- The one that is kept has the same names, so it has the trait that the two cycles share.
    have hname : t.name id ∈ kept.map t.name :=
      (perm_of_nameSet_eq hset).mem_iff.2 (List.mem_map_of_mem hid')
    obtain ⟨id', hid'', hsame⟩ := List.mem_map.1 hname
    have heq : id' = id := hnames.eq_of_name (isSome_get?_of_isCycle hkept' hid'')
      (isSome_get?_of_isCycle hcycle hid) hsame
    exact ⟨kept, hkept, by rw [rotate_eq hnames hapart hkept' hcycle (heq ▸ hid'') hid, hreport]⟩

/-! The reports at other numbers. -/

theorem rotate_map (h : t.Renumbered ρ t') (cycle : List SymbolId) :
    rotate t' (cycle.map (SymbolId.renumber ρ)) = (rotate t cycle).map (SymbolId.renumber ρ) := by
  have hnames : (cycle.map (SymbolId.renumber ρ)).map t'.name = cycle.map t.name := by
    rw [List.map_map]
    exact List.map_congr_left fun id _ => h.name id
  unfold rotate
  simp only [hnames, List.dropWhile_map, List.takeWhile_map, List.map_append, Function.comp_def,
    h.name]

theorem ofRotated?_map (h : t.Renumbered ρ t') (hsources : sources.Renumbered ρ sources')
    (ids : List SymbolId) :
    ofRotated? t' sources' (ids.map (SymbolId.renumber ρ)) =
      (ofRotated? t sources ids).map (Diagnostic.renumber ρ) := by
  cases ids with
  | nil => rfl
  | cons first others =>
    have hnext : t'.name ((others.map (SymbolId.renumber ρ)).headD (first.renumber ρ)) =
        t.name (others.headD first) := by
      cases others <;> exact h.name _
    have hnames : ((first :: others).map (SymbolId.renumber ρ)).map t'.name =
        (first :: others).map t.name := by
      rw [List.map_map]
      exact List.map_congr_left fun id _ => h.name id
    simp only [ofRotated?, List.map_cons] at hnames ⊢
    rw [h.get?, Option.map_map, Option.map_map]
    congr 1
    funext head
    simp only [Function.comp_apply, hnext, hnames, clauseSpan, Symbol.uses_renumber,
      Symbol.span_renumber, Symbol.unit_renumber, hsources.locate]
    rfl

end CycleReport

namespace SymbolTable.Renumbered

variable {t t' : SymbolTable} {ρ : Renumbering} {a b : SymbolId} {cycle : List SymbolId}

theorem reaches (h : t.Renumbered ρ t') (hreach : t.useGraph.Reaches a b) :
    t'.useGraph.Reaches (a.renumber ρ) (b.renumber ρ) :=
  hreach.lift _ fun _ _ hleads => h.leads hleads

theorem usesItself (h : t.Renumbered ρ t') (hself : t.useGraph.UsesItself a) :
    t'.useGraph.UsesItself (a.renumber ρ) :=
  Relation.TransGen.lift (SymbolId.renumber ρ) (fun _ _ hleads => h.leads hleads) _ _ hself

theorem isCycle (h : t.Renumbered ρ t') (hcycle : t.useGraph.IsCycle cycle) :
    t'.useGraph.IsCycle (cycle.map (SymbolId.renumber ρ)) where
  nonempty := by simpa using hcycle.nonempty
  nodup := hcycle.nodup.map SymbolId.renumber_injective
  chain := (List.isChain_map _).2 (hcycle.chain.imp fun _ _ hleads => h.leads hleads)
  closed last' hlast' first' hfirst' := by
    rw [List.getLast?_map] at hlast'
    rw [List.head?_map] at hfirst'
    obtain ⟨last, hlast, rfl⟩ := Option.map_eq_some_iff.1 hlast'
    obtain ⟨first, hfirst, rfl⟩ := Option.map_eq_some_iff.1 hfirst'
    exact h.leads (hcycle.closed last hlast first hfirst)

theorem cyclesApart (h : t.Renumbered ρ t') (hapart : t.useGraph.CyclesApart) :
    t'.useGraph.CyclesApart := by
  have hback : ∀ {a b}, t'.useGraph.Reaches a b →
      t.useGraph.Reaches (a.renumber ρ.symm) (b.renumber ρ.symm) := fun hreach =>
    h.symm.reaches hreach
  intro a b b' hleads hreach hleads' hreach'
  have hsame : b.renumber ρ.symm = b'.renumber ρ.symm :=
    hapart _ _ _ (h.symm.leads hleads) (hback hreach) (h.symm.leads hleads') (hback hreach')
  exact SymbolId.renumber_injective hsame

end SymbolTable.Renumbered

namespace Analysis

variable {policy : Policy} {units units' : List ParsedUnit} {ρ : Renumbering}

/-- The reports of cycles, each by file, line and column, and message. -/
def cycleReports (a : Analysis) : Set (String × Position × String) :=
  {r | ∃ d ∈ a.diagnostics, d.kind = .cyclicTraitComposition ∧
    r = (d.location.file, d.location.start, d.message)}

/-- The names of the traits that are listed as cyclic. -/
def cyclicNames (a : Analysis) : Set String :=
  {name | ∃ id ∈ a.flattening.cyclic, a.symbols.name id = name}

/-- The cycles that were found in some units, as they are reported. -/
def cycleDiagnostics (units : List ParsedUnit) : List Diagnostic :=
  CycleReport.diagnostics (collected units).symbols (texts units)
    (CycleSearch.ofGraph (collected units).symbols.useGraph).cycles

/-- Only the search for cycles finds any. -/
theorem filter_cyclic_found (units : List ParsedUnit) :
    (found units).filter (·.kind = .cyclicTraitComposition) = cycleDiagnostics units := by
  have huses : ((collected units).symbols.useDiagnostics (texts units)).filter
      (·.kind = .cyclicTraitComposition) = [] :=
    Diagnostic.filter_kind_eq_nil fun d hd => by
      rcases SymbolTable.kind_of_mem_useDiagnostics hd with hkind | hkind <;> simp [hkind]
  have hcycles : (CycleReport.diagnostics (collected units).symbols (texts units)
      (CycleSearch.ofGraph (collected units).symbols.useGraph).cycles).filter
        (·.kind = .cyclicTraitComposition) = cycleDiagnostics units :=
    Diagnostic.filter_kind_eq_self fun _ => CycleReport.kind_of_mem_diagnostics
  rw [filter_found_of_flattening units (by simp)]
  simp only [checked, Flattening.ofProgram, List.filter_append]
  rw [huses, hcycles,
    Diagnostic.filter_kind_eq_nil fun d hd => by
      simp [FlattenContext.kind_of_mem_flattenTraits hd],
    Diagnostic.filter_kind_eq_nil fun d hd => by
      simp [FlattenContext.kind_of_mem_flattenAll
        (fun _ _ _ hd => FlattenContext.kind_of_mem_collisionDiagnostics hd) hd],
    List.nil_append, List.append_nil, List.append_nil]

theorem mem_found_iff_of_cyclic {d : Diagnostic} (hkind : d.kind = .cyclicTraitComposition) :
    d ∈ found units ↔ d ∈ cycleDiagnostics units := by
  rw [← filter_cyclic_found, List.mem_filter, decide_eq_true hkind, and_iff_left rfl]

theorem mem_cycleReports {r : String × Position × String} :
    r ∈ (ofUnits policy units).cycleReports ↔
      policy.isEnabled .cyclicTraitComposition = true ∧
        ∃ d ∈ cycleDiagnostics units, r = (d.location.file, d.location.start, d.message) := by
  have hseen : ∀ d, ((policy.regrade d).location.file, (policy.regrade d).location.start,
      (policy.regrade d).message) = (d.location.file, d.location.start, d.message) := by
    intro d
    unfold Policy.regrade
    split <;> rfl
  unfold cycleReports
  simp only [Set.mem_ofPred_eq, (perm_diagnostics policy units).mem_iff, Policy.apply, List.mem_map,
    List.mem_filter]
  constructor
  · rintro ⟨_, ⟨d, ⟨hd, henabled⟩, rfl⟩, hkind, hr⟩
    rw [Policy.kind_regrade] at hkind
    rw [hkind] at henabled
    rw [hseen] at hr
    exact ⟨henabled, d, (mem_found_iff_of_cyclic hkind).1 hd, hr⟩
  · rintro ⟨henabled, d, hd, hr⟩
    have hkind := CycleReport.kind_of_mem_diagnostics hd
    refine ⟨policy.regrade d, ⟨d, ⟨(mem_found_iff_of_cyclic hkind).2 hd, ?_⟩, rfl⟩, ?_, ?_⟩
    · rw [hkind]
      exact henabled
    · rw [Policy.kind_regrade, hkind]
    · rw [hseen, hr]

theorem name_checked (units : List ParsedUnit) (id : SymbolId) :
    (checked units).symbols.name id = (collected units).symbols.name id := by
  unfold SymbolTable.name
  rw [get?_checked, Option.map_map]
  rfl

/-- A trait is listed only if it uses itself. -/
theorem usesItself_of_mem_cyclicNames {name : String}
    (h : name ∈ (ofUnits policy units).cyclicNames) :
    ∃ id, (collected units).symbols.useGraph.UsesItself id ∧
      (collected units).symbols.name id = name := by
  obtain ⟨id, hid, hname⟩ := h
  have hself := CycleSearch.usesItself_of_mem_cyclic (collected units).symbols.closed_useGraph hid
  exact ⟨id, hself, (name_checked units id).symm.trans hname⟩

/-- If no two cycles share a trait, all that use themselves are listed. -/
theorem mem_cyclicNames_of_apart (hapart : (collected units).symbols.useGraph.CyclesApart)
    {id : SymbolId} (hself : (collected units).symbols.useGraph.UsesItself id) :
    (collected units).symbols.name id ∈ (ofUnits policy units).cyclicNames :=
  ⟨id, (CycleSearch.mem_cyclic_iff_of_apart (collected units).symbols.closed_useGraph hapart).2
    hself, name_checked units id⟩

theorem nonempty_cyclicNames {id : SymbolId}
    (hself : (collected units).symbols.useGraph.UsesItself id) :
    (ofUnits policy units).cyclicNames.Nonempty := by
  have hclosed := (collected units).symbols.closed_useGraph
  obtain ⟨cycle, hcycle, hfound, a, ha, _⟩ := CycleSearch.exists_found_of_usesItself hclosed hself
  obtain ⟨last, _, hlast⟩ := Relation.TransGen.tail'_iff.1 (hfound.usesItself ha)
  exact ⟨_, a, CycleSearch.mem_cyclic.2 ⟨hclosed last a hlast, cycle, hcycle, ha⟩, rfl⟩

variable (hsymbols : (collected units).symbols.Renumbered ρ (collected units').symbols)
include hsymbols

theorem cyclicNames_subset (hapart : (collected units).symbols.useGraph.CyclesApart) :
    (ofUnits policy units).cyclicNames ⊆ (ofUnits policy units').cyclicNames := by
  intro name hname
  obtain ⟨id, hself, rfl⟩ := usesItself_of_mem_cyclicNames hname
  rw [← hsymbols.name]
  exact mem_cyclicNames_of_apart (hsymbols.cyclesApart hapart) (hsymbols.usesItself hself)

theorem nonempty_cyclicNames_of_renumbered (h : (ofUnits policy units).cyclicNames.Nonempty) :
    (ofUnits policy units').cyclicNames.Nonempty := by
  obtain ⟨name, hname⟩ := h
  obtain ⟨id, hself, _⟩ := usesItself_of_mem_cyclicNames hname
  exact nonempty_cyclicNames (hsymbols.usesItself hself)

theorem cycleReports_subset (hsources : (texts units).Renumbered ρ (texts units'))
    (hapart : (collected units).symbols.useGraph.CyclesApart) :
    (ofUnits policy units).cycleReports ⊆ (ofUnits policy units').cycleReports := by
  intro r hr
  obtain ⟨henabled, d, hd, hseen⟩ := mem_cycleReports.1 hr
  obtain ⟨cycle, hcycle, hreport⟩ :=
    (CycleReport.mem_diagnostics_iff_of_apart hsymbols.names hapart).1 hd
  refine mem_cycleReports.2 ⟨henabled, d.renumber ρ, ?_, hseen⟩
  refine (CycleReport.mem_diagnostics_iff_of_apart hsymbols.names'
    (hsymbols.cyclesApart hapart)).2 ⟨_, hsymbols.isCycle hcycle, ?_⟩
  rw [CycleReport.rotate_map hsymbols, CycleReport.ofRotated?_map hsymbols hsources, hreport,
    Option.map_some]

omit hsymbols

/-- The order of units and declarations does not decide whether there are cyclic traits; where no
two cycles share a trait, it decides neither which they are nor what is reported. -/
theorem cycles_of_rearranged (policy : Policy) (h : Rearranged units units')
    (hnames : (declaredNames (units.map (·.unit))).Nodup) :
    ((ofUnits policy units').cyclicNames.Nonempty ↔
        (ofUnits policy units).cyclicNames.Nonempty) ∧
      ((collected units).symbols.useGraph.CyclesApart →
        (ofUnits policy units').cycleReports = (ofUnits policy units).cycleReports ∧
          (ofUnits policy units').cyclicNames = (ofUnits policy units).cyclicNames) := by
  obtain ⟨ρ, hρ⟩ := exists_renumbered h hnames
  have hback := hρ.symbols.symm
  refine ⟨⟨nonempty_cyclicNames_of_renumbered hback,
    nonempty_cyclicNames_of_renumbered hρ.symbols⟩, fun hapart => ?_⟩
  have hapart' := hρ.symbols.cyclesApart hapart
  exact ⟨Set.Subset.antisymm (cycleReports_subset hback hρ.sources.symm hapart')
      (cycleReports_subset hρ.symbols hρ.sources hapart),
    Set.Subset.antisymm (cyclicNames_subset hback hapart')
      (cyclicNames_subset hρ.symbols hapart)⟩

/-- Two traits that use each other, and one that uses itself. -/
def apart : List SourceFile :=
  [⟨"a.php", "<?hh\ntrait A \x7b use B; \x7d\n"⟩, ⟨"b.php", "<?hh\ntrait B \x7b use A; \x7d\n"⟩,
    ⟨"c.php", "<?hh\ntrait C \x7b use C; \x7d\n"⟩]

/-- Both cycles are reported in either order. -/
theorem cycles_of_rearranged_apart :
    Rearranged (parseProgram apart) (parseProgram apart.reverse) ∧
      (declaredNames ((parseProgram apart).map (·.unit))).Nodup ∧
      (collected (parseProgram apart)).symbols.useGraph.CyclesApart ∧
      (ofFiles .default apart.reverse).cycleReports = (ofFiles .default apart).cycleReports ∧
      (ofFiles .default apart.reverse).cyclicNames = (ofFiles .default apart).cyclicNames := by
  have hchecks : (parseProgram apart).Perm (parseProgram apart.reverse) ∧
      (declaredNames ((parseProgram apart).map (·.unit))).Nodup ∧
      (collected (parseProgram apart)).symbols.useGraph.table =
        [(⟨0⟩, [some ⟨1⟩]), (⟨1⟩, [some ⟨0⟩]), (⟨2⟩, [some ⟨2⟩])] := by decide +kernel
  obtain ⟨hperm, hnames, huses⟩ := hchecks
  have hrearranged := Rearranged.of_perm hperm
  have hapart : (collected (parseProgram apart)).symbols.useGraph.CyclesApart := by
    refine UseGraph.cyclesApart_of_length_le fun row hrow => ?_
    rw [huses] at hrow
    revert row
    decide
  exact ⟨hrearranged, hnames, hapart,
    (cycles_of_rearranged .default hrearranged hnames).2 hapart⟩

/-- Where cycles meet, the same units in another order have other cyclic traits. -/
theorem not_cyclicNames_of_perm :
    ¬ ∀ units units' : List ParsedUnit, (declaredNames (units.map (·.unit))).Nodup →
      units.Perm units' →
        (ofUnits .default units').cycleReports = (ofUnits .default units).cycleReports ∧
          (ofUnits .default units').cyclicNames = (ofUnits .default units).cyclicNames := by
  intro hall
  have hchecks : (declaredNames ((parseProgram crossing).map (·.unit))).Nodup ∧
      (parseProgram crossing).Perm (parseProgram (crossing.drop 2 ++ crossing.take 2)) ∧
      (⟨0⟩ ∈ (ofFiles .default (crossing.drop 2 ++ crossing.take 2)).flattening.cyclic ∧
        (ofFiles .default (crossing.drop 2 ++ crossing.take 2)).symbols.name ⟨0⟩ = "C") ∧
      ∀ id ∈ (ofFiles .default crossing).flattening.cyclic,
        (ofFiles .default crossing).symbols.name id ≠ "C" := by decide +kernel
  obtain ⟨hnames, hperm, hlisted, hothers⟩ := hchecks
  have hlast : "C" ∈ (ofFiles .default (crossing.drop 2 ++ crossing.take 2)).cyclicNames :=
    ⟨⟨0⟩, hlisted⟩
  have hsame := (hall _ _ hnames hperm).2
  unfold ofFiles at hlast hothers
  rw [hsame] at hlast
  obtain ⟨id, hid, hname⟩ := hlast
  exact hothers id hid hname

end Analysis
end ModuleVisibility
