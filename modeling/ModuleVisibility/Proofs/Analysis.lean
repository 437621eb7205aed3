import ModuleVisibility.Analysis
import ModuleVisibility.Proofs.CycleReport
import ModuleVisibility.Proofs.Declaring
import ModuleVisibility.Proofs.Reporting

/-!
The stages of an analysis. Each has its own kinds of diagnostics, and the tables that are checked
in the end are those of flattening with the traits of cycles marked.
-/
namespace ModuleVisibility

namespace SymbolTable

theorem get?_foldl_markUnresolved (t : SymbolTable) (marked : List SymbolId) (id : SymbolId) :
    (marked.foldl markUnresolved t).get? id =
      (t.get? id).map fun s => if id ∈ marked then { s with isUnresolved := true } else s := by
  induction marked generalizing t with
  | nil => simp
  | cons first rest ih =>
    rw [List.foldl_cons, ih, get?_markUnresolved, Option.map_map]
    congr 1
    funext s
    by_cases hfirst : id = first <;> by_cases hrest : id ∈ rest <;> simp [hfirst, hrest]

theorem names_foldl_markUnresolved (t : SymbolTable) (marked : List SymbolId) :
    (marked.foldl markUnresolved t).symbols.map Symbol.name = t.symbols.map Symbol.name := by
  induction marked generalizing t with
  | nil => rfl
  | cons first rest ih => rw [List.foldl_cons, ih, names_markUnresolved]

theorem DistinctNames.foldl_markUnresolved {t : SymbolTable} (h : t.DistinctNames)
    (marked : List SymbolId) : (marked.foldl SymbolTable.markUnresolved t).DistinctNames :=
  List.foldlRecOn (motive := DistinctNames) _ _ h fun _ ht id _ => ht.markUnresolved id

theorem kind_of_mem_useDiagnostics {t : SymbolTable} {sources : SourceMap} {d : Diagnostic}
    (h : d ∈ t.useDiagnostics sources) : d.kind = .unknownTrait ∨ d.kind = .notATrait := by
  obtain ⟨owner, _, h⟩ := List.mem_flatMap.1 h
  obtain ⟨clause, _, h⟩ := List.mem_filterMap.1 h
  obtain ⟨finding, hfinding, rfl⟩ := Option.map_eq_some_iff.1 h
  unfold useFinding? at hfinding
  split at hfinding
  · cases hfinding
    exact .inl rfl
  · split at hfinding
    · cases hfinding
    · cases hfinding
      exact .inr rfl

end SymbolTable

namespace FlattenContext

variable {x : FlattenContext} {d : Diagnostic}

theorem kind_of_mem_collisionDiagnostics {owner : Symbol} {collisions : List Collision}
    (h : d ∈ x.collisionDiagnostics owner collisions) : d.kind = .traitMethodCollision := by
  obtain ⟨c, _, rfl⟩ := List.mem_map.1 h
  rfl

/-- What flattening reports comes of some owner. -/
theorem exists_of_mem_flattenAll {α : Type} {flatten : SymbolId → Symbol → α × List Diagnostic}
    {ids : List SymbolId}
    (h : d ∈ (x.flattenAll flatten ids).flatMap fun (_, _, diagnostics) => diagnostics) :
    ∃ id owner, x.symbols.get? id = some owner ∧ d ∈ (flatten id owner).2 := by
  obtain ⟨⟨id, result⟩, hresult, hd⟩ := List.mem_flatMap.1 h
  obtain ⟨_, _, hflattened⟩ := List.mem_filterMap.1 hresult
  obtain ⟨owner, howner, heq⟩ := Option.map_eq_some_iff.1 hflattened
  cases heq
  exact ⟨id, owner, howner, hd⟩

theorem exists_of_mem_flattenTraits (h : d ∈ x.flattenTraits.2) :
    ∃ done id owner, x.symbols.get? id = some owner ∧ d ∈ (x.flattenTrait done id owner).2 := by
  have hall : ∀ d ∈ x.flattenTraits.2, ∃ done id owner, x.symbols.get? id = some owner ∧
      d ∈ (x.flattenTrait done id owner).2 := by
    refine List.foldlRecOn
      (motive := fun r : TraitTables × List Diagnostic => ∀ d ∈ r.2, ∃ done id owner,
        x.symbols.get? id = some owner ∧ d ∈ (x.flattenTrait done id owner).2)
      _ _ (by simp) fun below hbelow level _ d hd => ?_
    rcases List.mem_append.1 hd with hold | hnew
    · exact hbelow d hold
    · exact ⟨below.1, exists_of_mem_flattenAll hnew⟩
  exact hall d h

/-- Whatever is flattened, its results report collisions only. -/
theorem kind_of_mem_flattenAll {α : Type} {flatten : SymbolId → Symbol → α × List Diagnostic}
    (hflatten : ∀ id owner, ∀ d ∈ (flatten id owner).2, d.kind = .traitMethodCollision)
    {ids : List SymbolId}
    (h : d ∈ (x.flattenAll flatten ids).flatMap fun (_, _, diagnostics) => diagnostics) :
    d.kind = .traitMethodCollision := by
  obtain ⟨id, owner, _, hd⟩ := exists_of_mem_flattenAll h
  exact hflatten id owner d hd

theorem kind_of_mem_flattenTraits (h : d ∈ x.flattenTraits.2) : d.kind = .traitMethodCollision := by
  obtain ⟨_, _, _, _, hd⟩ := exists_of_mem_flattenTraits h
  exact kind_of_mem_collisionDiagnostics hd

end FlattenContext

namespace Flattening

theorem kind_of_mem_diagnostics {symbols : SymbolTable} {modules : ModuleGraph}
    {sources : SourceMap} {d : Diagnostic}
    (h : d ∈ (ofProgram symbols modules sources).diagnostics) :
    d.kind ≠ .internalAccessViolation := by
  simp only [ofProgram, List.mem_append] at h
  rcases h with ((huse | hcycle) | htrait) | hclass
  · rcases SymbolTable.kind_of_mem_useDiagnostics huse with hkind | hkind <;> simp [hkind]
  · simp [CycleReport.kind_of_mem_diagnostics hcycle]
  · simp [FlattenContext.kind_of_mem_flattenTraits htrait]
  · have hkind := FlattenContext.kind_of_mem_flattenAll
      (fun _ _ _ hd => FlattenContext.kind_of_mem_collisionDiagnostics hd) hclass
    simp [hkind]

end Flattening

theorem CheckedProgram.kind_of_mem_violations {p : CheckedProgram} {sources : SourceMap}
    {d : Diagnostic} (h : d ∈ p.violations sources) : d.kind = .internalAccessViolation := by
  obtain ⟨o, _, hreport⟩ := List.mem_filterMap.1 (mem_of_mem_distinctBy h)
  unfold violation? at hreport
  split at hreport
  · cases hreport
    rfl
  · cases hreport

namespace Analysis

/-- The program as its references are checked. -/
def program (a : Analysis) : CheckedProgram := ⟨a.symbols, a.modules, a.flattening⟩

/-- The texts of some units. -/
def texts (units : List ParsedUnit) : SourceMap := ⟨units.map (·.file)⟩

/-- The modules and symbols of some units as they are declared. -/
def collected (units : List ParsedUnit) : Collection :=
  .ofUnits (texts units) (units.map (·.unit))

/-- The program of some units as its references are checked. -/
def checked (units : List ParsedUnit) : CheckedProgram :=
  let c := collected units
  let flattening := Flattening.ofProgram c.symbols c.modules (texts units)
  ⟨flattening.cyclic.foldl SymbolTable.markUnresolved c.symbols, c.modules, flattening⟩

/-- Everything that is found wrong with some units, before a policy has its say. -/
def found (units : List ParsedUnit) : List Diagnostic :=
  syntaxDiagnostics (texts units) units ++ (collected units).diagnostics
    ++ (checked units).flattening.diagnostics ++ (checked units).violations (texts units)

/-- The symbols that are checked are those declared; the traits of cycles are unresolved besides. -/
theorem get?_checked (units : List ParsedUnit) (id : SymbolId) :
    (checked units).symbols.get? id = ((collected units).symbols.get? id).map fun s =>
      { s with
        isUnresolved := (checked units).flattening.cyclic.contains id || s.isUnresolved } := by
  have hmarked := (collected units).symbols.get?_foldl_markUnresolved
    (checked units).flattening.cyclic id
  refine hmarked.trans (congrArg (Option.map · _) (funext fun s => ?_))
  by_cases hcyclic : id ∈ (checked units).flattening.cyclic <;> simp [hcyclic]

theorem of_get?_checked {units : List ParsedUnit} {id : SymbolId} {s : Symbol}
    (h : (checked units).symbols.get? id = some s) :
    ∃ old, (collected units).symbols.get? id = some old ∧
      s = { old with
        isUnresolved := (checked units).flattening.cyclic.contains id || old.isUnresolved } := by
  rw [get?_checked] at h
  obtain ⟨old, hold, rfl⟩ := Option.map_eq_some_iff.1 h
  exact ⟨old, hold, rfl⟩

/-- Every symbol is that of a declaration in its unit. -/
theorem exists_declaration_of_mem {units : List ParsedUnit} {s : Symbol}
    (hs : s ∈ (collected units).symbols.symbols) :
    ∃ u, units[s.unit]? = some u ∧ ∃ d ∈ u.unit.declarations, s.name = d.name ∧
      s.span = d.span ∧ s.content = d.content := by
  rw [collected, (Collection.declares_ofUnits _ _).symbols] at hs
  obtain ⟨p, hp, rfl⟩ := List.mem_map.1 hs
  obtain ⟨v, hv, hd⟩ := exists_getElem?_of_mem_numbered (mem_of_mem_distinctBy hp)
  rw [List.getElem?_map] at hv
  obtain ⟨u, hu, rfl⟩ := Option.map_eq_some_iff.1 hv
  exact ⟨u, hu, p.2, hd, rfl, rfl, rfl⟩

theorem exists_declaration {units : List ParsedUnit} {id : SymbolId} {s : Symbol}
    (hs : (checked units).symbols.get? id = some s) :
    ∃ u, units[s.unit]? = some u ∧ ∃ d ∈ u.unit.declarations, s.name = d.name ∧
      s.content = d.content := by
  obtain ⟨old, hold, rfl⟩ := of_get?_checked hs
  obtain ⟨u, hu, d, hd, hname, _, hcontent⟩ :=
    exists_declaration_of_mem (SymbolTable.mem_symbols_of_get? hold)
  exact ⟨u, hu, d, hd, hname, hcontent⟩

theorem find?_checked (units : List ParsedUnit) (name : String) :
    (checked units).symbols.find? name = (collected units).symbols.find? name :=
  SymbolTable.find?_eq_of_names (SymbolTable.names_foldl_markUnresolved _ _) name

theorem distinctNames_checked (units : List ParsedUnit) : (checked units).symbols.DistinctNames :=
  (Collection.sound_ofUnits _ _).names.foldl_markUnresolved _

theorem program_ofUnits (policy : Policy) (units : List ParsedUnit) :
    (ofUnits policy units).program = checked units := rfl

theorem sources_ofUnits (policy : Policy) (units : List ParsedUnit) :
    (ofUnits policy units).sources = texts units := rfl

theorem unresolved_ofUnits (policy : Policy) (units : List ParsedUnit) :
    (ofUnits policy units).unresolved = (ofUnits policy units).program.unresolved := by
  simp only [ofUnits, program]

theorem diagnostics_ofUnits (policy : Policy) (units : List ParsedUnit) :
    (ofUnits policy units).diagnostics = Diagnostic.sort (policy.apply (found units)) := rfl

/-- The diagnostics of a kind are those found of that kind, graded and sorted. -/
theorem filter_kind_diagnostics (policy : Policy) (units : List ParsedUnit)
    (kind : DiagnosticKind) :
    (ofUnits policy units).diagnostics.filter (·.kind = kind) =
      Diagnostic.sort (policy.apply ((found units).filter (·.kind = kind))) := by
  rw [diagnostics_ofUnits, Diagnostic.sort,
    filter_mergeSort Diagnostic.le_trans Diagnostic.le_total,
    policy.filter_apply fun d => by rw [Policy.kind_regrade]]
  rfl

theorem perm_diagnostics (policy : Policy) (units : List ParsedUnit) :
    (ofUnits policy units).diagnostics.Perm (policy.apply (found units)) :=
  Diagnostic.perm_sort _

variable {settings : DiagnosticSettings} {units : List ParsedUnit}

/-- Diagnostics of a kind that settings cannot touch are all reported, and as they were found. -/
theorem perm_filter_diagnostics (settings : DiagnosticSettings) (units : List ParsedUnit)
    {kind : DiagnosticKind} (hkind : kind.isConfigurable = false) :
    ((ofUnits (.ofSettings settings) units).diagnostics.filter (·.kind = kind)).Perm
      ((found units).filter (·.kind = kind)) := by
  have hfixed : ∀ other : DiagnosticKind, decide (other = kind) = true →
      other.isConfigurable = false := by
    intro other hother
    rw [of_decide_eq_true hother, hkind]
  rw [← Policy.filter_apply_ofSettings hfixed (found units)]
  exact (perm_diagnostics (.ofSettings settings) units).filter _

theorem mem_diagnostics_iff {d : Diagnostic} (hkind : d.kind.isConfigurable = false) :
    d ∈ (ofUnits (.ofSettings settings) units).diagnostics ↔ d ∈ found units := by
  have hfilter := (perm_filter_diagnostics settings units hkind).mem_iff (a := d)
  simpa using hfilter

theorem kind_of_mem_syntaxDiagnostics {sources : SourceMap} {d : Diagnostic}
    (h : d ∈ syntaxDiagnostics sources units) : d.kind = .parseError := by
  obtain ⟨⟨u, index⟩, _, h⟩ := List.mem_flatMap.1 h
  obtain ⟨e, _, rfl⟩ := List.mem_map.1 h
  rfl

theorem kind_of_mem_collected {d : Diagnostic} (h : d ∈ (collected units).diagnostics) :
    d.kind ≠ .internalAccessViolation := by
  rcases (Collection.sound_ofUnits _ _).kinds d h with hkind | hkind <;> simp [hkind]

/-- The stages before and behind flattening have kinds of their own. -/
theorem filter_found_of_flattening (units : List ParsedUnit) {kind : DiagnosticKind}
    (hkind : kind ∈ [.unknownTrait, .notATrait, .cyclicTraitComposition, .traitMethodCollision]) :
    (found units).filter (·.kind = kind) =
      (checked units).flattening.diagnostics.filter (·.kind = kind) := by
  have hsyntax : (syntaxDiagnostics (texts units) units).filter (·.kind = kind) = [] :=
    Diagnostic.filter_kind_eq_nil fun d hd heq => by
      simp [← heq, kind_of_mem_syntaxDiagnostics hd] at hkind
  have hcollected : (collected units).diagnostics.filter (·.kind = kind) = [] :=
    Diagnostic.filter_kind_eq_nil fun d hd heq => by
      rcases (Collection.sound_ofUnits _ _).kinds d hd with h | h <;> simp [← heq, h] at hkind
  have hviolations : ((checked units).violations (texts units)).filter (·.kind = kind) = [] :=
    Diagnostic.filter_kind_eq_nil fun d hd heq => by
      simp [← heq, CheckedProgram.kind_of_mem_violations hd] at hkind
  unfold found
  rw [List.filter_append, List.filter_append, List.filter_append, hsyntax, hcollected, hviolations,
    List.nil_append, List.nil_append, List.append_nil]

/-- Only the check of references finds denials. -/
theorem filter_found (units : List ParsedUnit) :
    (found units).filter (·.kind = .internalAccessViolation) =
      (checked units).violations (texts units) := by
  have hsyntax : (syntaxDiagnostics (texts units) units).filter
      (·.kind = .internalAccessViolation) = [] :=
    Diagnostic.filter_kind_eq_nil fun d hd => by simp [kind_of_mem_syntaxDiagnostics hd]
  have hcollected : (collected units).diagnostics.filter (·.kind = .internalAccessViolation) = [] :=
    Diagnostic.filter_kind_eq_nil fun _ => kind_of_mem_collected
  have hflattening : (checked units).flattening.diagnostics.filter
      (·.kind = .internalAccessViolation) = [] :=
    Diagnostic.filter_kind_eq_nil fun _ => Flattening.kind_of_mem_diagnostics
  have hviolations : ((checked units).violations (texts units)).filter
      (·.kind = .internalAccessViolation) = (checked units).violations (texts units) :=
    Diagnostic.filter_kind_eq_self fun _ => CheckedProgram.kind_of_mem_violations
  unfold found
  rw [List.filter_append, List.filter_append, List.filter_append, hsyntax, hcollected, hflattening,
    hviolations, List.nil_append, List.nil_append, List.nil_append]

/-- The denials that are reported are those that the check of references finds. -/
theorem perm_violations (settings : DiagnosticSettings) (units : List ParsedUnit) :
    ((ofUnits (.ofSettings settings) units).diagnostics.filter
      (·.kind = .internalAccessViolation)).Perm
      ((ofUnits (.ofSettings settings) units).program.violations
        (ofUnits (.ofSettings settings) units).sources) := by
  rw [program_ofUnits, sources_ofUnits, ← filter_found]
  exact perm_filter_diagnostics settings units rfl

end Analysis
end ModuleVisibility
