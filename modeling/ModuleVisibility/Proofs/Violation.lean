import ModuleVisibility.Proofs.Execution
import ModuleVisibility.Proofs.Origin

/-!
What is reported as denied is what is denied. The result of an analysis answers for itself who may
use what; its reports of denied references are those which these answers give, each once.
-/
namespace ModuleVisibility

namespace Flattening

variable {symbols : SymbolTable} {modules : ModuleGraph} {sources : SourceMap} {id : SymbolId}
  {key : MemberKey} {m : FlatMember}

theorem traitMember?_of_holds (h : (ofProgram symbols modules sources).Holds id key m) :
    (ofProgram symbols modules sources).traitMember? id key = some m := by
  obtain ⟨table, htable, hm⟩ := h
  unfold traitMember?
  rw [htable, Option.bind_some]
  exact (MemberTable.mem_entries_iff (sorted_traits id table htable)).1 hm

/-- The last module-level trait of an entry's chain is at the latest the one that holds it. -/
theorem pinned_of_holds {owner : Symbol} (howner : symbols.get? id = some owner)
    (hlevel : owner.isModuleLevelTrait = true)
    (h : (ofProgram symbols modules sources).Holds id key m) :
    ∃ home, m.origin = .pinned home := by
  obtain ⟨rest, hrest⟩ := exists_delivers (traitMember?_of_holds h)
  rw [hrest.origin, SymbolTable.pinnedHome?_cons, pin?_eq howner, if_pos hlevel]
  cases symbols.pinnedHome? rest with
  | none => exact ⟨owner.home, rfl⟩
  | some home => exact ⟨home, rfl⟩

end Flattening

theorem CheckedProgram.mem_reports {p : CheckedProgram} {sources : SourceMap} {d : Diagnostic} :
    d ∈ p.occurrences.filterMap (p.violation? sources) ↔
      ∃ e ∈ p.executions, ∃ r ∈ e.body, ∃ what name home,
        .denied what name home ∈ p.outcomes e r.kind ∧
        d = (Finding.internalAccess what name (p.modules.name home)
          (p.modules.name e.accessor)).report (sources.locate e.unit r.span) := by
  unfold occurrences
  simp only [List.mem_filterMap, List.mem_flatMap, List.mem_map]
  constructor
  · rintro ⟨o, ⟨e, he, r, hr, outcome, houtcome, rfl⟩, hreport⟩
    cases outcome with
    | denied what name home => exact ⟨e, he, r, hr, what, name, home, houtcome,
        (Option.some.inj hreport).symm⟩
    | unresolved name => cases hreport
  · rintro ⟨e, he, r, hr, what, name, home, houtcome, rfl⟩
    exact ⟨_, ⟨e, he, r, hr, _, houtcome, rfl⟩, rfl⟩

namespace Analysis

variable {a : Analysis} {d : Diagnostic}

/-- The diagnostic is the report that some run is denied what one of its references names. -/
def IsDenial (a : Analysis) (d : Diagnostic) : Prop :=
  ∃ e r t, a.Runs e ∧ r ∈ e.body ∧ a.Resolves e.current r.kind t ∧ a.Denies e.accessor t ∧
    d = a.denial e r t

/-- The reports of denied references are exactly those of denials, each once. -/
structure ReportsDenials (a : Analysis) : Prop where
  once : ((a.diagnostics.filter (·.kind = .internalAccessViolation)).map
    CheckedProgram.violationKey).Nodup
  sound : ∀ d ∈ a.diagnostics, d.kind = .internalAccessViolation → a.IsDenial d
  complete : ∀ d, a.IsDenial d → ∃ reported ∈ a.diagnostics,
    reported.kind = .internalAccessViolation ∧
      CheckedProgram.violationKey reported = CheckedProgram.violationKey d

/-- The check of references reports the denials. -/
theorem mem_reports_iff (hnames : a.symbols.DistinctNames) (hpinned : a.Pinned) :
    d ∈ a.program.occurrences.filterMap (a.program.violation? a.sources) ↔ a.IsDenial d := by
  rw [CheckedProgram.mem_reports]
  constructor
  · rintro ⟨e, he, r, hr, what, name, home, hdenied, rfl⟩
    obtain ⟨t, hresolves, hdenies, rfl, rfl, rfl⟩ := (denied_mem_outcomes hnames).1 hdenied
    exact ⟨e, r, t, (mem_executions_iff hpinned).1 he, hr, hresolves, hdenies, rfl⟩
  · rintro ⟨e, r, t, he, hr, hresolves, hdenies, rfl⟩
    exact ⟨e, (mem_executions_iff hpinned).2 he, r, hr, t.what, t.name, t.home,
      (denied_mem_outcomes hnames).2 ⟨t, hresolves, hdenies, rfl, rfl, rfl⟩, rfl⟩

theorem distinctNames_ofUnits (policy : Policy) (units : List ParsedUnit) :
    (ofUnits policy units).symbols.DistinctNames :=
  distinctNames_checked units

theorem pinned_ofUnits (policy : Policy) (units : List ParsedUnit) :
    (ofUnits policy units).Pinned := by
  intro id s key m hs hlevel hm
  obtain ⟨old, hold, rfl⟩ := of_get?_checked hs
  have hm : (checked units).flattening.Holds id key m := hm
  have hlevel : old.isModuleLevelTrait = true := hlevel
  exact Flattening.pinned_of_holds hold hlevel hm

/-- What is reported as a denial is one. -/
theorem isDenial_of_mem {settings : DiagnosticSettings} {units : List ParsedUnit}
    (h : d ∈ (ofUnits (.ofSettings settings) units).diagnostics)
    (hkind : d.kind = .internalAccessViolation) :
    (ofUnits (.ofSettings settings) units).IsDenial d := by
  have hviolation := (perm_violations settings units).mem_iff.1
    (List.mem_filter.2 ⟨h, decide_eq_true hkind⟩)
  have hreport := mem_of_mem_distinctBy hviolation
  exact (mem_reports_iff (distinctNames_ofUnits _ units) (pinned_ofUnits _ units)).1 hreport

/-- Every denial is reported, though perhaps as that of another run. -/
theorem exists_reported {settings : DiagnosticSettings} {units : List ParsedUnit}
    (h : (ofUnits (.ofSettings settings) units).IsDenial d) :
    ∃ reported ∈ (ofUnits (.ofSettings settings) units).diagnostics,
      reported.kind = .internalAccessViolation ∧
        CheckedProgram.violationKey reported = CheckedProgram.violationKey d := by
  have hreport := (mem_reports_iff (distinctNames_ofUnits _ units) (pinned_ofUnits _ units)).2 h
  obtain ⟨reported, hreported, hkey⟩ :=
    exists_mem_distinctBy CheckedProgram.violationKey hreport
  obtain ⟨hmem, hkind⟩ :=
    List.mem_filter.1 ((perm_violations settings units).mem_iff.2 hreported)
  exact ⟨reported, hmem, of_decide_eq_true hkind, hkey⟩

/-- Whatever the settings, the references that are denied are reported, and no others. -/
theorem denials_reported (settings : DiagnosticSettings) (units : List ParsedUnit) :
    (ofUnits (.ofSettings settings) units).ReportsDenials where
  once := ((perm_violations settings units).map _).nodup_iff.2 (nodup_distinctBy _ _)
  sound _ h hkind := isDenial_of_mem h hkind
  complete _ h := exists_reported h

end Analysis
end ModuleVisibility
