import ModuleVisibility.Command.Check
import ModuleVisibility.Proofs.Place

/-!
Errors cannot be hidden. Settings can disable and regrade diagnostics, but those of the kinds that
the catalog calls errors are listed as if there were no settings, and a check that finds one fails.
-/
namespace ModuleVisibility

/-- Whether the catalog calls the kind an error. -/
def DiagnosticKind.isError (k : DiagnosticKind) : Bool := k.entry.severity == .error

theorem DiagnosticKind.isConfigurable_of_isError {k : DiagnosticKind} (h : k.isError = true) :
    k.isConfigurable = false := by
  unfold isConfigurable bne
  rw [show (k.entry.severity == .error) = true from h]
  rfl

/-- A finding of a kind that is an error is graded so. -/
theorem Finding.severity_of_isError {f : Finding} (h : f.kind.isError = true) :
    f.severity = .error := by
  unfold Finding.severity
  split
  · cases h
  · exact beq_iff_eq.1 h

theorem Severity.atLeast_error (minimum : Severity) : minimum.atLeast .error = true := by
  cases minimum <;> rfl

namespace Analysis

/-- The diagnostics of the kinds that are errors by themselves, in order. -/
def errors (a : Analysis) : List Diagnostic := a.diagnostics.filter (·.kind.isError)

variable {units : List ParsedUnit}

/-- What is found comes through any settings, if its kind is an error. -/
theorem errors_ofSettings (settings : DiagnosticSettings) (units : List ParsedUnit) :
    (ofUnits (.ofSettings settings) units).errors =
      Diagnostic.sort ((found units).filter (·.kind.isError)) := by
  calc (ofUnits (.ofSettings settings) units).errors
      = Diagnostic.sort (((Policy.ofSettings settings).apply (found units)).filter
        (·.kind.isError)) :=
        filter_mergeSort Diagnostic.le_trans Diagnostic.le_total _ _
    _ = Diagnostic.sort ((found units).filter (·.kind.isError)) := by
        rw [Policy.filter_apply_ofSettings fun _ => DiagnosticKind.isConfigurable_of_isError]

theorem mem_errors_iff {settings : DiagnosticSettings} {d : Diagnostic} :
    d ∈ (ofUnits (.ofSettings settings) units).errors ↔
      d ∈ found units ∧ d.kind.isError = true := by
  rw [errors_ofSettings, (Diagnostic.perm_sort _).mem_iff, List.mem_filter]

theorem severity_of_mem_errors {settings : DiagnosticSettings} {d : Diagnostic}
    (h : d ∈ (ofUnits (.ofSettings settings) units).errors) : d.severity = .error := by
  obtain ⟨hfound, herror⟩ := mem_errors_iff.1 h
  obtain ⟨f, _, _, _, _, _, rfl⟩ := reportedIn_of_mem_found hfound
  exact Finding.severity_of_isError herror

/-- A report on errors tells of failure, whatever it leaves out. -/
theorem isFailure_of_errors {settings : DiagnosticSettings}
    (h : (ofUnits (.ofSettings settings) units).errors ≠ []) (minimum : Severity)
    (workingDirectory path : String) (fileCount : Nat) (failOnWarnings : Bool) :
    (Report.ofAnalysis (ofUnits (.ofSettings settings) units) minimum workingDirectory path
      fileCount).outcome.isFailure failOnWarnings = true := by
  obtain ⟨d, hd⟩ := List.exists_mem_of_ne_nil _ h
  have hseverity := severity_of_mem_errors hd
  have hshown : d ∈ (Report.ofAnalysis (ofUnits (.ofSettings settings) units) minimum
      workingDirectory path fileCount).diagnostics :=
    List.mem_filter.2 ⟨(List.mem_filter.1 hd).1, hseverity ▸ minimum.atLeast_error⟩
  have hcount : 0 < (Report.ofAnalysis (ofUnits (.ofSettings settings) units) minimum
      workingDirectory path fileCount).outcome.errors :=
    List.length_pos_of_mem (List.mem_filter.2 ⟨hshown, beq_iff_eq.2 hseverity⟩)
  simp [CheckOutcome.isFailure, hcount]

/-- Then the check of the files exits with one. -/
theorem code_respond_of_errors {settings : Settings} {files : List SourceFile}
    (h : (ofFiles (.ofSettings settings.diagnostics) files).errors ≠ []) (request : CheckRequest)
    (surroundings : Surroundings) (format : ReportFormat) (minimum : Severity) :
    (request.respond surroundings format minimum settings files).code = 1 := by
  have hfiles : files ≠ [] := by
    rintro rfl
    obtain ⟨d, hd⟩ := List.exists_mem_of_ne_nil _ h
    obtain ⟨_, _, _, _, hunit, _⟩ := reportedIn_of_mem_found (mem_errors_iff.1 hd).1
    cases hunit
  unfold CheckRequest.respond CheckRequest.examine
  rw [if_neg (by simp [hfiles])]
  exact if_pos (isFailure_of_errors h ..)

/-- The errors that units have with some settings: they are those found without settings, in the
same order, all of them graded as errors, and each makes a check fail. -/
structure KeepsErrors (settings : Settings) (units : List ParsedUnit) : Prop where
  same : (ofUnits (.ofSettings settings.diagnostics) units).errors = (ofUnits .default units).errors
  graded : ∀ d ∈ (ofUnits (.ofSettings settings.diagnostics) units).errors, d.severity = .error
  fails : (ofUnits (.ofSettings settings.diagnostics) units).errors ≠ [] →
    ∀ minimum workingDirectory path fileCount failOnWarnings,
      (Report.ofAnalysis (ofUnits (.ofSettings settings.diagnostics) units) minimum workingDirectory
        path fileCount).outcome.isFailure failOnWarnings = true
  exits : (ofUnits (.ofSettings settings.diagnostics) units).errors ≠ [] →
    ∀ files, parseProgram files = units → ∀ (request : CheckRequest) surroundings format minimum,
      (request.respond surroundings format minimum settings files).code = 1

/-- No settings hide an error. -/
theorem keepsErrors (settings : Settings) (units : List ParsedUnit) :
    KeepsErrors settings units where
  same :=
    (errors_ofSettings settings.diagnostics units).trans (errors_ofSettings .default units).symm
  graded _ hd := severity_of_mem_errors hd
  fails h := isFailure_of_errors h
  exits h files hfiles := by
    subst hfiles
    exact code_respond_of_errors h

end Analysis
end ModuleVisibility
