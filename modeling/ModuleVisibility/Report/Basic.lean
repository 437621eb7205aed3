import ModuleVisibility.Analysis

/-!
What a check reports: the diagnostics that are severe enough, beside the texts they are about. A
check ends by what has been counted among them.
-/
namespace ModuleVisibility

/-- The findings on a path, as they are shown. -/
structure Report where
  workingDirectory : String
  path : String
  fileCount : Nat
  sources : SourceMap
  diagnostics : List Diagnostic
  unresolved : List UnresolvedReference

/-- Whether a severity is at least as bad as another. -/
def Severity.atLeast (minimum s : Severity) : Bool := minimum.level ≤ s.level

namespace Report

/-- The report of an analysis, without what is less severe than `minimum`. -/
def ofAnalysis (a : Analysis) (minimum : Severity) (workingDirectory path : String)
    (fileCount : Nat) : Report where
  workingDirectory := workingDirectory
  path := path
  fileCount := fileCount
  sources := a.sources
  diagnostics := a.diagnostics.filter fun d => minimum.atLeast d.severity
  unresolved := a.unresolved

/-- Number of diagnostics of a severity. -/
def count (r : Report) (s : Severity) : Nat := (r.diagnostics.filter (·.severity == s)).length

end Report

/-- What a check has gone through: the files, and the errors and warnings that it shows. -/
structure CheckOutcome where
  files : Nat
  errors : Nat
  warnings : Nat
  deriving DecidableEq

namespace CheckOutcome

/-- The outcome where there is no file. -/
def idle : CheckOutcome := ⟨0, 0, 0⟩

def isFailure (o : CheckOutcome) (failOnWarnings : Bool) : Bool :=
  0 < o.errors || (failOnWarnings && 0 < o.warnings)

/-- The exit code. -/
def code (o : CheckOutcome) (failOnWarnings : Bool) : Nat :=
  if o.isFailure failOnWarnings then 1 else 0

end CheckOutcome

/-- The outcome of a check that shows the report. -/
def Report.outcome (r : Report) : CheckOutcome := ⟨r.fileCount, r.count .error, r.count .warning⟩
end ModuleVisibility
