import ModuleVisibility.Report.Basic
import ModuleVisibility.Report.Json

/-!
A report as a JSON document.
-/
namespace ModuleVisibility

/-- The version of the document's form. -/
def documentVersion : String := "1.0"

/-- The version of this program. -/
def programVersion : String := "0.1.0"

def Position.document (p : Position) : JsonValue :=
  .object [("line", .number p.line), ("column", .number p.column)]

def Location.document (l : Location) : JsonValue :=
  .object [("file", .text l.file), ("start", l.start.document), ("end", l.stop.document)]

/-- A suggestion is a member only if there is one. -/
def Diagnostic.document (d : Diagnostic) : JsonValue :=
  .object ([("rule_id", .text d.kind.code), ("rule_name", .text d.kind.name),
    ("category", .text d.kind.entry.category.text), ("severity", .text d.severity.text),
    ("message", .text d.message), ("location", d.location.document)]
    ++ (d.suggestion.map fun s => ("suggestion", JsonValue.text s)).toList)

def UnresolvedReference.document (r : UnresolvedReference) : JsonValue :=
  .object [("name", .text r.name), ("unit", .number r.unit),
    ("span", .object [("lo", .number r.span.lo), ("hi", .number r.span.hi)])]

/-- Numbers of diagnostics by severity. -/
structure SeverityCounts where
  error : Nat
  warning : Nat
  info : Nat
  hint : Nat

namespace SeverityCounts

def zero : SeverityCounts := ⟨0, 0, 0, 0⟩

/-- One more of a severity. -/
def add (c : SeverityCounts) : Severity → SeverityCounts
  | .error => { c with error := c.error + 1 }
  | .warning => { c with warning := c.warning + 1 }
  | .info => { c with info := c.info + 1 }
  | .hint => { c with hint := c.hint + 1 }

def document (c : SeverityCounts) : JsonValue :=
  .object [("error", .number c.error), ("warning", .number c.warning), ("info", .number c.info),
    ("hint", .number c.hint)]

end SeverityCounts

/-- Numbers of diagnostics by category. -/
structure CategoryCounts where
  lexical : Nat
  structural : Nat
  composition : Nat
  visibility : Nat

namespace CategoryCounts

def zero : CategoryCounts := ⟨0, 0, 0, 0⟩

/-- One more of a category. -/
def add (c : CategoryCounts) : Category → CategoryCounts
  | .lexical => { c with lexical := c.lexical + 1 }
  | .structural => { c with structural := c.structural + 1 }
  | .composition => { c with composition := c.composition + 1 }
  | .visibility => { c with visibility := c.visibility + 1 }

def document (c : CategoryCounts) : JsonValue :=
  .object [("syntax", .number c.lexical), ("structure", .number c.structural),
    ("composition", .number c.composition), ("visibility", .number c.visibility)]

end CategoryCounts

/-- What is counted while the diagnostics are gone through, and the files met, each once. -/
structure Tally where
  bySeverity : SeverityCounts
  byCategory : CategoryCounts
  files : List String

namespace Tally

def zero : Tally := ⟨.zero, .zero, []⟩

def add (t : Tally) (d : Diagnostic) : Tally where
  bySeverity := t.bySeverity.add d.severity
  byCategory := t.byCategory.add d.kind.entry.category
  files := if d.location.file ∈ t.files then t.files else d.location.file :: t.files

end Tally

namespace Report

def metadata (r : Report) : JsonValue :=
  .object [("modscope_version", .text programVersion),
    ("working_directory", .text r.workingDirectory), ("analyzed_path", .text r.path)]

def summary (r : Report) : JsonValue :=
  let tally := r.diagnostics.foldl Tally.add .zero
  .object [("total_files", .number r.fileCount),
    ("files_with_issues", .number tally.files.length),
    ("total_diagnostics", .number r.diagnostics.length),
    ("by_severity", tally.bySeverity.document), ("by_category", tally.byCategory.document)]

def document (r : Report) : JsonValue :=
  .object [("version", .text documentVersion), ("metadata", r.metadata), ("summary", r.summary),
    ("diagnostics", .list (r.diagnostics.map Diagnostic.document)),
    ("unresolved", .list (r.unresolved.map UnresolvedReference.document))]

end Report
end ModuleVisibility
