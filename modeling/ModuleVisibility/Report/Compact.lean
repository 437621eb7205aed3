import ModuleVisibility.Report.Basic
import ModuleVisibility.Report.Style

/-!
A report with one line a diagnostic, for tools that read lines.
-/
namespace ModuleVisibility

/-- Lines, each ended. -/
def unlines (ls : List String) : String := String.join (ls.map (· ++ "\n"))

namespace Severity

def color : Severity → Color
  | error => .red
  | warning => .yellow
  | info => .blue
  | hint => .cyan

/-- The severity at the head of a diagnostic. -/
def heading (s : Severity) (mode : ColorMode) : String := (Style.bold s.color).paint mode s.text

end Severity

namespace Diagnostic

/-- Severity, code and message. -/
def headline (d : Diagnostic) (mode : ColorMode) : String :=
  d.severity.heading mode ++ "[" ++ (Style.ofEmphasis .dimmed).paint mode d.kind.code ++ "]: "
    ++ d.message

/-- The file and the position at which a diagnostic starts. -/
def place (d : Diagnostic) : String :=
  d.location.file ++ ":" ++ toString d.location.start.line ++ ":"
    ++ toString d.location.start.column

/-- The word before a suggestion. -/
def suggestionLabel (mode : ColorMode) : String :=
  (Style.ofColor .green).paint mode "suggestion:"

def compactLines (d : Diagnostic) (mode : ColorMode) : List String :=
  (d.place ++ ": " ++ d.severity.heading mode ++ " ["
    ++ (Style.ofEmphasis .dimmed).paint mode d.kind.code ++ "]: " ++ d.message)
    :: (d.suggestion.map fun s => "  " ++ suggestionLabel mode ++ " " ++ s).toList

end Diagnostic

namespace Report

/-- The totals, below the diagnostics if there are any. -/
def compactTotals (r : Report) : List String :=
  if r.diagnostics.isEmpty then []
  else ["", "Found " ++ toString (r.count .error) ++ " error(s) and "
    ++ toString (r.count .warning) ++ " warning(s)"]

def compact (r : Report) (mode : ColorMode) : String :=
  unlines (r.diagnostics.flatMap (·.compactLines mode) ++ r.compactTotals)

end Report
end ModuleVisibility
