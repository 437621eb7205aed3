import ModuleVisibility.Report.Compact

/-!
A report for people: each diagnostic with the line it is about and a mark below the text that it
points at.
-/
namespace ModuleVisibility
namespace Diagnostic

/-- The first line that a diagnostic is about, if the text at hand is that of its file. -/
def sourceLine? (sources : SourceMap) (d : Diagnostic) : Option String :=
  ((sources.get? d.location.unit).filter (·.path == d.location.file)).bind
    (·.line? d.location.start.line)

/-- Number of carets: the columns of a range inside one line, and one for every other range. -/
def caretCount (d : Diagnostic) : Nat :=
  if d.location.stop.line = d.location.start.line ∧ d.location.start.column < d.location.stop.column
  then d.location.stop.column - d.location.start.column
  else 1

/-- Blanks as wide as the line number. -/
def margin (d : Diagnostic) : String := "".pushn ' ' (toString d.location.start.line).length

/-- A mark between the margin and the text, in blue. -/
def rule (mode : ColorMode) (mark : String) : String := (Style.ofColor .blue).paint mode mark

/-- The row with the carets: as many blanks as there are columns before the first one. -/
def caretRow (d : Diagnostic) (mode : ColorMode) : String :=
  d.margin ++ " " ++ rule mode "|" ++ " " ++ "".pushn ' ' (d.location.start.column - 1)
    ++ (Style.ofColor .red).paint mode ("".pushn '^' d.caretCount)

/-- The line that a diagnostic is about, marked. -/
def excerptLines (d : Diagnostic) (mode : ColorMode) (line : String) : List String :=
  let gap := d.margin ++ " " ++ rule mode "|"
  [gap, rule mode (toString d.location.start.line) ++ " " ++ rule mode "|" ++ " " ++ line,
    d.caretRow mode, gap]

def suggestionLines (d : Diagnostic) (mode : ColorMode) : List String :=
  (d.suggestion.map fun s =>
    d.margin ++ " " ++ rule mode "=" ++ " " ++ suggestionLabel mode ++ " " ++ s).toList

def prettyLines (d : Diagnostic) (sources : SourceMap) (mode : ColorMode) : List String :=
  [d.headline mode, "  " ++ rule mode "-->" ++ " " ++ d.place]
    ++ ((d.sourceLine? sources).map (d.excerptLines mode)).getD []
    ++ d.suggestionLines mode

end Diagnostic

/-- A number and a noun, in the plural unless there is one. -/
def counted (n : Nat) (noun : String) : String :=
  toString n ++ " " ++ (if n = 1 then noun else noun ++ "s")

namespace Report

/-- The totals, below the diagnostics if there are any. -/
def prettyTotals (r : Report) (mode : ColorMode) : List String :=
  if r.diagnostics.isEmpty then []
  else
    let errors := (r.diagnostics.filter (·.severity == .error)).length
    let warnings := (r.diagnostics.filter (·.severity == .warning)).length
    let total := r.diagnostics.length
    ["", "Found " ++ (Style.ofEmphasis .bold).paint mode (toString total)
      ++ (if total = 1 then " problem (" else " problems (")
      ++ (Style.ofColor .red).paint mode (counted errors "error") ++ ", "
      ++ (Style.ofColor .yellow).paint mode (counted warnings "warning") ++ ")"]

def pretty (r : Report) (mode : ColorMode) : String :=
  unlines (r.diagnostics.flatMap (·.prettyLines r.sources mode) ++ r.prettyTotals mode)

end Report
end ModuleVisibility
