import ModuleVisibility.Command.Response
import ModuleVisibility.Report.Compact
import ModuleVisibility.Settings.Load

/-!
Explaining a kind of diagnostic: its catalog entry, and what the settings make of it.
-/
namespace ModuleVisibility
namespace DiagnosticKind

/-- A field of an explanation. -/
def field (mode : ColorMode) (label text : String) : String :=
  "  " ++ (Style.ofColor .cyan).paint mode label ++ ": " ++ text

/-- A severity inside an explanation. -/
def severityText (mode : ColorMode) (s : Severity) : String :=
  (Style.ofColor s.color).paint mode s.text

/-- An example, indented under its label. -/
def exampleLines (mode : ColorMode) (text : String) : List String :=
  "" :: ("  " ++ (Style.ofColor .cyan).paint mode "Example" ++ ":")
    :: (text.splitOn "\n").map ("    " ++ ·)

def statusText (mode : ColorMode) (isEnabled : Bool) : String :=
  if isEnabled then (Style.ofColor .green).paint mode "enabled"
  else (Style.ofColor .red).paint mode "disabled"

/-- The explanation of a kind under a policy. -/
def explanation (k : DiagnosticKind) (p : Policy) (mode : ColorMode) : List String :=
  let e := k.entry
  ["", (Style.ofEmphasis .bold).paint mode ("Diagnostic " ++ e.code), "",
      field mode "Name" e.name, field mode "Description" e.description,
      field mode "Category" e.category.title,
      field mode "Severity" (severityText mode e.severity)]
    ++ ((p.severityOverride? k).map fun s =>
      field mode "Configured severity" (severityText mode s)).toList
    ++ (e.example?.map (exampleLines mode)).getD []
    ++ ["", field mode "Status" (statusText mode (p.isEnabled k))]
    ++ (if k.isConfigurable then []
      else ["  " ++ (Style.ofEmphasis .dimmed).paint mode
        "Errors cannot be disabled or re-graded in modscope.toml"])

/-- The kinds that there are. -/
def listing : List String := all.map fun k => "  " ++ k.code ++ " (" ++ k.name ++ ")"

/-- Explains what an identifier names. -/
def explain (id : String) (s : Surroundings) : Response :=
  let mode := s.colors.mode
  match ofId? id with
  | some k =>
    let (settings, _) := Settings.loadOrDefault s.files s.files.currentPath
    .success (unlines (k.explanation (.ofSettings settings.diagnostics) mode))
  | none =>
    ⟨1, "", unlines ([(Style.bold .red).paint mode "error:" ++ " unknown diagnostic '" ++ id ++ "'",
      "", "Available diagnostics:"] ++ listing), none⟩

end DiagnosticKind
end ModuleVisibility
