import ModuleVisibility.Diagnostic.Policy

/-!
The settings of a project. Everything has a default, so a project needs no settings of its own.
-/
namespace ModuleVisibility

structure Settings where
  extensions : List String
  /-- Names of files and directories that are left out. -/
  exclude : List String
  isParallel : Bool
  diagnostics : DiagnosticSettings
  deriving DecidableEq

namespace Settings

def default : Settings := ⟨[], [], true, .default⟩

def defaultExtensions : List String := ["php", "hack", "hck"]

/-- The extensions of the files to analyze: those asked for, or the usual ones. -/
def effectiveExtensions (s : Settings) : List String :=
  if s.extensions.isEmpty then defaultExtensions else s.extensions

end Settings

/-- What is odd about settings that can be used all the same. -/
inductive SettingsWarning where
  | unknownOption (key : String)
  | unknownSectionOption (tableName key : String)
  | disablesUnknown (id : String)
  | disablesError (id : String)
  | regradesUnknown (id : String)
  | regradesError (id : String)
  deriving DecidableEq

def SettingsWarning.message : SettingsWarning → String
  | unknownOption key => "Unknown config option: '" ++ key ++ "'"
  | unknownSectionOption tableName key =>
    "Unknown config option in [" ++ tableName ++ "]: '" ++ key ++ "'"
  | disablesUnknown id => "Unknown diagnostic in [diagnostics].disabled: '" ++ id ++ "'"
  | disablesError id => "Diagnostic '" ++ id ++ "' is an error and cannot be disabled"
  | regradesUnknown id => "Unknown diagnostic in [diagnostics.severity]: '" ++ id ++ "'"
  | regradesError id =>
    "Diagnostic '" ++ id ++ "' is an error and its severity cannot be overridden"

namespace DiagnosticSettings

/-- The warning for an identifier, unless it names a configurable kind. -/
def idWarning? (onUnknown onError : String → SettingsWarning) (id : String) :
    Option SettingsWarning :=
  match DiagnosticKind.ofId? id with
  | none => some (onUnknown id)
  | some kind => if kind.isConfigurable then none else some (onError id)

/-- Orders severities by identifier. -/
def idLe (a b : String × Severity) : Bool := decide (a.1 ≤ b.1)

/-- The severities in the order of their identifiers, whichever they are gone through in. -/
def byId (s : DiagnosticSettings) : List (String × Severity) := s.severity.mergeSort idLe

/-- A warning for every identifier without effect. -/
def warnings (s : DiagnosticSettings) : List SettingsWarning :=
  s.disabled.filterMap (idWarning? .disablesUnknown .disablesError)
    ++ s.byId.filterMap fun (id, _) => idWarning? .regradesUnknown .regradesError id

end DiagnosticSettings
end ModuleVisibility
