import ModuleVisibility.Diagnostic.Basic

/-!
Which diagnostics are reported, and how severe they are. Identifiers that name no configurable
kind have no effect, so an error by the catalog is always reported as one.
-/
namespace ModuleVisibility

/-- What a user asks for: identifiers to disable, and severities by identifier. The severities are
the entries of a map, in the order in which they are gone through: a map has none of its own. -/
structure DiagnosticSettings where
  disabled : List String
  severity : List (String × Severity)
  deriving DecidableEq

def DiagnosticSettings.default : DiagnosticSettings := ⟨[], []⟩

/-- The kinds disabled, and the severities that replace those of the catalog, the latest first. -/
structure Policy where
  disabled : List DiagnosticKind
  overrides : List (DiagnosticKind × Severity)
  deriving DecidableEq

namespace Policy

/-- Everything is reported as the catalog says. -/
def default : Policy := ⟨[], []⟩

/-- The configurable kind that an identifier names. -/
def configurable? (id : String) : Option DiagnosticKind :=
  (DiagnosticKind.ofId? id).filter (·.isConfigurable)

/-- The policy that a user asks for. -/
def ofSettings (s : DiagnosticSettings) : Policy where
  disabled := s.disabled.filterMap configurable?
  overrides :=
    (s.severity.filterMap fun (id, severity) => (configurable? id).map (·, severity)).reverse

/-- Disables the configurable kind that an identifier names. -/
def disable (p : Policy) (id : String) : Policy :=
  { p with disabled := p.disabled ++ (configurable? id).toList }

/-- Gives another severity to the configurable kind that an identifier names. -/
def override (p : Policy) (entry : String × Severity) : Policy :=
  { p with overrides := ((configurable? entry.1).map (·, entry.2)).toList ++ p.overrides }

/-- Nothing is asked for any more. -/
def clear (p : Policy) : Policy := { p with disabled := [], overrides := [] }

/-- Takes up other settings, entry by entry; what was asked for before is forgotten. -/
def configure (p : Policy) (s : DiagnosticSettings) : Policy :=
  s.severity.foldl override (s.disabled.foldl disable p.clear)

def isEnabled (p : Policy) (kind : DiagnosticKind) : Bool := !p.disabled.contains kind

def severityOverride? (p : Policy) (kind : DiagnosticKind) : Option Severity :=
  p.overrides.lookup kind

/-- The diagnostic with the severity that the policy gives its kind. -/
def regrade (p : Policy) (d : Diagnostic) : Diagnostic :=
  match p.severityOverride? d.kind with
  | some severity => { d with severity := severity }
  | none => d

/-- The diagnostics that are reported, as severe as the policy says. -/
def apply (p : Policy) (ds : List Diagnostic) : List Diagnostic :=
  (ds.filter fun d => p.isEnabled d.kind).map p.regrade

end Policy
end ModuleVisibility
