import ModuleVisibility.Diagnostic.Catalog
import ModuleVisibility.Program.Symbol

/-!
Diagnostics and the findings they report. A finding is a cause; its kind, severity, wording and
suggestion follow from it.
-/
namespace ModuleVisibility

/-- A finding as it is shown. -/
structure Diagnostic where
  kind : DiagnosticKind
  severity : Severity
  message : String
  location : Location
  suggestion : Option String
  deriving DecidableEq

namespace Diagnostic

/-- Unit first, then the range in it. -/
def le (a b : Diagnostic) : Bool :=
  a.location.unit < b.location.unit
    || (a.location.unit == b.location.unit && a.location.span.le b.location.span)

/-- Diagnostics by place; those of one place keep their order. -/
def sort (ds : List Diagnostic) : List Diagnostic := ds.mergeSort le

/-- Number of diagnostics of a severity. -/
def countAt (ds : List Diagnostic) (s : Severity) : Nat := ds.countP (·.severity == s)

end Diagnostic

/-- What the analysis finds wrong, with all that the wording needs. -/
inductive Finding where
  | malformed (message : String)
  | duplicate (name : String) (kind : SymbolKind) (first : Location)
  | moduleNameTaken (kind : SymbolKind) (name : String)
  | unknownTrait (owner name : String)
  | notATrait (owner name : String) (kind : SymbolKind)
  /-- The traits of a cycle, each using the next and the last the first. -/
  | compositionCycle (names : List String)
  /-- A member replaces another one; `homes` are the modules of the two if both have one of their
  own and these differ. -/
  | memberReplaced (kind : MemberKind) (name incoming existing owner : String)
      (homes : Option (String × String)) (narrows : Bool)
  | internalAccess (what name home accessor : String)
  deriving DecidableEq

namespace Finding

def kind : Finding → DiagnosticKind
  | malformed _ => .parseError
  | duplicate .. => .duplicateSymbol
  | moduleNameTaken .. => .moduleRedeclarationConflict
  | unknownTrait .. => .unknownTrait
  | notATrait .. => .notATrait
  | compositionCycle _ => .cyclicTraitComposition
  | memberReplaced .. => .traitMethodCollision
  | internalAccess .. => .internalAccessViolation

/-- The catalog's severity, but a warning where a public member silently becomes internal. -/
def severity : Finding → Severity
  | memberReplaced _ _ _ _ _ _ true => .warning
  | f => f.kind.entry.severity

/-- The end of a replacement's wording when the module changes. -/
def homeChange : Option (String × String) → String
  | none => ""
  | some (before, after) =>
    "; its module changes from `" ++ before ++ "` to `" ++ after ++ "`"

def message : Finding → String
  | malformed message => message
  | duplicate name kind first =>
    "`" ++ name ++ "` is already declared as a " ++ kind.text ++ " at " ++ first.file ++ ":"
      ++ toString first.start.line ++ ":" ++ toString first.start.column
  | moduleNameTaken kind name =>
    kind.text ++ " `" ++ name ++ "` has the same name as module `" ++ name ++ "`"
  | unknownTrait owner name => "`" ++ owner ++ "` uses unknown trait `" ++ name ++ "`"
  | notATrait owner name kind =>
    "`" ++ owner ++ "` uses `" ++ name ++ "`, which is a " ++ kind.text ++ " and not a trait"
  | compositionCycle names =>
    "trait composition cycle: " ++ String.intercalate " -> " (names ++ names.take 1)
  | memberReplaced kind name incoming existing owner homes narrows =>
    kind.text ++ " `" ++ name ++ "` from trait `" ++ incoming
      ++ "` replaces the one from trait `" ++ existing ++ "` in `" ++ owner ++ "`"
      ++ homeChange homes ++ (if narrows then "; the member becomes internal" else "")
  | internalAccess what name home accessor =>
    what ++ " `" ++ name ++ "` is internal to module `" ++ home
      ++ "` and cannot be accessed from module `" ++ accessor ++ "`"

def suggestion : Finding → Option String
  | moduleNameTaken .. => some "rename the module or the declaration"
  | compositionCycle _ => some "remove one of the `use` clauses on the cycle"
  | internalAccess _ name home _ =>
    some ("make `" ++ name ++ "` public or move the access into module `" ++ home ++ "`")
  | _ => none

/-- The diagnostic of a finding at a place. -/
def report (f : Finding) (location : Location) : Diagnostic :=
  ⟨f.kind, f.severity, f.message, location, f.suggestion⟩

end Finding
end ModuleVisibility
