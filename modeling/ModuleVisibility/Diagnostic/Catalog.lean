/-!
The catalog of diagnostics: every kind with its code, name, category, severity and text. Only a
kind that is no error by itself can be disabled or given another severity.
-/
namespace ModuleVisibility

inductive Severity where
  | error
  | warning
  | info
  | hint
  deriving DecidableEq

namespace Severity

/-- The severity as a number, higher for worse. -/
def level : Severity → Nat
  | error => 4
  | warning => 3
  | info => 2
  | hint => 1

def text : Severity → String
  | error => "error"
  | warning => "warning"
  | info => "info"
  | hint => "hint"

def all : List Severity := [error, warning, info, hint]

/-- The severity that a text names exactly. -/
def ofText? (s : String) : Option Severity := all.find? (·.text == s)

end Severity

inductive Category where
  | lexical
  | structural
  | composition
  | visibility
  deriving DecidableEq

namespace Category

def text : Category → String
  | lexical => "syntax"
  | structural => "structure"
  | composition => "composition"
  | visibility => "visibility"

/-- The category, as an explanation names it. -/
def title : Category → String
  | composition => "trait composition"
  | c => c.text

def all : List Category := [lexical, structural, composition, visibility]

end Category

inductive DiagnosticKind where
  | parseError
  | duplicateSymbol
  | moduleRedeclarationConflict
  | unknownTrait
  | notATrait
  | cyclicTraitComposition
  | traitMethodCollision
  | internalAccessViolation
  deriving DecidableEq

/-- What the catalog says of a kind. -/
structure CatalogEntry where
  code : String
  name : String
  description : String
  category : Category
  severity : Severity
  example? : Option String
  deriving DecidableEq

namespace DiagnosticKind

/-- Every kind, in the order of the catalog. -/
def all : List DiagnosticKind :=
  [parseError, duplicateSymbol, moduleRedeclarationConflict, unknownTrait, notATrait,
    cyclicTraitComposition, traitMethodCollision, internalAccessViolation]

def entry : DiagnosticKind → CatalogEntry
  | parseError =>
    ⟨"P001", "parse-error",
      "The source could not be parsed; the rest of the unit is analyzed from the next declaration.",
      .lexical, .error, none⟩
  | duplicateSymbol =>
    ⟨"S001", "duplicate-symbol",
      "A top-level name is declared more than once. The first declaration is kept and treated as public.",
      .structural, .error,
      some "module A;\nfunction f(): void \x7b\x7d\n\n// Bad: second declaration of f\nfunction f(): void \x7b\x7d"⟩
  | moduleRedeclarationConflict =>
    ⟨"M001", "module-redeclaration-conflict",
      "A module name is also used by a non-module declaration. Declarations in that module are treated as public.",
      .structural, .error,
      some "new module Util \x7b\x7d\n\n// Bad: class shares the module's name\nclass Util \x7b\x7d"⟩
  | unknownTrait =>
    ⟨"T001", "unknown-trait",
      "A `use` clause names a trait that is not declared anywhere in the program.",
      .composition, .error,
      some "class C \x7b\n  // Bad: Missing is never declared\n  use Missing;\n\x7d"⟩
  | notATrait =>
    ⟨"T002", "not-a-trait", "A `use` clause names a declaration that is not a trait.",
      .composition, .error,
      some "class Base \x7b\x7d\nclass C \x7b\n  // Bad: Base is a class\n  use Base;\n\x7d"⟩
  | cyclicTraitComposition =>
    ⟨"T003", "cyclic-trait-composition",
      "A trait transitively uses itself. Traits on the cycle are composed without their cyclic uses and treated as public.",
      .composition, .error,
      some "trait T1 \x7b use T2; \x7d\n// Bad: T2 uses T1 back\ntrait T2 \x7b use T1; \x7d"⟩
  | traitMethodCollision =>
    ⟨"T004", "trait-method-collision",
      "Two composed traits provide the same member; the one composed last wins. Reported as a warning when the winner silently turns a public member internal.",
      .composition, .info,
      some "class C \x7b\n  use T1; // provides m()\n  use T2; // also provides m(), wins\n\x7d"⟩
  | internalAccessViolation =>
    ⟨"V001", "internal-access-violation",
      "An internal declaration is referenced from a module other than its effective module. Code inside a module-level trait runs in the trait's module.",
      .visibility, .error,
      some "module A;\ninternal function foo(): void \x7b\x7d\n\nmodule B;\n// Bad: foo is internal to A\nfunction bar(): void \x7b foo(); \x7d"⟩

def code (k : DiagnosticKind) : String := k.entry.code

def name (k : DiagnosticKind) : String := k.entry.name

/-- Whether settings can disable the kind or change its severity. -/
def isConfigurable (k : DiagnosticKind) : Bool := k.entry.severity != .error

/-- The kind of a code or name. -/
def ofId? (id : String) : Option DiagnosticKind := all.find? fun k => k.code == id || k.name == id

end DiagnosticKind
end ModuleVisibility
