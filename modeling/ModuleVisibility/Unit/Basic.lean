import ModuleVisibility.Reference.Basic
import ModuleVisibility.Source
import ModuleVisibility.Unit.Fault

/-!
What the analysis sees of a unit: the module it joins, the modules it defines, and its
declarations with the references in their bodies.
-/
namespace ModuleVisibility

/-- Who may use a declaration: everyone, or only code of the same module. -/
inductive Visibility where
  | «public»
  | internal
  deriving DecidableEq

/-- A `use` clause of a class or trait. -/
structure UseClause where
  name : String
  span : Span
  deriving DecidableEq

structure Member where
  name : String
  kind : MemberKind
  visibility : Visibility
  span : Span
  body : List Reference
  deriving DecidableEq

/-- A module named by a unit. -/
structure ModuleMention where
  name : String
  span : Span
  deriving DecidableEq

/-- What a declaration is, with what it holds. -/
inductive DeclarationContent where
  | function (body : List Reference)
  | «class» (uses : List UseClause) (members : List Member)
  | trait (isModuleLevel : Bool) (uses : List UseClause) (members : List Member)
  | constant
  deriving DecidableEq

structure Declaration where
  name : String
  visibility : Visibility
  span : Span
  content : DeclarationContent
  deriving DecidableEq

/-- A unit: `directive` puts every declaration behind it into a module, `definitions` are the
modules that the unit brings into being. -/
structure CompilationUnit where
  directive : Option ModuleMention
  definitions : List ModuleMention
  declarations : List Declaration
  deriving DecidableEq

/-- A unit with its text and the faults of that text. -/
structure ParsedUnit where
  file : SourceFile
  unit : CompilationUnit
  errors : List SyntaxError
  deriving DecidableEq

/-- The kinds of declaration. -/
inductive SymbolKind where
  | function
  | «class»
  | trait
  | constant
  deriving DecidableEq

/-- The kind, as messages call it. -/
def SymbolKind.text : SymbolKind → String
  | .function => "function"
  | .class => "class"
  | .trait => "trait"
  | .constant => "constant"

namespace DeclarationContent

def kind : DeclarationContent → SymbolKind
  | .function _ => .function
  | .class _ _ => .class
  | .trait _ _ _ => .trait
  | .constant => .constant

/-- The use clauses of a class or trait; nothing else has any. -/
def uses : DeclarationContent → List UseClause
  | .class uses _ => uses
  | .trait _ uses _ => uses
  | _ => []

/-- The members that a class or trait declares itself; nothing else has any. -/
def members : DeclarationContent → List Member
  | .class _ members => members
  | .trait _ _ members => members
  | _ => []

/-- The body of a function; nothing else has one. -/
def body : DeclarationContent → List Reference
  | .function body => body
  | _ => []

def isModuleLevelTrait : DeclarationContent → Bool
  | .trait isModuleLevel _ _ => isModuleLevel
  | _ => false

end DeclarationContent
end ModuleVisibility
