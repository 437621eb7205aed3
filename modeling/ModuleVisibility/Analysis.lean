import ModuleVisibility.Access.Check
import ModuleVisibility.Diagnostic.Policy
import ModuleVisibility.Program.Collection
import ModuleVisibility.Unit.Parser

/-!
The analysis of a program: declarations are collected, traits flattened and references checked;
what was found is graded by the policy and listed by place.
-/
namespace ModuleVisibility

/-- The result of an analysis. -/
structure Analysis where
  sources : SourceMap
  modules : ModuleGraph
  symbols : SymbolTable
  flattening : Flattening
  diagnostics : List Diagnostic
  unresolved : List UnresolvedReference

namespace Analysis

/-- The faults of the units' texts. -/
def syntaxDiagnostics (sources : SourceMap) (units : List ParsedUnit) : List Diagnostic :=
  units.zipIdx.flatMap fun (u, index) =>
    u.errors.map fun e => (Finding.malformed e.message).report (sources.locate index e.span)

/-- Analyzes units under a policy. -/
def ofUnits (policy : Policy) (units : List ParsedUnit) : Analysis :=
  let sources : SourceMap := ⟨units.map (·.file)⟩
  let collected := Collection.ofUnits sources (units.map (·.unit))
  let flattening := Flattening.ofProgram collected.symbols collected.modules sources
  let symbols := flattening.cyclic.foldl SymbolTable.markUnresolved collected.symbols
  let program : CheckedProgram := ⟨symbols, collected.modules, flattening⟩
  let found := syntaxDiagnostics sources units ++ collected.diagnostics ++ flattening.diagnostics
    ++ program.violations sources
  ⟨sources, collected.modules, symbols, flattening, Diagnostic.sort (policy.apply found),
    program.unresolved⟩

/-- Reads and analyzes files under a policy. -/
def ofFiles (policy : Policy) (files : List SourceFile) : Analysis :=
  ofUnits policy (parseProgram files)

/-- Whether code in `accessor` may use a symbol; none if there is no such symbol. -/
def isAccessible? (a : Analysis) (accessor : ModuleId) (target : SymbolId) : Option Bool :=
  (a.symbols.get? target).map fun s => s.isAccessible a.modules accessor

/-- The member of a kind and name on the class or trait `owner`. -/
def resolveMember? (a : Analysis) (owner : String) (key : MemberKey) : Option ResolvedMember :=
  (a.symbols.find? owner).bind fun id => a.flattening.resolveMember? a.symbols id key

/-- Number of diagnostics of a severity. -/
def countAt (a : Analysis) (severity : Severity) : Nat := Diagnostic.countAt a.diagnostics severity

def hasErrors (a : Analysis) : Bool := 0 < a.countAt .error

end Analysis
end ModuleVisibility
