import ModuleVisibility.Diagnostic.Basic

/-!
From units to modules and symbols. Every module that the program names is declared before any
symbol, so a name shared by a module and another declaration is found in whatever order they come.
-/
namespace ModuleVisibility

/-- Declares the modules that a unit names, and puts the unit into the one it joins. -/
def ModuleGraph.addUnit (g : ModuleGraph) (index : Nat) (unit : CompilationUnit) : ModuleGraph :=
  let g := unit.definitions.foldl (fun g definition => (g.declare definition.name).1) g
  match unit.directive with
  | none => g
  | some directive =>
    match g.declare directive.name with
    | (g, .ok id) => g.enter index id directive.span.hi
    | (g, .error _) => g

/-- The modules that the units name. -/
def ModuleGraph.ofUnits (units : List CompilationUnit) : ModuleGraph :=
  units.zipIdx.foldl (fun g (unit, index) => g.addUnit index unit) .empty

/-- The modules and symbols of a program, with what was found wrong in declaring them. -/
structure Collection where
  modules : ModuleGraph
  symbols : SymbolTable
  diagnostics : List Diagnostic

namespace Collection

/-- Declares one declaration of unit `unit`. -/
def declare (sources : SourceMap) (c : Collection) (unit : Nat) (d : Declaration) : Collection :=
  let symbol := Symbol.ofDeclaration d (c.modules.moduleAt unit d.span.lo) unit
  let found (f : Finding) : List Diagnostic :=
    c.diagnostics ++ [f.report (sources.locate unit d.span)]
  match c.symbols.declare symbol with
  | (symbols, .ok _) =>
    match c.modules.registerEntity d.name with
    | (modules, .ok _) => ⟨modules, symbols, c.diagnostics⟩
    | (modules, .error e) => ⟨modules, symbols, found (.moduleNameTaken symbol.kind e.name)⟩
  | (symbols, .error e) =>
    match symbols.get? e.existing with
    | none => ⟨c.modules, symbols, c.diagnostics⟩
    | some first =>
      ⟨c.modules, symbols.markUnresolved e.existing,
        found (.duplicate e.name first.kind (sources.locate first.unit first.span))⟩

/-- Declares everything in unit `unit`. -/
def addUnit (sources : SourceMap) (c : Collection) (unit : Nat) (u : CompilationUnit) :
    Collection :=
  u.declarations.foldl (fun c d => c.declare sources unit d) c

/-- The modules and symbols of the units, numbered in order. -/
def ofUnits (sources : SourceMap) (units : List CompilationUnit) : Collection :=
  units.zipIdx.foldl (fun c (u, index) => c.addUnit sources index u)
    ⟨ModuleGraph.ofUnits units, .empty, []⟩

end Collection
end ModuleVisibility
