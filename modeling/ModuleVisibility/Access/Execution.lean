import ModuleVisibility.Access.Resolution

/-!
Where bodies run. A body of a function or class runs in its own module. A trait's body runs where
the trait's members end up: in every class that inherits them and every module-level trait that
composes them, and in the trait's own module if that is nowhere or the trait is module-level.
-/
namespace ModuleVisibility

/-- A body that runs in the module `accessor`; `current` is the class or trait through which it was
reached, and the references are those of unit `unit`. -/
structure Execution where
  unit : Nat
  accessor : ModuleId
  current : Option SymbolId
  body : List Reference
  deriving DecidableEq

/-- A program with its tables, as references are checked against it. -/
structure CheckedProgram where
  symbols : SymbolTable
  modules : ModuleGraph
  flattening : Flattening

namespace CheckedProgram

/-- The member that `source` declares at `index`, with the unit of its text. -/
def declared? (p : CheckedProgram) (source : SymbolId) (index : Nat) : Option (Nat × Member) := do
  let s ← p.symbols.get? source
  let m ← s.members[index]?
  return (s.unit, m)

/-- What a class inherits. -/
def inheritedBy (p : CheckedProgram) (id : SymbolId) : List InheritedMember :=
  ((p.flattening.inherited? id).map (·.entries.map (·.2))).getD []

/-- What a trait has from other traits. -/
def composedBy (p : CheckedProgram) (id : SymbolId) : List FlatMember :=
  ((p.flattening.traitMembers? id).map (·.entries.map (·.2))).getD [] |>.filter (·.source ≠ id)

/-- The trait members that run somewhere else than in their trait's module, by source and index. -/
def relocated (p : CheckedProgram) : List (SymbolId × Nat) :=
  (p.symbols.ofKind .class).flatMap (fun id => (p.inheritedBy id).map fun m => (m.source, m.index))
    ++ (p.symbols.entries.filter fun (_, s) => s.isModuleLevelTrait).flatMap
      fun (id, _) => (p.composedBy id).map fun m => (m.source, m.index)

/-- The runs of a class: its own members, and those it inherits. -/
def classExecutions (p : CheckedProgram) (id : SymbolId) (s : Symbol) : List Execution :=
  (s.members.map fun m => ⟨s.unit, s.home, some id, m.body⟩)
    ++ (p.inheritedBy id).filterMap fun r =>
      (p.declared? r.source r.index).map fun (unit, m) => ⟨unit, r.home, some id, m.body⟩

/-- The runs of a trait's own members in the trait's module. -/
def ownTraitExecutions (p : CheckedProgram) (id : SymbolId) (s : Symbol) : List Execution :=
  (s.members.zipIdx.filter fun (_, index) =>
      s.isModuleLevelTrait || !p.relocated.contains (id, index)).map
    fun (m, _) => ⟨s.unit, s.home, some id, m.body⟩

/-- The runs of the members that a module-level trait has from other traits. -/
def composedTraitExecutions (p : CheckedProgram) (id : SymbolId) (s : Symbol) : List Execution :=
  (p.composedBy id).filterMap fun r =>
    (p.declared? r.source r.index).map fun (unit, m) =>
      ⟨unit, r.origin.resolve s.home, some id, m.body⟩

/-- The runs that a symbol brings about. -/
def symbolExecutions (p : CheckedProgram) (id : SymbolId) (s : Symbol) : List Execution :=
  match s.kind with
  | .function => [⟨s.unit, s.home, none, s.content.body⟩]
  | .class => p.classExecutions id s
  | .trait =>
    p.ownTraitExecutions id s
      ++ (if s.isModuleLevelTrait then p.composedTraitExecutions id s else [])
  | .constant => []

/-- Every run of a program, symbol by symbol. -/
def executions (p : CheckedProgram) : List Execution :=
  p.symbols.entries.flatMap fun (id, s) => p.symbolExecutions id s

end CheckedProgram
end ModuleVisibility
