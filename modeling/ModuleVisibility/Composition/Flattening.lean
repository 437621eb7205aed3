import ModuleVisibility.Composition.Compose
import ModuleVisibility.Composition.CycleReport
import ModuleVisibility.Composition.Level

/-!
Flattening: the table of every trait, its own members and all that it composes, and for every
class the members that it inherits. Cycles are cut first; then traits are composed level by level,
so that the tables which a trait needs are there, and classes come last.
-/
namespace ModuleVisibility

/-- The tables of traits, by trait. -/
abbrev TraitTables := List (SymbolId × MemberTable FlatMember)

/-- What flattening works on: `uses` has no cycles, and `cyclic` are the traits that had. -/
structure FlattenContext where
  symbols : SymbolTable
  modules : ModuleGraph
  sources : SourceMap
  uses : UseGraph
  cyclic : List SymbolId

namespace FlattenContext

/-- Whether what comes through a symbol is degraded. -/
def isUnresolved (x : FlattenContext) (id : SymbolId) : Bool :=
  x.cyclic.contains id || (x.symbols.get? id).any (·.isUnresolved)

/-- Composes what one clause of `owner` brings in. -/
def composeClause (x : FlattenContext) (owner : Symbol) (through : Origin → Origin)
    (done : TraitTables) (c : Composition) (clause : UseClause) (target : Option SymbolId) :
    Composition :=
  match target with
  | none => c
  | some id =>
    match done.lookup id with
    | none => c
    | some table => c.addTable owner through clause id (x.isUnresolved id) table

/-- Composes the clauses of an owner in order. -/
def composeUses (x : FlattenContext) (id : SymbolId) (owner : Symbol) (through : Origin → Origin)
    (done : TraitTables) : Composition :=
  (owner.uses.zip (x.uses.uses id)).foldl
    (fun c (clause, target) => x.composeClause owner through done c clause target) .empty

/-- The reports of an owner's collisions. -/
def collisionDiagnostics (x : FlattenContext) (owner : Symbol) (collisions : List Collision) :
    List Diagnostic :=
  collisions.map fun c =>
    (c.finding x.symbols x.modules owner).report (x.sources.locate owner.unit c.clause.span)

/-- Puts the members that a trait declares over those that it composes. -/
def addOwn (x : FlattenContext) (id : SymbolId) (owner : Symbol)
    (composed : MemberTable FlatMember) : MemberTable FlatMember :=
  owner.members.zipIdx.foldl
    (fun table (m, index) =>
      table.insert ⟨m.kind, m.name⟩
        ⟨m.visibility, Origin.throughTrait owner .composer, id, index, id, x.isUnresolved id⟩)
    composed

/-- The table of a trait, and the reports of its collisions. -/
def flattenTrait (x : FlattenContext) (done : TraitTables) (id : SymbolId) (owner : Symbol) :
    MemberTable FlatMember × List Diagnostic :=
  let c := x.composeUses id owner (Origin.throughTrait owner) done
  (x.addOwn id owner c.members, x.collisionDiagnostics owner c.collisions)

/-- Takes the members that a class declares out of those that it composes. -/
def removeOwn (owner : Symbol) (composed : MemberTable FlatMember) : MemberTable FlatMember :=
  owner.members.foldl (fun table m => table.erase ⟨m.kind, m.name⟩) composed

/-- What a class inherits, and the reports of its collisions. -/
def flattenClass (x : FlattenContext) (done : TraitTables) (id : SymbolId) (owner : Symbol) :
    MemberTable InheritedMember × List Diagnostic :=
  let c := x.composeUses id owner (Origin.throughClass owner) done
  ((removeOwn owner c.members).map (InheritedMember.ofFlat owner.home),
    x.collisionDiagnostics owner c.collisions)

/-- Flattens symbols by their numbers; a number that has no symbol is left out. -/
def flattenAll {α : Type} (x : FlattenContext) (flatten : SymbolId → Symbol → α)
    (ids : List SymbolId) : List (SymbolId × α) :=
  ids.filterMap fun id => (x.symbols.get? id).map fun owner => (id, flatten id owner)

/-- Adds the tables of a level to those of the levels below it. -/
def flattenLevel (x : FlattenContext) (below : TraitTables × List Diagnostic)
    (level : List SymbolId) : TraitTables × List Diagnostic :=
  let results := x.flattenAll (x.flattenTrait below.1) level
  (below.1 ++ results.map fun (id, table, _) => (id, table),
    below.2 ++ results.flatMap fun (_, _, diagnostics) => diagnostics)

/-- The tables of all traits. -/
def flattenTraits (x : FlattenContext) : TraitTables × List Diagnostic :=
  x.uses.levels.foldl x.flattenLevel ([], [])

end FlattenContext

/-- The result of flattening, with everything that was reported on the way. -/
structure Flattening where
  traits : TraitTables
  classes : List (SymbolId × MemberTable InheritedMember)
  cyclic : List SymbolId
  diagnostics : List Diagnostic

namespace Flattening

/-- The table of a trait. -/
def traitMembers? (f : Flattening) (id : SymbolId) : Option (MemberTable FlatMember) :=
  f.traits.lookup id

/-- What a class inherits. -/
def inherited? (f : Flattening) (id : SymbolId) : Option (MemberTable InheritedMember) :=
  f.classes.lookup id

/-- The context in which a program is flattened. -/
def context (symbols : SymbolTable) (modules : ModuleGraph) (sources : SourceMap) :
    FlattenContext :=
  let graph := symbols.useGraph
  let search := CycleSearch.ofGraph graph
  ⟨symbols, modules, sources, graph.drop search.closing, search.cyclic graph⟩

/-- Flattens the traits and classes of a program. -/
def ofProgram (symbols : SymbolTable) (modules : ModuleGraph) (sources : SourceMap) :
    Flattening :=
  let search := CycleSearch.ofGraph symbols.useGraph
  let x := context symbols modules sources
  let (traits, traitDiagnostics) := x.flattenTraits
  let classes := x.flattenAll (x.flattenClass traits) (symbols.ofKind .class)
  ⟨traits, classes.map fun (id, table, _) => (id, table), x.cyclic,
    symbols.useDiagnostics sources ++ CycleReport.diagnostics symbols sources search.cycles
      ++ traitDiagnostics ++ classes.flatMap fun (_, _, diagnostics) => diagnostics⟩

end Flattening
end ModuleVisibility
