import ModuleVisibility.Diagnostic.Basic

/-!
Which trait each use clause brings in. A clause that names no trait brings in nothing and is
reported; all the same it keeps its place, so that clauses are known by their index.
-/
namespace ModuleVisibility

/-- The traits of a program in order, and what the clauses of each owner bring in. -/
structure UseGraph where
  traits : List SymbolId
  table : List (SymbolId × List (Option SymbolId))

/-- The clause at `index` of an owner. -/
structure ClauseRef where
  owner : SymbolId
  index : Nat
  deriving DecidableEq

namespace SymbolTable

/-- The trait that a clause names. -/
def useTarget? (t : SymbolTable) (clause : UseClause) : Option SymbolId :=
  (t.lookupKind? .trait clause.name).map (·.1)

/-- What is wrong with a clause of `owner`. -/
def useFinding? (t : SymbolTable) (owner : Symbol) (clause : UseClause) : Option Finding :=
  match t.lookup? clause.name with
  | none => some (.unknownTrait owner.name clause.name)
  | some (_, target) =>
    if target.kind = .trait then none
    else some (.notATrait owner.name clause.name target.kind)

/-- The clauses that bring in nothing, owner by owner. -/
def useDiagnostics (t : SymbolTable) (sources : SourceMap) : List Diagnostic :=
  t.symbols.flatMap fun owner =>
    owner.uses.filterMap fun clause =>
      (t.useFinding? owner clause).map (·.report (sources.locate owner.unit clause.span))

/-- The use graph of a program. -/
def useGraph (t : SymbolTable) : UseGraph :=
  ⟨t.ofKind .trait, t.entries.map fun (id, s) => (id, s.uses.map t.useTarget?)⟩

end SymbolTable

namespace UseGraph

/-- What the clauses of an owner bring in, in order. -/
def uses (g : UseGraph) (owner : SymbolId) : List (Option SymbolId) :=
  (g.table.lookup owner).getD []

/-- The traits that an owner uses. -/
def targets (g : UseGraph) (owner : SymbolId) : List SymbolId := (g.uses owner).filterMap id

/-- The graph without some clauses; what they brought in is gone, and their places stay. -/
def drop (g : UseGraph) (clauses : List ClauseRef) : UseGraph :=
  { g with
    table := g.table.map fun (owner, uses) =>
      (owner, uses.mapIdx fun i target => if ⟨owner, i⟩ ∈ clauses then none else target) }

end UseGraph
end ModuleVisibility
