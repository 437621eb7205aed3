import ModuleVisibility.Composition.MemberTable
import ModuleVisibility.Program.Symbol

/-!
Members that reach a class or trait through composition. A member of a module-level trait keeps
the module of that trait; any other takes the module of whoever composes it in the end.
-/
namespace ModuleVisibility

/-- The module that a composed member belongs to: a fixed one, or that of the composer. -/
inductive Origin where
  | pinned (home : ModuleId)
  | composer
  deriving DecidableEq

namespace Origin

/-- The module of a member whose composer is in `home`. -/
def resolve (o : Origin) (home : ModuleId) : ModuleId :=
  match o with
  | pinned m => m
  | composer => home

/-- The origin of a member in the table of `owner`, which pins it if it is a module-level trait. -/
def throughTrait (owner : Symbol) (o : Origin) : Origin :=
  match o with
  | pinned m => pinned m
  | composer => if owner.isModuleLevelTrait then pinned owner.home else composer

/-- The origin of a member in the table of the class `owner`. -/
def throughClass (owner : Symbol) (o : Origin) : Origin := pinned (o.resolve owner.home)

end Origin

/-- A member in the table of a trait: `source` declares it at `index`, and the clause of the owner
that brings it in names `via`. A degraded one came through an unresolved trait. -/
structure FlatMember where
  visibility : Visibility
  origin : Origin
  source : SymbolId
  index : Nat
  via : SymbolId
  isDegraded : Bool
  deriving DecidableEq

/-- Visibility by the declaration alone, whatever the module. -/
def FlatMember.declaredVisibility (m : FlatMember) : Visibility :=
  if m.isDegraded then .public else m.visibility

/-- A member that a class inherits, checked against the module `home`. -/
structure InheritedMember where
  visibility : Visibility
  home : ModuleId
  source : SymbolId
  index : Nat
  via : SymbolId
  isDegraded : Bool
  deriving DecidableEq

namespace InheritedMember

/-- Visibility by the declaration alone, whatever the module. -/
def declaredVisibility (m : InheritedMember) : Visibility :=
  if m.isDegraded then .public else m.visibility

/-- The member that a class in `home` inherits. -/
def ofFlat (home : ModuleId) (m : FlatMember) : InheritedMember :=
  ⟨m.visibility, m.origin.resolve home, m.source, m.index, m.via, m.isDegraded⟩

end InheritedMember
end ModuleVisibility
