import ModuleVisibility.Composition.FlatMember
import ModuleVisibility.Diagnostic.Basic

/-!
Composing the tables of traits into that of an owner. The clauses are taken in order and a later
member replaces an earlier one of its key. That is reported unless both are one member with one
origin, or the owner declares the key itself.
-/
namespace ModuleVisibility

/-- A member that replaces another one of its key, where `clause` brings it in. -/
structure Collision where
  clause : UseClause
  key : MemberKey
  existing : FlatMember
  incoming : FlatMember
  deriving DecidableEq

namespace Collision

/-- Whether a public member becomes internal. -/
def narrows (c : Collision) : Bool :=
  c.existing.declaredVisibility == .public && c.incoming.declaredVisibility == .internal

/-- The two modules when both members are pinned to different ones. -/
def homes? (c : Collision) (modules : ModuleGraph) : Option (String × String) :=
  match c.existing.origin, c.incoming.origin with
  | .pinned before, .pinned after =>
    if before = after then none else some (modules.name before, modules.name after)
  | _, _ => none

def finding (c : Collision) (symbols : SymbolTable) (modules : ModuleGraph) (owner : Symbol) :
    Finding :=
  .memberReplaced c.key.kind c.key.name (symbols.name c.incoming.via) (symbols.name c.existing.via)
    owner.name (c.homes? modules) c.narrows

end Collision

/-- The table of an owner so far, with the collisions met. -/
structure Composition where
  members : MemberTable FlatMember
  collisions : List Collision

namespace Composition

def empty : Composition := ⟨.empty, []⟩

/-- Whether two entries are one declared member with one origin. -/
def isSameMember (a b : FlatMember) : Bool :=
  a.source == b.source && a.index == b.index && a.origin == b.origin

/-- Takes in one member that `clause` brings to `owner`. -/
def add (owner : Symbol) (clause : UseClause) (c : Composition) (key : MemberKey)
    (incoming : FlatMember) : Composition :=
  match c.members.get? key with
  | none => { c with members := c.members.insert key incoming }
  | some existing =>
    if isSameMember existing incoming then c
    else
      ⟨c.members.insert key incoming,
        if (owner.member? key.kind key.name).isSome then c.collisions
        else c.collisions ++ [⟨clause, key, existing, incoming⟩]⟩

/-- A member of the trait `target` as its clause brings it in: `through` gives the origin. -/
def bring (through : Origin → Origin) (target : SymbolId) (isUnresolved : Bool) (m : FlatMember) :
    FlatMember :=
  { m with
    origin := through m.origin
    via := target
    isDegraded := m.isDegraded || isUnresolved }

/-- Takes in every member of a trait's table. -/
def addTable (owner : Symbol) (through : Origin → Origin) (clause : UseClause) (target : SymbolId)
    (isUnresolved : Bool) (table : MemberTable FlatMember) (c : Composition) : Composition :=
  table.entries.foldl
    (fun c (key, m) => c.add owner clause key (bring through target isUnresolved m)) c

end Composition
end ModuleVisibility
