import ModuleVisibility.Access.Visibility
import ModuleVisibility.Composition.Flattening

/-!
Looking up a member of a class or trait. A member that the owner declares comes first; otherwise
the owner's table from flattening is asked.
-/
namespace ModuleVisibility

/-- A member found on `owner`: `source` declares it at `index`, and it is checked against the
module `home`. -/
structure ResolvedMember where
  owner : SymbolId
  source : SymbolId
  index : Nat
  visibility : Visibility
  home : ModuleId
  isDegraded : Bool
  deriving DecidableEq

namespace ResolvedMember

/-- The member's declaration. -/
def member? (m : ResolvedMember) (symbols : SymbolTable) : Option Member := do
  let source ← symbols.get? m.source
  source.members[m.index]?

/-- Whether code in `accessor` may use the member. -/
def isAccessible (m : ResolvedMember) (modules : ModuleGraph) (accessor : ModuleId) : Bool :=
  (modules.effective m.visibility m.home m.isDegraded).permits accessor m.home

/-- A member that the owner declares itself. -/
def ofOwn (id : SymbolId) (owner : Symbol) (index : Nat) (m : Member) : ResolvedMember :=
  ⟨id, id, index, m.visibility, owner.home, owner.isUnresolved⟩

/-- A member that a class inherits. -/
def ofInherited (id : SymbolId) (owner : Symbol) (m : InheritedMember) : ResolvedMember :=
  ⟨id, m.source, m.index, m.visibility, m.home, m.isDegraded || owner.isUnresolved⟩

/-- A member from the table of a trait. -/
def ofFlat (id : SymbolId) (owner : Symbol) (m : FlatMember) : ResolvedMember :=
  ⟨id, m.source, m.index, m.visibility, m.origin.resolve owner.home,
    m.isDegraded || owner.isUnresolved⟩

end ResolvedMember

/-- A member that the owner's table holds. -/
def Flattening.composedMember? (f : Flattening) (id : SymbolId) (owner : Symbol) (key : MemberKey) :
    Option ResolvedMember :=
  match owner.kind with
  | .class =>
    ((f.inherited? id).bind (·.get? key)).map (ResolvedMember.ofInherited id owner)
  | .trait =>
    ((f.traitMembers? id).bind (·.get? key)).map (ResolvedMember.ofFlat id owner)
  | _ => none

/-- The member of a kind and name on the symbol `id`. -/
def Flattening.resolveMember? (f : Flattening) (symbols : SymbolTable) (id : SymbolId)
    (key : MemberKey) : Option ResolvedMember := do
  let owner ← symbols.get? id
  match owner.member? key.kind key.name with
  | some (index, m) => some (.ofOwn id owner index m)
  | none => f.composedMember? id owner key

end ModuleVisibility
