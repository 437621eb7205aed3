import ModuleVisibility.Proofs.Entry
import ModuleVisibility.Proofs.Revision

/-!
Flattening after a revision. A member that replaces another one is chosen by where it comes from, so
the same members are composed and inherited as before, each with its new visibility.
-/
namespace ModuleVisibility

variable {φ : Revision}

theorem Origin.throughTrait_revise (id : SymbolId) (owner : Symbol) :
    throughTrait (owner.revise φ id) = throughTrait owner := by
  funext o
  cases o with
  | pinned home => rfl
  | composer =>
    simp only [throughTrait, Symbol.isModuleLevelTrait_revise]
    rfl

namespace FlattenContext

variable {x : FlattenContext} {done : TraitTables} {id : SymbolId} {owner : Symbol}

/-- The context in which the revised program is flattened. -/
def revise (φ : Revision) (x : FlattenContext) : FlattenContext :=
  { x with symbols := x.symbols.revise φ }

def reviseTables (φ : Revision) (done : TraitTables) : TraitTables :=
  done.map fun (id, table) => (id, table.map (FlatMember.revise φ))

theorem lookup_reviseTables (done : TraitTables) (id : SymbolId) :
    (reviseTables φ done).lookup id =
      (done.lookup id).map (MemberTable.map (FlatMember.revise φ)) :=
  lookup_map_value
    (fun (_ : SymbolId) (table : MemberTable FlatMember) => table.map (FlatMember.revise φ)) done id

theorem isUnresolved_revise (id : SymbolId) : (x.revise φ).isUnresolved id = x.isUnresolved id := by
  unfold isUnresolved revise
  rw [SymbolTable.get?_revise]
  cases x.symbols.get? id <;> rfl

theorem composeUses_revise (through : Origin → Origin) :
    (x.revise φ).composeUses id (owner.revise φ id) through (reviseTables φ done) =
      (x.composeUses id owner through done).map (FlatMember.revise φ) := by
  have hmember : ∀ kind name,
      ((owner.revise φ id).member? kind name).isSome = (owner.member? kind name).isSome := by
    intro kind name
    rw [Symbol.member?_revise, Option.isSome_map]
  have hgraph : (x.revise φ).uses.uses id =
      (x.uses.uses id).map (Option.map fun target => target) := by
    simp [revise]
  refine composeUses_map (f := FlatMember.revise φ) (fun _ _ => rfl) hmember
    (owner.uses_revise id) hgraph
    (fun target _ => lookup_reviseTables done target) fun target _ m => ?_
  rw [isUnresolved_revise]
  rfl

theorem addOwn_revise (composed : MemberTable FlatMember) :
    (x.revise φ).addOwn id (owner.revise φ id) (composed.map (FlatMember.revise φ)) =
      (x.addOwn id owner composed).map (FlatMember.revise φ) := by
  unfold addOwn
  rw [Symbol.zipIdx_members_revise, List.foldl_map]
  generalize owner.members.zipIdx = members
  induction members generalizing composed with
  | nil => rfl
  | cons first rest ih =>
    rw [List.foldl_cons, List.foldl_cons, ← ih, MemberTable.map_insert, isUnresolved_revise,
      Origin.throughTrait_revise]
    rfl

theorem flattenTrait_revise :
    ((x.revise φ).flattenTrait (reviseTables φ done) id (owner.revise φ id)).1 =
      (x.flattenTrait done id owner).1.map (FlatMember.revise φ) := by
  unfold flattenTrait
  dsimp only
  rw [Origin.throughTrait_revise, composeUses_revise, ← addOwn_revise]
  rfl

theorem removeOwn_revise (composed : MemberTable FlatMember) :
    removeOwn (owner.revise φ id) (composed.map (FlatMember.revise φ)) =
      (removeOwn owner composed).map (FlatMember.revise φ) := by
  have hremove : ∀ (owner : Symbol) (composed : MemberTable FlatMember), removeOwn owner composed =
      (owner.members.map fun m => (⟨m.kind, m.name⟩ : MemberKey)).foldl
      MemberTable.erase composed :=
    fun _ _ => List.foldl_map.symm
  have hkeys : ((owner.revise φ id).members.map fun m => (⟨m.kind, m.name⟩ : MemberKey)) =
      owner.members.map fun m => (⟨m.kind, m.name⟩ : MemberKey) := by
    refine List.ext_getElem? fun index => ?_
    rw [List.getElem?_map, List.getElem?_map, Symbol.getElem?_members_revise, Option.map_map]
    rfl
  have herase : ∀ (keys : List MemberKey) (composed : MemberTable FlatMember),
      keys.foldl MemberTable.erase (composed.map (FlatMember.revise φ)) =
        (keys.foldl MemberTable.erase composed).map (FlatMember.revise φ) := by
    intro keys
    induction keys with
    | nil => exact fun _ => rfl
    | cons first rest ih =>
      intro composed
      rw [List.foldl_cons, List.foldl_cons, ← ih, MemberTable.map_erase]
  rw [hremove, hremove, hkeys, herase]

theorem flattenClass_revise :
    ((x.revise φ).flattenClass (reviseTables φ done) id (owner.revise φ id)).1 =
      (x.flattenClass done id owner).1.map (InheritedMember.revise φ) := by
  have hthrough : Origin.throughClass (owner.revise φ id) = Origin.throughClass owner := rfl
  unfold flattenClass
  dsimp only
  rw [hthrough, composeUses_revise, Composition.map, removeOwn_revise, MemberTable.map_map,
    MemberTable.map_map]
  rfl

theorem flattenLevel_revise {below below' : TraitTables × List Diagnostic}
    (h : below'.1 = reviseTables φ below.1) (level : List SymbolId) :
    ((x.revise φ).flattenLevel below' level).1 =
      reviseTables φ (x.flattenLevel below level).1 := by
  have hnew : ((x.revise φ).flattenAll ((x.revise φ).flattenTrait (reviseTables φ below.1))
      level).map (fun found => (found.1, found.2.1)) =
        reviseTables φ ((x.flattenAll (x.flattenTrait below.1) level).map
          fun found => (found.1, found.2.1)) := by
    unfold flattenAll reviseTables
    rw [List.map_filterMap, List.map_map, List.map_filterMap]
    refine List.filterMap_congr fun id _ => ?_
    have hget : (x.revise φ).symbols.get? id = (x.symbols.get? id).map (Symbol.revise φ id) :=
      x.symbols.get?_revise id
    rw [hget, Option.map_map, Option.map_map, Option.map_map]
    exact congrArg (Option.map · _) (funext fun owner => Prod.ext rfl flattenTrait_revise)
  unfold flattenLevel
  dsimp only
  rw [h, hnew]
  exact List.map_append.symm

theorem flattenTraits_revise :
    (x.revise φ).flattenTraits.1 = reviseTables φ x.flattenTraits.1 := by
  have hlevels : ∀ (levels : List (List SymbolId)) (below below' : TraitTables × List Diagnostic),
      below'.1 = reviseTables φ below.1 →
        (levels.foldl (x.revise φ).flattenLevel below').1 =
          reviseTables φ (levels.foldl x.flattenLevel below).1 := by
    intro levels
    induction levels with
    | nil => exact fun _ _ h => h
    | cons level rest ih => exact fun below below' h => ih _ _ (flattenLevel_revise h level)
  exact hlevels _ _ _ rfl

end FlattenContext

namespace Flattening

variable (t : SymbolTable) (modules : ModuleGraph) (sources : SourceMap)

/-- The tables of two programs that differ in their visibilities only. -/
structure Revised (φ : Revision) (f f' : Flattening) : Prop where
  traits : ∀ id, f'.traitMembers? id =
    (f.traitMembers? id).map (MemberTable.map (FlatMember.revise φ))
  classes : ∀ id, f'.inherited? id =
    (f.inherited? id).map (MemberTable.map (InheritedMember.revise φ))
  cyclic : f'.cyclic = f.cyclic

theorem context_revise :
    context (t.revise φ) modules sources = (context t modules sources).revise φ := by
  unfold context FlattenContext.revise
  rw [SymbolTable.useGraph_revise]

theorem traits_revise : (ofProgram (t.revise φ) modules sources).traits =
    FlattenContext.reviseTables φ (ofProgram t modules sources).traits := by
  rw [traits_ofProgram, traits_ofProgram, context_revise, FlattenContext.flattenTraits_revise]

theorem revised_ofProgram :
    (ofProgram t modules sources).Revised φ (ofProgram (t.revise φ) modules sources) where
  traits id := by
    unfold traitMembers?
    rw [traits_revise]
    exact FlattenContext.lookup_reviseTables _ id
  classes id := by
    rw [inherited?_ofProgram, inherited?_ofProgram, SymbolTable.ofKind_revise,
      SymbolTable.get?_revise, traits_revise, context_revise]
    split
    · rw [Option.map_map, Option.map_map]
      exact congrArg (Option.map · _)
        (funext fun owner => FlattenContext.flattenClass_revise)
    · rfl
  cyclic := by
    have hcyclic : (context (t.revise φ) modules sources).cyclic =
        (context t modules sources).cyclic := by
      rw [context_revise]
      rfl
    exact hcyclic

end Flattening
end ModuleVisibility
