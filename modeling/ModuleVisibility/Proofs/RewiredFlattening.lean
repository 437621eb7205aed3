import ModuleVisibility.Proofs.Layering
import ModuleVisibility.Proofs.Rewiring

/-!
Flattening programs that differ in their use clauses only. Where the levels are the same and every
trait composes the same members from the tables of the first program, the second has the same
tables: what a trait uses comes in levels before its own, so by then it has been composed alike.
-/
namespace ModuleVisibility

/-- Lists of pairs are the same if they have the same keys in the same order and the same is found
under them. -/
theorem eq_of_lookup_eq {α β : Type} [DecidableEq α] {l l' : List (α × β)}
    (hkeys : l'.map Prod.fst = l.map Prod.fst) (hnodup : (l.map Prod.fst).Nodup)
    (h : ∀ key, l'.lookup key = l.lookup key) : l' = l := by
  induction l generalizing l' with
  | nil => exact List.map_eq_nil_iff.1 hkeys
  | cons head rest ih =>
    obtain ⟨_, b⟩ := head
    obtain ⟨⟨key, b'⟩, rest', rfl, rfl, hrest⟩ := List.map_eq_cons_iff.1 hkeys
    obtain ⟨hfresh, hnodup⟩ := List.nodup_cons.1 hnodup
    have hhead := h key
    simp only [List.lookup_cons, beq_self_eq_true, Option.some.injEq] at hhead
    rw [hhead, ih hrest hnodup fun other => ?_]
    by_cases hother : other = key
    · have hnone : ∀ l : List (α × β), key ∉ l.map Prod.fst → l.lookup key = none := by
        intro l hnot
        refine List.lookup_eq_none_iff.2 fun p hp => bne_iff_ne.2 fun heq => hnot ?_
        exact List.mem_map.2 ⟨p, hp, heq.symm⟩
      rw [hother, hnone rest hfresh, hnone rest' (hrest ▸ hfresh)]
    · have htail := h other
      rwa [List.lookup_cons, List.lookup_cons, beq_eq_false_iff_ne.2 hother] at htail

namespace FlattenContext

variable {x x' : FlattenContext} {id : SymbolId} {owner owner' : Symbol}

/-- There is a table for each trait, level by level. -/
theorem keys_flattenTraits (hx : x.WellFormed) :
    x.flattenTraits.1.map Prod.fst = x.uses.levels.flatten := by
  have hsymbols : ∀ id ∈ x.uses.levels.flatten, (x.symbols.get? id).isSome := by
    intro id hid
    obtain ⟨s, hs, _⟩ :=
      (hx.traits id).1 ((UseGraph.mem_flatten_levels hx.nodup hx.closed hx.ends).1 hid)
    exact Option.isSome_iff_exists.2 ⟨s, hs⟩
  have hlevel : ∀ (below : TraitTables × List Diagnostic) (level : List SymbolId),
      (∀ id ∈ level, (x.symbols.get? id).isSome) →
      (x.flattenLevel below level).1.map Prod.fst = below.1.map Prod.fst ++ level := by
    intro below level hlevel
    unfold flattenLevel flattenAll
    rw [List.map_append, List.map_map, List.map_filterMap]
    congr 1
    conv_rhs => rw [← List.filterMap_some (l := level)]
    refine List.filterMap_congr fun id hid => ?_
    obtain ⟨s, hs⟩ := Option.isSome_iff_exists.1 (hlevel id hid)
    rw [hs]
    rfl
  have hlevels : ∀ (levels : List (List SymbolId)) (below : TraitTables × List Diagnostic),
      (∀ id ∈ levels.flatten, (x.symbols.get? id).isSome) →
      (levels.foldl x.flattenLevel below).1.map Prod.fst =
        below.1.map Prod.fst ++ levels.flatten := by
    intro levels
    induction levels with
    | nil => simp
    | cons level rest ih =>
      intro below hall
      rw [List.foldl_cons, ih _ fun id hid => hall id (by simp [hid]),
        hlevel below level fun id hid => hall id (by simp [hid]), List.flatten_cons,
        List.append_assoc]
  exact hlevels _ _ hsymbols

/-- What is not a trait has no table. -/
theorem lookup_flattenTraits_eq_none (hx : x.WellFormed)
    (h : ∀ owner, x.symbols.get? id = some owner → owner.kind ≠ .trait) :
    x.flattenTraits.1.lookup id = none := by
  obtain ⟨_, hkeys⟩ := recursive_flattenTraits hx
  refine Option.not_isSome_iff_eq_none.1 fun hsome => ?_
  obtain ⟨owner, howner, htrait⟩ := (hx.traits id).1 ((hkeys id).1 hsome)
  exact h owner howner htrait

/-- Two contexts that agree in everything but use clauses. -/
structure SameBare (x x' : FlattenContext) : Prop where
  symbols : x'.symbols.bare = x.symbols.bare
  modules : x'.modules = x.modules
  sources : x'.sources = x.sources
  cyclic : x'.cyclic = x.cyclic

namespace SameBare

variable (h : x.SameBare x') (howner : owner'.bare = owner.bare)
include h

theorem isUnresolved (id : SymbolId) : x'.isUnresolved id = x.isUnresolved id := by
  have hmark : ∀ t : SymbolTable, (t.get? id).any (·.isUnresolved) =
      (t.bare.get? id).any (·.isUnresolved) := by
    intro t
    rw [SymbolTable.get?_bare, Option.any_map]
    rfl
  unfold FlattenContext.isUnresolved
  rw [h.cyclic, hmark, hmark x.symbols, h.symbols]

include howner

/-- What a trait declares itself does not depend on its clauses. -/
theorem addOwn (id : SymbolId) (composed : MemberTable FlatMember) :
    x'.addOwn id owner' composed = x.addOwn id owner composed := by
  unfold FlattenContext.addOwn
  rw [Symbol.eq_of_bare_eq howner Symbol.members_bare,
    Symbol.eq_of_bare_eq howner Origin.throughTrait_bare, h.isUnresolved]

/-- One clause is composed alike, whatever other clauses its owner has. -/
theorem composeClause (through : Origin → Origin) (done : TraitTables) (c : Composition)
    (clause : UseClause) (target : Option SymbolId) :
    x'.composeClause owner' through done c clause target =
      x.composeClause owner through done c clause target := by
  have hadd : Composition.add owner' = Composition.add owner := by
    refine Symbol.eq_of_bare_eq howner fun s => ?_
    funext clause c key m
    unfold Composition.add
    rw [Symbol.member?_bare]
  unfold FlattenContext.composeClause Composition.addTable
  simp only [h.isUnresolved, hadd]

/-- The report of a collision does not depend on clauses of others. -/
theorem collisionDiagnostics : x'.collisionDiagnostics owner' = x.collisionDiagnostics owner := by
  funext collisions
  have hunit : owner'.unit = owner.unit := Symbol.eq_of_bare_eq howner fun _ => rfl
  have hname : owner'.name = owner.name := Symbol.eq_of_bare_eq howner fun _ => rfl
  unfold FlattenContext.collisionDiagnostics Collision.finding
  simp only [h.modules, h.sources, hunit, hname, SymbolTable.name_of_bare_eq h.symbols]

end SameBare

/-- Moreover the levels are the same, and every trait composes the same members from the tables of
the first context. -/
structure Rewired (x x' : FlattenContext) : Prop extends SameBare x x' where
  levels : x'.uses.levels = x.uses.levels
  members : ∀ id owner owner', x.symbols.get? id = some owner → x'.symbols.get? id = some owner' →
    owner.kind = .trait → ∀ through,
      (x'.composeUses id owner' through x.flattenTraits.1).members =
        (x.composeUses id owner through x.flattenTraits.1).members

namespace Rewired

variable (h : x.Rewired x')
include h

theorem flattenTrait (howner : x.symbols.get? id = some owner)
    (howner' : x'.symbols.get? id = some owner') (hbare : owner'.bare = owner.bare)
    (htrait : owner.kind = .trait) :
    (x'.flattenTrait x.flattenTraits.1 id owner').1 =
      (x.flattenTrait x.flattenTraits.1 id owner).1 := by
  unfold FlattenContext.flattenTrait
  dsimp only
  rw [h.toSameBare.addOwn hbare, Symbol.eq_of_bare_eq hbare Origin.throughTrait_bare,
    h.members id owner owner' howner howner' htrait]

/-- By induction on the walks from a trait: the tables that it needs are the same already. -/
theorem lookup_flattenTraits (hx : x.WellFormed) (hx' : x'.WellFormed) (id : SymbolId) :
    x'.flattenTraits.1.lookup id = x.flattenTraits.1.lookup id := by
  induction hx'.ends id with
  | intro id _ ih =>
    by_cases htrait : ∃ owner, x.symbols.get? id = some owner ∧ owner.kind = .trait
    · obtain ⟨owner, howner, htrait⟩ := htrait
      obtain ⟨owner', howner', hbare⟩ := SymbolTable.exists_get?_of_bare_eq h.symbols howner
      have htrait' : owner'.kind = .trait :=
        (Symbol.eq_of_bare_eq hbare Symbol.kind_bare).trans htrait
      rw [FlattenContext.lookup_flattenTraits hx howner htrait,
        FlattenContext.lookup_flattenTraits hx' howner' htrait', flattenTrait_congr ih,
        h.flattenTrait howner howner' hbare htrait]
    · rw [lookup_flattenTraits_eq_none hx fun owner howner hkind => htrait ⟨owner, howner, hkind⟩,
        lookup_flattenTraits_eq_none hx' fun owner' howner' hkind => ?_]
      obtain ⟨owner, howner, hbare⟩ := SymbolTable.exists_get?_of_bare_eq h.symbols.symm howner'
      exact htrait ⟨owner, howner, (Symbol.eq_of_bare_eq hbare Symbol.kind_bare).trans hkind⟩

theorem traits (hx : x.WellFormed) (hx' : x'.WellFormed) :
    x'.flattenTraits.1 = x.flattenTraits.1 := by
  refine eq_of_lookup_eq ?_ ?_ (h.lookup_flattenTraits hx hx')
  · rw [keys_flattenTraits hx', keys_flattenTraits hx, h.levels]
  · rw [keys_flattenTraits hx]
    have hleveled := UseGraph.leveled_levels hx.nodup hx.closed hx.ends
    exact (hleveled.perm hx.nodup).nodup_iff.2 hx.nodup

end Rewired

/-- What a class inherits, when it composes the same members. -/
theorem flattenClass_of_members_eq {done done' : TraitTables} (hbare : owner'.bare = owner.bare)
    (hmembers : ∀ through, (x'.composeUses id owner' through done').members =
      (x.composeUses id owner through done).members) :
    (x'.flattenClass done' id owner').1 = (x.flattenClass done id owner).1 := by
  have hhome : owner'.home = owner.home := Symbol.eq_of_bare_eq hbare fun _ => rfl
  have hthrough : Origin.throughClass owner' = Origin.throughClass owner :=
    Symbol.eq_of_bare_eq hbare fun _ => rfl
  unfold flattenClass removeOwn
  dsimp only
  rw [Symbol.eq_of_bare_eq hbare Symbol.members_bare, hthrough, hmembers, hhome]

/-! What is reported, trait and class by class. -/

/-- The reports of all collisions. -/
def collisionReports (x : FlattenContext) : List Diagnostic :=
  x.flattenTraits.2 ++
    x.reports (x.flattenClass x.flattenTraits.1) (x.symbols.ofKind .class)

/-- A relation between lists that appending keeps holds of what is reported if it holds of what is
reported of each owner. -/
theorem Rewired.rel_collisionReports (h : x.Rewired x') (hx : x.WellFormed) (hx' : x'.WellFormed)
    {R : List Diagnostic → List Diagnostic → Prop} (hnil : R [] [])
    (happend : ∀ {a a' b b'}, R a' a → R b' b → R (a' ++ b') (a ++ b))
    (howners : ∀ id owner owner', x.symbols.get? id = some owner →
      x'.symbols.get? id = some owner' → ∀ through,
        R (x.collisionDiagnostics owner
          (x'.composeUses id owner' through x.flattenTraits.1).collisions)
          (x.collisionDiagnostics owner
            (x.composeUses id owner through x.flattenTraits.1).collisions)) :
    R x'.collisionReports x.collisionReports := by
  have hreports : ∀ {α : Type} {flatten flatten' : SymbolId → Symbol → α × List Diagnostic}
      (ids : List SymbolId),
      (∀ id owner owner', x.symbols.get? id = some owner → x'.symbols.get? id = some owner' →
        owner'.bare = owner.bare → R (flatten' id owner').2 (flatten id owner).2) →
      R (x'.reports flatten' ids) (x.reports flatten ids) := by
    intro α flatten flatten' ids hflatten
    induction ids with
    | nil => exact hnil
    | cons id rest ih =>
      refine happend ?_ ih
      dsimp only
      cases howner : x.symbols.get? id with
      | none =>
        rw [SymbolTable.get?_eq_none_of_bare_eq h.symbols howner]
        exact hnil
      | some owner =>
        obtain ⟨owner', howner', hbare⟩ := SymbolTable.exists_get?_of_bare_eq h.symbols howner
        rw [howner']
        exact hflatten id owner owner' howner howner' hbare
  unfold collisionReports
  rw [h.traits hx hx', SymbolTable.ofKind_of_bare_eq h.symbols, reports_flattenTraits hx,
    reports_flattenTraits hx', h.traits hx hx', h.levels]
  refine happend (hreports _ fun id owner owner' howner howner' hbare => ?_)
    (hreports _ fun id owner owner' howner howner' hbare => ?_)
  · unfold FlattenContext.flattenTrait
    rw [h.toSameBare.collisionDiagnostics hbare,
      Symbol.eq_of_bare_eq hbare Origin.throughTrait_bare]
    exact howners id owner owner' howner howner' _
  · have hthrough : Origin.throughClass owner' = Origin.throughClass owner :=
      Symbol.eq_of_bare_eq hbare fun _ => rfl
    unfold FlattenContext.flattenClass
    rw [h.toSameBare.collisionDiagnostics hbare, hthrough]
    exact howners id owner owner' howner howner' _

end FlattenContext

namespace Flattening

variable {symbols symbols' : SymbolTable} {modules : ModuleGraph} {sources : SourceMap}

theorem diagnostics_ofProgram (symbols : SymbolTable) (modules : ModuleGraph)
    (sources : SourceMap) :
    (ofProgram symbols modules sources).diagnostics =
      symbols.useDiagnostics sources
        ++ CycleReport.diagnostics symbols sources (CycleSearch.ofGraph symbols.useGraph).cycles
        ++ (context symbols modules sources).collisionReports := by
  have hclasses := FlattenContext.flatMap_flattenAll (context symbols modules sources)
    ((context symbols modules sources).flattenClass
      (context symbols modules sources).flattenTraits.1)
    (symbols.ofKind .class)
  simp only [ofProgram, hclasses, List.append_assoc]
  rfl

variable (h : (context symbols modules sources).Rewired (context symbols' modules sources))
include h

theorem traits_of_rewired :
    (ofProgram symbols' modules sources).traits = (ofProgram symbols modules sources).traits :=
  h.traits (wellFormed_context ..) (wellFormed_context ..)

/-- The classes inherit the same if they compose the same. -/
theorem classes_of_rewired (hclasses : ∀ id owner owner', symbols.get? id = some owner →
      symbols'.get? id = some owner' → owner.kind = .class → ∀ through,
        ((context symbols' modules sources).composeUses id owner' through
          (ofProgram symbols modules sources).traits).members =
        ((context symbols modules sources).composeUses id owner through
          (ofProgram symbols modules sources).traits).members) :
    (ofProgram symbols' modules sources).classes = (ofProgram symbols modules sources).classes := by
  have hlist : ∀ symbols, (ofProgram symbols modules sources).classes =
      (symbols.ofKind .class).filterMap fun id => (symbols.get? id).map fun owner =>
        (id, ((context symbols modules sources).flattenClass
          (ofProgram symbols modules sources).traits id owner).1) := by
    intro symbols
    simp only [ofProgram, FlattenContext.flattenAll, List.map_filterMap, Option.map_map]
    rfl
  have hids : symbols'.ofKind .class = symbols.ofKind .class :=
    SymbolTable.ofKind_of_bare_eq h.symbols .class
  rw [hlist, hlist symbols, hids, traits_of_rewired h]
  refine List.filterMap_congr fun id hid => ?_
  obtain ⟨owner, howner, hclass⟩ := SymbolTable.mem_ofKind.1 hid
  obtain ⟨owner', howner', hbare⟩ := SymbolTable.exists_get?_of_bare_eq h.symbols howner
  have howner'' : symbols'.get? id = some owner' := howner'
  rw [howner, howner'', Option.map_some, Option.map_some]
  have htable := FlattenContext.flattenClass_of_members_eq hbare
    (hclasses id owner owner' howner howner'' hclass)
  exact congrArg (fun table => some (id, table)) htable

end Flattening
end ModuleVisibility
