import ModuleVisibility.Proofs.RenumberedFlattening
import ModuleVisibility.Proofs.RewiredFlattening

/-!
The clauses of one symbol in another order, in a program without cycles. Which trait leads to which
does not depend on the order, so there are no cycles still and the levels are the same; what an
owner composes is a fold over its clauses.
-/
namespace ModuleVisibility

namespace SymbolTable

variable {t : SymbolTable} {id : SymbolId} {f : List UseClause → List UseClause}
  (hf : ∀ uses, (f uses).Perm uses)
include hf

theorem leads_useGraph_rewire : (t.rewire id f).useGraph.Leads = t.useGraph.Leads := by
  have htarget := useTarget?_of_bare_eq (t.bare_rewire (f := f) id)
  funext a b
  unfold UseGraph.Leads
  cases ha : t.get? a with
  | none =>
    have ha' := get?_eq_none_of_bare_eq (t.bare_rewire (f := f) id) ha
    rw [uses_useGraph_of_none ha, uses_useGraph_of_none ha']
  | some owner =>
    obtain ⟨owner', ha', _⟩ := exists_get?_of_bare_eq (t.bare_rewire (f := f) id) ha
    have huses : owner'.uses.Perm owner.uses := by
      rw [uses_of_get?_rewire (hf []).eq_nil ha ha']
      split
      · exact hf owner.uses
      · exact .refl _
    rw [uses_useGraph ha, uses_useGraph ha', htarget]
    exact propext (huses.map t.useTarget?).mem_iff

theorem acyclic_rewire (hacyclic : t.useGraph.Acyclic) : (t.rewire id f).useGraph.Acyclic := by
  unfold UseGraph.Acyclic UseGraph.UsesItself at hacyclic ⊢
  rwa [leads_useGraph_rewire hf]

/-- Clauses that name no trait are reported in another order. -/
theorem perm_useDiagnostics_rewire (t : SymbolTable) (id : SymbolId) (sources : SourceMap) :
    ((t.rewire id f).useDiagnostics sources).Perm (t.useDiagnostics sources) := by
  have hreport : ∀ {s s' : Symbol}, s'.bare = s.bare →
      (t.rewire id f).useReport? sources s' = t.useReport? sources s :=
    useReport?_of_bare_eq (t.bare_rewire id) sources
  rw [useDiagnostics_eq_flatMap, useDiagnostics_eq_flatMap, ← symbols_entries, entries_rewire,
    ← symbols_entries t, List.map_map, List.flatMap_map, List.flatMap_map]
  refine List.Perm.flatMap_left _ fun ⟨other, s⟩ _ => ?_
  dsimp only [Function.comp_apply]
  split
  · rw [hreport s.bare_mapUses, s.uses_mapUses (hf []).eq_nil]
    exact (hf s.uses).filterMap _
  · rw [hreport rfl]

end SymbolTable

namespace Flattening

variable {t : SymbolTable} {id : SymbolId} {f : List UseClause → List UseClause}
  (modules : ModuleGraph) (sources : SourceMap)

/-- Without cycles no clause is left out. -/
theorem keptUses_of_acyclic (hacyclic : t.useGraph.Acyclic) (owner : Symbol) :
    t.keptUses id owner = owner.uses.filterMap t.useTarget? := by
  unfold SymbolTable.keptUses
  simp only [CycleSearch.closing_eq_nil t.closed_useGraph hacyclic, List.not_mem_nil, if_false]
  conv_rhs => rw [← List.zipIdx_map_fst 0 owner.uses, List.filterMap_map]
  rfl

/-- Without cycles what an owner composes is a fold over its clauses. -/
theorem composeUses_of_acyclic (hacyclic : t.useGraph.Acyclic) {owner : Symbol}
    (howner : t.get? id = some owner) (through : Origin → Origin) (done : TraitTables) :
    (context t modules sources).composeUses id owner through done =
      owner.uses.foldl (fun c clause => (context t modules sources).composeClause
        owner through done c
        clause (t.useTarget? clause)) .empty := by
  unfold FlattenContext.composeUses
  rw [uses_context_of_acyclic hacyclic, SymbolTable.uses_useGraph howner,
    ← List.map_prod_left_eq_zip, List.foldl_map]

variable (hf : ∀ uses, (f uses).Perm uses) (hacyclic : t.useGraph.Acyclic)
include hf hacyclic

theorem sameBare_rewire : (context t modules sources).SameBare
    (context (t.rewire id f) modules sources) where
  symbols := t.bare_rewire id
  modules := rfl
  sources := rfl
  cyclic := (CycleSearch.cyclic_eq_nil (SymbolTable.closed_useGraph _)
    (SymbolTable.acyclic_rewire hf hacyclic)).trans
      (CycleSearch.cyclic_eq_nil t.closed_useGraph hacyclic).symm

theorem levels_rewire : (context (t.rewire id f) modules sources).uses.levels =
    (context t modules sources).uses.levels := by
  refine UseGraph.levels_congr ?_ (wellFormed_context t modules sources).nodup fun a b => ?_
  · exact SymbolTable.ofKind_of_bare_eq (t.bare_rewire id) .trait
  · unfold UseGraph.Leads
    rw [uses_context_of_acyclic hacyclic,
      uses_context_of_acyclic (SymbolTable.acyclic_rewire hf hacyclic)]
    exact iff_of_eq (congrFun₂ (SymbolTable.leads_useGraph_rewire hf) a b)

/-- The other owners compose what they did. -/
theorem composeUses_rewire_of_ne {other : SymbolId} (hne : other ≠ id) {owner owner' : Symbol}
    (howner : t.get? other = some owner) (howner' : (t.rewire id f).get? other = some owner')
    (through : Origin → Origin) (done : TraitTables) :
    (context (t.rewire id f) modules sources).composeUses other owner' through done =
      (context t modules sources).composeUses other owner through done := by
  have htarget := SymbolTable.useTarget?_of_bare_eq (t.bare_rewire (f := f) id)
  have huses := SymbolTable.uses_of_get?_rewire (hf []).eq_nil howner howner'
  obtain ⟨_, hget, hbare⟩ := SymbolTable.exists_get?_of_bare_eq (t.bare_rewire (f := f) id) howner
  cases hget.symm.trans howner'
  rw [composeUses_of_acyclic modules sources hacyclic howner,
    composeUses_of_acyclic modules sources (SymbolTable.acyclic_rewire hf hacyclic) howner', huses,
    if_neg hne, htarget]
  simp only [(sameBare_rewire modules sources hf hacyclic).composeClause hbare]

/-- A class leads to nothing, so whatever its clauses bring in, the tables of traits stay as they
are. -/
theorem rewired_of_class {owner : Symbol} (howner : t.get? id = some owner)
    (hclass : owner.kind = .class) : (context t modules sources).Rewired
    (context (t.rewire id f) modules sources) where
  toSameBare := sameBare_rewire modules sources hf hacyclic
  levels := levels_rewire modules sources hf hacyclic
  members other o o' ho ho' htrait through := by
    have hne : other ≠ id := by
      rintro rfl
      cases howner.symm.trans ho
      rw [hclass] at htrait
      cases htrait
    rw [composeUses_rewire_of_ne modules sources hf hacyclic hne ho ho']

end Flattening
end ModuleVisibility
