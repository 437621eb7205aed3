import ModuleVisibility.Proofs.CycleOrder
import ModuleVisibility.Proofs.RenumberedComposition

/-!
Flattening at other numbers. The levels come in another order, but every table is the one composed
from the final tables, and so is every report of a collision; both are the same at other numbers.
-/
namespace ModuleVisibility
namespace FlattenContext

variable {x x' : FlattenContext} {α : Type}

namespace Renumbered

variable {ρ : Renumbering} (h : x.Renumbered ρ x')
include h

/-- The tables of a trait are the same, since those of the traits it uses are. -/
theorem lookup_flattenTraits (hx : x.WellFormed) (hx' : x'.WellFormed) (id : SymbolId) :
    x'.flattenTraits.1.lookup (id.renumber ρ) = (x.flattenTraits.1.lookup id).map (moved ρ) := by
  have hends := hx.ends id
  induction hends with
  | intro id _ ih =>
    have hkeys := (recursive_flattenTraits hx).2 id
    have hkeys' := (recursive_flattenTraits hx').2 (id.renumber ρ)
    have htraits : id.renumber ρ ∈ x'.uses.traits ↔ id ∈ x.uses.traits := by
      rw [h.traits.mem_iff, List.mem_map_of_injective SymbolId.renumber_injective]
    by_cases hid : id ∈ x.uses.traits
    · obtain ⟨owner, howner, htrait⟩ := (hx.traits id).1 hid
      rw [FlattenContext.lookup_flattenTraits hx howner htrait,
        FlattenContext.lookup_flattenTraits hx' (h.symbols.get?_eq_some howner) htrait,
        h.flattenTrait ih owner]
      rfl
    · have hnone : x.flattenTraits.1.lookup id = none :=
        Option.not_isSome_iff_eq_none.1 fun hsome => hid (hkeys.1 hsome)
      have hnone' : x'.flattenTraits.1.lookup (id.renumber ρ) = none :=
        Option.not_isSome_iff_eq_none.1 fun hsome => hid (htraits.1 (hkeys'.1 hsome))
      rw [hnone, hnone', Option.map_none]

theorem perm_reports {flatten flatten' : SymbolId → Symbol → α × List Diagnostic}
    (hflatten : ∀ id owner, (flatten' (id.renumber ρ) (owner.renumber ρ)).2 =
      (flatten id owner).2.map (Diagnostic.renumber ρ))
    {ids ids' : List SymbolId} (hids : ids'.Perm (ids.map (SymbolId.renumber ρ))) :
    (x'.reports flatten' ids').Perm ((x.reports flatten ids).map (Diagnostic.renumber ρ)) := by
  unfold reports
  refine perm_flatMap_of_map hids fun id _ => ?_
  rw [h.symbols.get?]
  cases x.symbols.get? id with
  | none => rfl
  | some owner => exact hflatten id owner

/-- The reports of traits come in another order. -/
theorem perm_traitReports (hx : x.WellFormed) (hx' : x'.WellFormed) :
    x'.flattenTraits.2.Perm (x.flattenTraits.2.map (Diagnostic.renumber ρ)) := by
  have hlevels : ∀ {x : FlattenContext}, x.WellFormed →
      x.uses.levels.flatten.Perm x.uses.traits := fun hx =>
    (UseGraph.leveled_levels hx.nodup hx.closed hx.ends).perm hx.nodup
  rw [reports_flattenTraits hx, reports_flattenTraits hx']
  refine h.perm_reports (fun id owner => ?_)
    ((hlevels hx').trans (h.traits.trans ((hlevels hx).symm.map _)))
  rw [h.flattenTrait (fun target _ => h.lookup_flattenTraits hx hx' target) owner]

end Renumbered
end FlattenContext

namespace SymbolTable

variable {t t' : SymbolTable} {ρ : Renumbering}

theorem Renumbered.acyclic (h : t.Renumbered ρ t') (hacyclic : t.useGraph.Acyclic) :
    t'.useGraph.Acyclic :=
  fun id hself => hacyclic (id.renumber ρ.symm) (h.symm.usesItself hself)

theorem Renumbered.perm_useDiagnostics (h : t.Renumbered ρ t') {sources sources' : SourceMap}
    (hsources : sources.Renumbered ρ sources') :
    (t'.useDiagnostics sources').Perm
      ((t.useDiagnostics sources).map (Diagnostic.renumber ρ)) := by
  have hfinding : ∀ owner clause,
      t'.useFinding? (owner.renumber ρ) clause = t.useFinding? owner clause := by
    intro owner clause
    unfold useFinding?
    rw [h.lookup?]
    cases t.lookup? clause.name <;> rfl
  unfold useDiagnostics
  refine perm_flatMap_of_map h.perm_symbols fun owner _ => ?_
  rw [List.map_filterMap, Symbol.uses_renumber]
  refine List.filterMap_congr fun clause _ => ?_
  rw [hfinding, Symbol.unit_renumber, hsources.locate, Option.map_map]
  rfl

end SymbolTable

namespace CycleSearch

variable {g : UseGraph}

theorem cycles_eq_nil (hg : g.Closed) (hacyclic : g.Acyclic) : (ofGraph g).cycles = [] := by
  rw [List.eq_nil_iff_forall_not_mem]
  intro cycle hcycle
  have hfound := (found_ofGraph hg).cycles cycle hcycle
  obtain ⟨first, _, hfirst, _⟩ := hfound.exists_ends
  exact hacyclic first (hfound.usesItself (List.mem_of_mem_head? hfirst))

theorem cyclic_eq_nil (hg : g.Closed) (hacyclic : g.Acyclic) : (ofGraph g).cyclic g = [] := by
  rw [List.eq_nil_iff_forall_not_mem]
  exact fun id hid => hacyclic id (usesItself_of_mem_cyclic hg hid)

end CycleSearch

/-- The same tables, at other numbers. -/
structure Flattening.Renumbered (ρ : Renumbering) (f f' : Flattening) : Prop where
  traits : ∀ id, f'.traitMembers? (id.renumber ρ) =
    (f.traitMembers? id).map (MemberTable.map (FlatMember.renumber ρ))
  classes : ∀ id, f'.inherited? (id.renumber ρ) =
    (f.inherited? id).map (MemberTable.map (InheritedMember.renumber ρ))

namespace Flattening

variable {t t' : SymbolTable} {modules modules' : ModuleGraph} {sources sources' : SourceMap}
  {ρ : Renumbering}

theorem cyclic_ofProgram_of_acyclic (hacyclic : t.useGraph.Acyclic) :
    (ofProgram t modules sources).cyclic = [] :=
  CycleSearch.cyclic_eq_nil t.closed_useGraph hacyclic

/-- Without cycles the graph that is flattened is the use graph. -/
theorem uses_context_of_acyclic (hacyclic : t.useGraph.Acyclic) (id : SymbolId) :
    (context t modules sources).uses.uses id = t.useGraph.uses id := by
  have hclosing := CycleSearch.closing_eq_nil t.closed_useGraph hacyclic
  simp only [context, UseGraph.uses_drop, hclosing, List.not_mem_nil, if_false]
  exact List.mapIdx_eq_iff.2 fun i => by simp

section

variable (ht : t.Renumbered ρ t') (hmodules : modules.Renumbered ρ modules')
  (hsources : sources.Renumbered ρ sources') (hacyclic : t.useGraph.Acyclic)
include ht hmodules hsources hacyclic

theorem renumbered_context :
    (context t modules sources).Renumbered ρ (context t' modules' sources') where
  symbols := ht
  modules := hmodules
  sources := hsources
  traits := ht.perm_ofKind .trait
  uses id := by
    rw [uses_context_of_acyclic hacyclic, uses_context_of_acyclic (ht.acyclic hacyclic), ht.uses]
  cyclic id := by
    have hnone : (context t modules sources).cyclic = [] :=
      CycleSearch.cyclic_eq_nil t.closed_useGraph hacyclic
    have hnone' : (context t' modules' sources').cyclic = [] :=
      CycleSearch.cyclic_eq_nil t'.closed_useGraph (ht.acyclic hacyclic)
    rw [hnone, hnone']
    simp

theorem renumbered_ofProgram :
    (ofProgram t modules sources).Renumbered ρ (ofProgram t' modules' sources') := by
  have hx := wellFormed_context t modules sources
  have hx' := wellFormed_context t' modules' sources'
  have hcontext := renumbered_context ht hmodules hsources hacyclic
  refine ⟨fun id => hcontext.lookup_flattenTraits hx hx' id, fun id => ?_⟩
  have hclass : id.renumber ρ ∈ t'.ofKind .class ↔ id ∈ t.ofKind .class := by
    rw [(ht.perm_ofKind .class).mem_iff, List.mem_map_of_injective SymbolId.renumber_injective]
  rw [inherited?_ofProgram, inherited?_ofProgram]
  by_cases hid : id ∈ t.ofKind .class
  · rw [if_pos hid, if_pos (hclass.2 hid), ht.get?]
    cases t.get? id with
    | none => rfl
    | some owner =>
      have hdone : FlattenContext.SameUsed ρ (context t modules sources) id
          (ofProgram t modules sources).traits (ofProgram t' modules' sources').traits :=
        fun target _ => hcontext.lookup_flattenTraits hx hx' target
      simp only [Option.map_some, hcontext.flattenClass hdone owner]
  · rw [if_neg hid, if_neg fun hid' => hid (hclass.1 hid'), Option.map_none]

/-- What is reported is the same, in another order. -/
theorem perm_diagnostics_ofProgram :
    (ofProgram t' modules' sources').diagnostics.Perm
      ((ofProgram t modules sources).diagnostics.map (Diagnostic.renumber ρ)) := by
  have hx := wellFormed_context t modules sources
  have hx' := wellFormed_context t' modules' sources'
  have hcontext := renumbered_context ht hmodules hsources hacyclic
  have hclasses := hcontext.perm_reports
    (fun id owner => congrArg Prod.snd
      (hcontext.flattenClass (fun target _ => hcontext.lookup_flattenTraits hx hx' target) owner))
    (ht.perm_ofKind .class)
  rw [← FlattenContext.flatMap_flattenAll, ← FlattenContext.flatMap_flattenAll] at hclasses
  have hcycles : ∀ {t : SymbolTable} {sources : SourceMap}, t.useGraph.Acyclic →
      CycleReport.diagnostics t sources (CycleSearch.ofGraph t.useGraph).cycles = [] := by
    intro t sources hacyclic
    rw [CycleSearch.cycles_eq_nil t.closed_useGraph hacyclic]
    rfl
  simp only [ofProgram, hcycles hacyclic, hcycles (ht.acyclic hacyclic), List.append_nil,
    List.map_append]
  exact ((ht.perm_useDiagnostics hsources).append (hcontext.perm_traitReports hx hx')).append
    hclasses

end

end Flattening
end ModuleVisibility
