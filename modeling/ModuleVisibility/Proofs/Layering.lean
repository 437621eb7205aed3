import ModuleVisibility.Proofs.Cycle
import ModuleVisibility.Proofs.Entry

/-!
The order of composition. What is left of the use graph when the clauses that close cycles are
dropped has no cycles, and only clauses on a cycle are dropped. The levels are those of the longest
walks, however the uses of a trait are listed, so whatever is composed finds the tables it needs.
-/
namespace ModuleVisibility

namespace UseGraph

variable {g : UseGraph} {levels : List (List SymbolId)}

/-- The levels hold every trait once. -/
theorem Leveled.perm (h : Leveled g levels) (htraits : g.traits.Nodup) :
    levels.flatten.Perm g.traits := by
  have hdisjoint : levels.Pairwise List.Disjoint := by
    refine List.pairwise_iff_getElem.2 fun i j hi hj hlt id hid hid' => ?_
    have htrait : id ∈ g.traits := (h.order _ (List.getElem_mem hi)).subset hid
    have hsame : i = j := (h.unique id htrait).unique
      ⟨levels[i], List.getElem?_eq_getElem hi, hid⟩ ⟨levels[j], List.getElem?_eq_getElem hj, hid'⟩
    omega
  have hnodup : levels.flatten.Nodup :=
    List.nodup_flatten.2 ⟨fun level hlevel => htraits.sublist (h.order level hlevel), hdisjoint⟩
  refine (List.perm_ext_iff_of_nodup hnodup htraits).2 fun id => ?_
  rw [List.mem_flatten]
  constructor
  · rintro ⟨level, hlevel, hid⟩
    exact (h.order level hlevel).subset hid
  · intro hid
    obtain ⟨i, ⟨level, hi, hmem⟩, _⟩ := h.unique id hid
    exact ⟨level, List.mem_of_getElem? hi, hmem⟩

/-- A level uses only what stands before it. -/
theorem Layered.split {placed : List SymbolId} {before after : List (List SymbolId)}
    {level : List SymbolId} (h : Layered g placed (before ++ level :: after)) :
    Layered g placed before ∧
      ∀ id ∈ level, ∀ used, g.Leads id used → used ∈ placed ++ before.flatten := by
  induction before generalizing placed with
  | nil =>
    obtain ⟨hlevel, _⟩ := h
    exact ⟨trivial, fun id hid used hleads => by simpa using (hlevel id hid).2 used hleads⟩
  | cons first rest ih =>
    obtain ⟨hfirst, hrest⟩ := h
    obtain ⟨hbefore, hused⟩ := ih hrest
    refine ⟨⟨hfirst, hbefore⟩, fun id hid used hleads => ?_⟩
    have hmem := hused id hid used hleads
    rwa [List.append_assoc, ← List.flatten_cons] at hmem

end UseGraph

namespace CycleSearch

variable {g : UseGraph}

/-- What a recorded clause brings in uses the owner of the clause. -/
theorem reaches_of_mem_closing (hg : g.Closed) {clause : ClauseRef}
    (h : clause ∈ (ofGraph g).closing) :
    ∃ target, (g.uses clause.owner)[clause.index]? = some (some target) ∧
      g.Reaches target clause.owner := by
  have hfound := found_ofGraph hg
  obtain ⟨cycle, hcycle, target, hread, hfirst, hlast⟩ := hfound.closing clause h
  exact ⟨target, hread, (hfound.cycles cycle hcycle).first_reaches hfirst clause.owner
    (List.mem_of_getLast? hlast)⟩

theorem closing_eq_nil (hg : g.Closed) (hacyclic : g.Acyclic) : (ofGraph g).closing = [] := by
  rw [List.eq_nil_iff_forall_not_mem]
  intro clause hclause
  obtain ⟨target, hread, hreach⟩ := reaches_of_mem_closing hg hclause
  have hleads : g.Leads clause.owner target := List.mem_of_getElem? hread
  exact hacyclic clause.owner (Relation.TransGen.head' hleads hreach)

end CycleSearch

namespace FlattenContext

variable {x : FlattenContext}

/-- When a level is composed, the tables that it needs are there. -/
theorem isSome_lookup_before (hx : x.WellFormed) {before after : List (List SymbolId)}
    {level : List SymbolId} (hlevels : x.uses.levels = before ++ level :: after)
    {id used : SymbolId}
    (hid : id ∈ level) (hleads : x.uses.Leads id used) :
    ((before.foldl x.flattenLevel ([], [])).1.lookup used).isSome := by
  have hlayered := UseGraph.layered_levels hx.nodup
  rw [hlevels] at hlayered
  obtain ⟨hbefore, hused⟩ := hlayered.split
  have hsymbols : ∀ id ∈ before.flatten, (x.symbols.get? id).isSome := by
    intro id hmem
    have hall : id ∈ x.uses.levels.flatten := by
      rw [hlevels, List.flatten_append]
      exact List.mem_append_left _ hmem
    obtain ⟨s, hs, _⟩ :=
      (hx.traits id).1 ((UseGraph.mem_flatten_levels hx.nodup hx.closed hx.ends).1 hall)
    exact Option.isSome_iff_exists.2 ⟨s, hs⟩
  have hstart : Recursive x (([], []) : TraitTables × List Diagnostic).1 :=
    fun id table hlookup => by cases hlookup
  obtain ⟨_, hkeys⟩ := hstart.flattenLevels before (by simp) hbefore hsymbols
  exact (hkeys used).2 (List.mem_append.1 (hused id hid used hleads))

end FlattenContext

namespace Flattening

/-- How the composition of a program is ordered. -/
structure Ordered (symbols : SymbolTable) (modules : ModuleGraph) (sources : SourceMap) : Prop where
  acyclic : symbols.keptGraph.Acyclic
  closing : ∀ clause ∈ (CycleSearch.ofGraph symbols.useGraph).closing, ∃ target,
    (symbols.useGraph.uses clause.owner)[clause.index]? = some (some target) ∧
      symbols.useGraph.Reaches target clause.owner
  kept : symbols.useGraph.Acyclic → (CycleSearch.ofGraph symbols.useGraph).closing = []
  once : symbols.keptGraph.levels.flatten.Perm (symbols.ofKind .trait)
  leveled : symbols.keptGraph.Leveled symbols.keptGraph.levels
  counted : ∀ deps, symbols.keptGraph.Enumerates deps →
    symbols.keptGraph.levelsBy deps = symbols.keptGraph.levels
  /-- A trait finds the tables of the traits it uses among those of the levels before. -/
  traits : ∀ before level after, symbols.keptGraph.levels = before ++ level :: after →
    ∀ id ∈ level, ∀ used, symbols.keptGraph.Leads id used →
      ((before.foldl (context symbols modules sources).flattenLevel ([], [])).1.lookup used).isSome
  /-- A class finds them among those of all traits. -/
  classes : ∀ id used, symbols.keptGraph.Leads id used →
    ((ofProgram symbols modules sources).traits.lookup used).isSome

/-- Every program is composed in an order in which nothing is missing. -/
theorem ordered_ofProgram (symbols : SymbolTable) (modules : ModuleGraph) (sources : SourceMap) :
    Ordered symbols modules sources := by
  have hx := wellFormed_context symbols modules sources
  have hclosed : symbols.keptGraph.Closed := hx.closed
  have hleveled : symbols.keptGraph.Leveled symbols.keptGraph.levels :=
    UseGraph.leveled_levels hx.nodup hclosed symbols.ends_keptGraph
  exact
    { acyclic := fun id => UseGraph.not_usesItself_of_ends (symbols.ends_keptGraph id)
      closing := fun _ hclause => CycleSearch.reaches_of_mem_closing symbols.closed_useGraph hclause
      kept := CycleSearch.closing_eq_nil symbols.closed_useGraph
      once := hleveled.perm hx.nodup
      leveled := hleveled
      counted := fun _ hdeps => UseGraph.levelsBy_eq_levels hx.nodup hdeps
      traits := fun _ _ _ hlevels _ hid _ hleads =>
        FlattenContext.isSome_lookup_before hx hlevels hid hleads
      classes := fun id used hleads =>
        ((FlattenContext.recursive_flattenTraits hx).2 used).2 (hclosed id used hleads) }

end Flattening
end ModuleVisibility
