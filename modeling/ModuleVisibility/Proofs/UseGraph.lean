import ModuleVisibility.Composition.UseGraph
import ModuleVisibility.Proofs.SymbolTable

/-!
The use graph as a relation between owners and the traits that their clauses bring in. A graph
without cycles is one in which every walk ends.
-/
namespace ModuleVisibility
namespace UseGraph

variable {g : UseGraph} {clauses : List ClauseRef} {a b : SymbolId}

/-- A clause of `a` brings in `b`. -/
def Leads (g : UseGraph) (a b : SymbolId) : Prop := some b ∈ g.uses a

/-- Whatever a clause brings in is one of the traits. -/
def Closed (g : UseGraph) : Prop := ∀ a b, g.Leads a b → b ∈ g.traits

/-- Every walk from `a` ends. -/
def Ends (g : UseGraph) (a : SymbolId) : Prop := Acc (fun b a => g.Leads a b) a

theorem mem_targets : b ∈ g.targets a ↔ g.Leads a b := by
  simp [targets, Leads]

theorem uses_drop (g : UseGraph) (clauses : List ClauseRef) (owner : SymbolId) :
    (g.drop clauses).uses owner =
      (g.uses owner).mapIdx fun i target => if ⟨owner, i⟩ ∈ clauses then none else target := by
  have hlookup := lookup_map_value
    (fun owner (uses : List (Option SymbolId)) =>
      uses.mapIdx fun i target => if ⟨owner, i⟩ ∈ clauses then none else target) g.table owner
  unfold uses drop
  rw [hlookup]
  cases g.table.lookup owner <;> simp

/-- The clauses that remain are those not dropped. -/
theorem leads_drop :
    (g.drop clauses).Leads a b ↔
      ∃ i, (g.uses a)[i]? = some (some b) ∧ (⟨a, i⟩ : ClauseRef) ∉ clauses := by
  unfold Leads
  rw [uses_drop, List.mem_iff_getElem?]
  simp only [List.getElem?_mapIdx, Option.map_eq_some_iff]
  constructor
  · rintro ⟨i, target, hi, htarget⟩
    split at htarget
    · cases htarget
    · next hkept => exact ⟨i, htarget ▸ hi, hkept⟩
  · rintro ⟨i, hi, hkept⟩
    exact ⟨i, some b, hi, if_neg hkept⟩

theorem Leads.of_drop (h : (g.drop clauses).Leads a b) : g.Leads a b := by
  obtain ⟨i, hi, _⟩ := leads_drop.1 h
  exact List.mem_of_getElem? hi

theorem Closed.drop (h : g.Closed) (clauses : List ClauseRef) : (g.drop clauses).Closed :=
  fun a b hab => h a b hab.of_drop

/-- Dropping more clauses makes no walk longer. -/
theorem Ends.of_subset {more : List ClauseRef} (h : (g.drop clauses).Ends a)
    (hsub : ∀ c ∈ clauses, c ∈ more) : (g.drop more).Ends a := by
  induction h with
  | intro a _ ih =>
    refine Acc.intro a fun b hab => ih b ?_
    obtain ⟨i, hi, hkept⟩ := leads_drop.1 hab
    exact leads_drop.2 ⟨i, hi, fun hmem => hkept (hsub _ hmem)⟩

end UseGraph

namespace SymbolTable

variable {t : SymbolTable} {id : SymbolId}

theorem useTarget?_eq_some_iff {clause : UseClause} {target : SymbolId} :
    t.useTarget? clause = some target ↔
      ∃ s, t.find? clause.name = some target ∧ t.get? target = some s ∧ s.kind = .trait := by
  unfold useTarget?
  simp only [Option.map_eq_some_iff, Prod.exists]
  constructor
  · rintro ⟨_, s, h, rfl⟩
    exact ⟨s, lookupKind?_eq_some_iff.1 h⟩
  · rintro ⟨s, h⟩
    exact ⟨target, s, lookupKind?_eq_some_iff.2 h, rfl⟩

theorem uses_useGraph {owner : Symbol} (h : t.get? id = some owner) :
    t.useGraph.uses id = owner.uses.map t.useTarget? := by
  have hlookup := lookup_map_value
    (fun (_ : SymbolId) (s : Symbol) => s.uses.map t.useTarget?) t.entries id
  unfold UseGraph.uses useGraph
  rw [hlookup, lookup_entries, h]
  rfl

theorem uses_useGraph_of_none (h : t.get? id = none) : t.useGraph.uses id = [] := by
  have hlookup := lookup_map_value
    (fun (_ : SymbolId) (s : Symbol) => s.uses.map t.useTarget?) t.entries id
  unfold UseGraph.uses useGraph
  rw [hlookup, lookup_entries, h]
  rfl

theorem closed_useGraph (t : SymbolTable) : t.useGraph.Closed := by
  intro a b hab
  cases hget : t.get? a with
  | none =>
    unfold UseGraph.Leads at hab
    rw [uses_useGraph_of_none hget] at hab
    cases hab
  | some owner =>
    unfold UseGraph.Leads at hab
    rw [uses_useGraph hget] at hab
    obtain ⟨clause, _, hclause⟩ := List.mem_map.1 hab
    obtain ⟨s, _, hs⟩ := useTarget?_eq_some_iff.1 hclause
    exact mem_ofKind.2 ⟨s, hs⟩

end SymbolTable
end ModuleVisibility
