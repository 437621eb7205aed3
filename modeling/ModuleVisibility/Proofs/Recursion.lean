import Mathlib.Data.List.Induction
import ModuleVisibility.Proofs.Origin

/-!
Flattening is a plain recursion over the clauses that close no cycle: a trait's own last declaration
of a key comes first, otherwise the last clause whose trait has the key decides. Keeping the older
of two equal entries makes no difference to this, since such entries agree in all but the way they
came.
-/
namespace ModuleVisibility

/-- When what is found is passed on in order, the last found is passed on last. -/
theorem filterMap_map_of_getLast? {α β γ : Type} {f : α → Option β} (g : α → β → γ) {l : List α}
    {b : β} (h : (l.filterMap f).getLast? = some b) :
    ∃ a front, (l.filterMap fun a => (f a).map (g a)) = front ++ [g a b] := by
  induction l using List.reverseRecOn with
  | nil => cases h
  | append_singleton l a ih =>
    cases hfa : f a with
    | none =>
      have hlast : (l.filterMap f).getLast? = some b := by
        simpa [List.filterMap_append, hfa] using h
      obtain ⟨a', front, hfront⟩ := ih hlast
      exact ⟨a', front, by simp [List.filterMap_append, hfa, hfront]⟩
    | some b' =>
      have hb : b' = b := by simpa [List.filterMap_append, hfa] using h
      exact ⟨a, l.filterMap fun a => (f a).map (g a), by simp [List.filterMap_append, hfa, hb]⟩

namespace Flattening

variable {symbols : SymbolTable} {modules : ModuleGraph} {sources : SourceMap}
  {id : SymbolId} {owner : Symbol} {key : MemberKey}

/-- The entries of a key in the tables of the traits that the clauses of `owner` bring in, clause
by clause. -/
def offers (symbols : SymbolTable) (f : Flattening) (id : SymbolId) (owner : Symbol)
    (key : MemberKey) : List FlatMember :=
  (symbols.keptUses id owner).filterMap (f.traitMember? · key)

/-- The entry of a key in the table of the trait `id`, by recursion. -/
structure TraitRow (symbols : SymbolTable) (f : Flattening) (id : SymbolId) (owner : Symbol)
    (key : MemberKey) : Prop where
  present : (f.traitMember? id key).isSome ↔
    owner.Declares key ∨ ∃ used ∈ symbols.keptUses id owner, (f.traitMember? used key).isSome
  own : ∀ m index, owner.lastMember? key = some (m, index) →
    ∃ e, f.traitMember? id key = some e ∧ e.source = id ∧ e.index = index ∧
      e.visibility = m.visibility ∧
      e.origin = if owner.isModuleLevelTrait then .pinned owner.home else .composer
  composed : ¬ owner.Declares key → ∀ last, (offers symbols f id owner key).getLast? = some last →
    ∃ e, f.traitMember? id key = some e ∧ e.source = last.source ∧ e.index = last.index ∧
      e.visibility = last.visibility ∧
      e.origin = match last.origin with
        | .pinned home => .pinned home
        | .composer => if owner.isModuleLevelTrait then .pinned owner.home else .composer

/-- What the class `id` inherits under a key, by recursion. -/
structure ClassRow (symbols : SymbolTable) (f : Flattening) (id : SymbolId) (owner : Symbol)
    (key : MemberKey) : Prop where
  present : (f.inheritedMember? id key).isSome ↔
    ¬ owner.Declares key ∧ ∃ used ∈ symbols.keptUses id owner, (f.traitMember? used key).isSome
  composed : ¬ owner.Declares key → ∀ last, (offers symbols f id owner key).getLast? = some last →
    ∃ r, f.inheritedMember? id key = some r ∧ r.source = last.source ∧ r.index = last.index ∧
      r.visibility = last.visibility ∧
      r.home = match last.origin with
        | .pinned home => home
        | .composer => owner.home

/-- Members that are provided for one key are what their traits declare. -/
theorem coherent_provided (symbols : SymbolTable) (modules : ModuleGraph) (sources : SourceMap)
    (through : Origin → Origin) (key : MemberKey) (targets : List SymbolId) :
    Composition.Coherent (targets.filterMap
      (provided? symbols (ofProgram symbols modules sources) through key)) := by
  have hdeclared : ∀ m ∈ targets.filterMap
      (provided? symbols (ofProgram symbols modules sources) through key),
      symbols.DeclaresAt m.source m.index key m.visibility := by
    intro m hm
    obtain ⟨target, _, hprovided⟩ := List.mem_filterMap.1 hm
    obtain ⟨entry, hentry, rfl⟩ := provided?_eq_some hprovided
    obtain ⟨rest, hrest⟩ := exists_delivers hentry
    exact hrest.declared
  intro a ha b hb hsource hindex
  have hdeclaredA := hdeclared a ha
  rw [hsource, hindex] at hdeclaredA
  exact hdeclaredA.visibility_eq (hdeclared b hb)

/-- The winner among the members that some traits provide agrees with the last of their entries, up
to the origin that the owner gives it. -/
theorem winnerOf_provided (through : Origin → Origin) {targets : List SymbolId} {last : FlatMember}
    (hlast : (targets.filterMap
      ((ofProgram symbols modules sources).traitMember? · key)).getLast? = some last) :
    ∃ m, Composition.winnerOf (targets.filterMap
        (provided? symbols (ofProgram symbols modules sources) through key)) = some m ∧
      m.source = last.source ∧ m.index = last.index ∧ m.visibility = last.visibility ∧
      m.origin = through last.origin := by
  have hcoherent := coherent_provided symbols modules sources through key targets
  obtain ⟨target, front, hfront⟩ := filterMap_map_of_getLast?
    (fun target => Composition.bring through target
      (degrades symbols (ofProgram symbols modules sources) target)) hlast
  have hprovided : targets.filterMap
      (provided? symbols (ofProgram symbols modules sources) through key) = _ := hfront
  rw [hprovided] at hcoherent ⊢
  obtain ⟨m, hwinner, hsame⟩ := Composition.winnerOf_append hcoherent
  exact ⟨m, hwinner, hsame.source, hsame.index, hsame.visibility, hsame.origin⟩

theorem isSome_winnerOf_provided (through : Origin → Origin) (targets : List SymbolId) :
    (Composition.winnerOf (targets.filterMap
      (provided? symbols (ofProgram symbols modules sources) through key))).isSome ↔
      ∃ used ∈ targets, ((ofProgram symbols modules sources).traitMember? used key).isSome := by
  rw [Option.isSome_iff_ne_none, Ne, Composition.winnerOf_eq_none_iff, List.filterMap_eq_nil_iff]
  simp only [provided?, Option.map_eq_none_iff, not_forall, Option.isSome_iff_ne_none, ne_eq,
    exists_prop]

theorem traitRow (howner : symbols.get? id = some owner) (htrait : owner.kind = .trait)
    (key : MemberKey) : TraitRow symbols (ofProgram symbols modules sources) id owner key where
  present := by
    rw [traitMember?_of_trait howner htrait]
    cases hown : owner.lastMember? key with
    | none =>
      have hnot := Symbol.lastMember?_eq_none_iff.1 hown
      simp [hnot, isSome_winnerOf_provided]
    | some last =>
      have hdeclares : owner.Declares key := by
        by_contra hnot
        rw [Symbol.lastMember?_eq_none_iff.2 hnot] at hown
        cases hown
      simp [hdeclares]
  own m index hown := by
    refine ⟨_, by rw [traitMember?_of_trait howner htrait, hown], rfl, rfl, rfl, rfl⟩
  composed hnot last hlast := by
    obtain ⟨m, hwinner, hsource, hindex, hvisibility, horigin⟩ :=
      winnerOf_provided (Origin.throughTrait owner) hlast
    have hentry : (ofProgram symbols modules sources).traitMember? id key = some m := by
      rw [traitMember?_of_trait howner htrait, Symbol.lastMember?_eq_none_iff.2 hnot]
      exact hwinner
    exact ⟨m, hentry, hsource, hindex, hvisibility, horigin⟩

theorem classRow (howner : symbols.get? id = some owner) (hclass : owner.kind = .class)
    (key : MemberKey) : ClassRow symbols (ofProgram symbols modules sources) id owner key where
  present := by
    rw [inheritedMember?_of_class howner hclass]
    by_cases hdeclares : owner.Declares key
    · simp [hdeclares]
    · simp [hdeclares, isSome_winnerOf_provided]
  composed hnot last hlast := by
    obtain ⟨m, hwinner, hsource, hindex, hvisibility, horigin⟩ :=
      winnerOf_provided (Origin.throughClass owner) hlast
    have hentry : (ofProgram symbols modules sources).inheritedMember? id key =
        some (.ofFlat owner.home m) := by
      rw [inheritedMember?_of_class howner hclass, if_neg hnot, hwinner, Option.map_some]
    refine ⟨_, hentry, hsource, hindex, hvisibility, ?_⟩
    calc m.origin.resolve owner.home
        = (Origin.throughClass owner last.origin).resolve owner.home := by rw [horigin]
      _ = last.origin.resolve owner.home := rfl

/-- Every trait and class has a table, and each of its entries is what the recursion over the
clauses gives. -/
theorem tables_by_recursion (howner : symbols.get? id = some owner) :
    (owner.kind = .trait → ((ofProgram symbols modules sources).traitMembers? id).isSome ∧
      ∀ key, TraitRow symbols (ofProgram symbols modules sources) id owner key) ∧
    (owner.kind = .class → ((ofProgram symbols modules sources).inherited? id).isSome ∧
      ∀ key, ClassRow symbols (ofProgram symbols modules sources) id owner key) := by
  refine ⟨fun htrait => ⟨?_, traitRow howner htrait⟩, fun hclass => ⟨?_, classRow howner hclass⟩⟩
  · rw [traitMembers?_ofProgram howner htrait]
    rfl
  · rw [inherited?_ofProgram, if_pos (SymbolTable.mem_ofKind.2 ⟨owner, howner, hclass⟩), howner]
    rfl

/-- The two halves for the module-level trait of a cut cycle and for the class that uses it. -/
theorem tables_by_recursion_pinnedCycle :
    (∃ owner, pinnedCycle.get? ⟨1⟩ = some owner ∧ owner.kind = .trait ∧
      ((ofProgram pinnedCycle .empty .empty).traitMembers? ⟨1⟩).isSome ∧
      ∀ key, TraitRow pinnedCycle (ofProgram pinnedCycle .empty .empty) ⟨1⟩ owner key) ∧
    ∃ owner, pinnedCycle.get? ⟨0⟩ = some owner ∧ owner.kind = .class ∧
      ((ofProgram pinnedCycle .empty .empty).inherited? ⟨0⟩).isSome ∧
      ∀ key, ClassRow pinnedCycle (ofProgram pinnedCycle .empty .empty) ⟨0⟩ owner key := by
  have htrait : pinnedCycle.get? ⟨1⟩ = some pinnedCycle.symbols[1] := rfl
  have hclass : pinnedCycle.get? ⟨0⟩ = some pinnedCycle.symbols[0] := rfl
  exact ⟨⟨_, htrait, rfl, (tables_by_recursion htrait).1 rfl⟩,
    ⟨_, hclass, rfl, (tables_by_recursion hclass).2 rfl⟩⟩

end Flattening
end ModuleVisibility
