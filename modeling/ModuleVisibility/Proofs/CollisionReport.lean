import ModuleVisibility.Proofs.Analysis
import ModuleVisibility.Proofs.Collision
import ModuleVisibility.Proofs.Layering
import ModuleVisibility.Proofs.Recursion

/-!
The collisions that a program reports. For every class and trait they are the members which one of
its clauses brings in over a different member of the last clause before that has the key, unless the
owner declares the key itself. A clause that closes a cycle counts neither as the one nor as the
other.
-/
namespace ModuleVisibility

/-- The origin that `owner` gives to a member it composes. -/
def Origin.through (owner : Symbol) : Origin → Origin :=
  if owner.kind = .class then throughClass owner else throughTrait owner

theorem Origin.through_of_class {owner : Symbol} (h : owner.kind = .class) :
    Origin.through owner = throughClass owner := if_pos h

theorem Origin.through_of_trait {owner : Symbol} (h : owner.kind = .trait) :
    Origin.through owner = throughTrait owner := if_neg (by simp [h])

/-- The report of a collision in `owner`, at the clause that brings in the new member. -/
def Collision.report (c : Collision) (symbols : SymbolTable) (modules : ModuleGraph)
    (sources : SourceMap) (owner : Symbol) : Diagnostic :=
  (c.finding symbols modules owner).report (sources.locate owner.unit c.clause.span)

/-- The traits that the clauses of an owner before number `index` bring in, without those that close
a cycle. -/
def SymbolTable.keptBefore (t : SymbolTable) (owner : SymbolId) (index : Nat) : List SymbolId :=
  ((t.keptGraph.uses owner).take index).filterMap id

theorem Composition.isSameMember_eq_false_iff {a b : FlatMember} :
    isSameMember a b = false ↔ a.source ≠ b.source ∨ a.index ≠ b.index ∨ a.origin ≠ b.origin := by
  simp [isSameMember, imp_iff_not_or, or_assoc]

namespace Flattening

variable {symbols : SymbolTable} {modules : ModuleGraph} {sources : SourceMap} {id : SymbolId}
  {owner : Symbol}

/-- Clause `index` of the owner `id` brings in a member over another one, as `c` says. -/
structure CollidesAt (symbols : SymbolTable) (f : Flattening) (id : SymbolId) (owner : Symbol)
    (index : Nat) (c : Collision) : Prop where
  clause : owner.uses[index]? = some c.clause
  undeclared : ¬ owner.Declares c.key
  incoming : (symbols.keptGraph.uses id)[index]?.join.bind
    (provided? symbols f (Origin.through owner) c.key) = some c.incoming
  /-- The entry that the clauses before have left. -/
  existing : Composition.winnerOf ((symbols.keptBefore id index).filterMap
    (provided? symbols f (Origin.through owner) c.key)) = some c.existing
  differ : Composition.isSameMember c.existing c.incoming = false

/-- The trait of clause `index` and that of some clause before have the key, which the owner does
not declare; for the owner, the former's member is not that of the last such clause. -/
def Replaces (symbols : SymbolTable) (f : Flattening) (id : SymbolId) (owner : Symbol) (index : Nat)
    (key : MemberKey) : Prop :=
  ¬ owner.Declares key ∧ ∃ target later earlier,
    (symbols.keptGraph.uses id)[index]? = some (some target) ∧
    f.traitMember? target key = some later ∧
    ((symbols.keptBefore id index).filterMap (f.traitMember? · key)).getLast? = some earlier ∧
    (later.source ≠ earlier.source ∨ later.index ≠ earlier.index ∨
      Origin.through owner later.origin ≠ Origin.through owner earlier.origin)

/-- What the clauses of the owner `id` replace, each with the index of its clause, by clause and
key. -/
structure ListsReplaced (symbols : SymbolTable) (f : Flattening) (id : SymbolId) (owner : Symbol)
    (replaced : List (Nat × Collision)) : Prop where
  ordered : replaced.Pairwise fun a b => a.1 < b.1 ∨ a.1 = b.1 ∧ a.2.key.lt b.2.key = true
  collides : ∀ index c, (index, c) ∈ replaced ↔ CollidesAt symbols f id owner index c
  keys : ∀ index key, (∃ c, (index, c) ∈ replaced ∧ c.key = key) ↔
    Replaces symbols f id owner index key

/-- What the clauses of a symbol replace. -/
def replaced (symbols : SymbolTable) (modules : ModuleGraph) (sources : SourceMap) (id : SymbolId) :
    List (Nat × Collision) :=
  ((symbols.get? id).map fun owner =>
    (context symbols modules sources).collisionsBefore id owner (Origin.through owner)
      (ofProgram symbols modules sources).traits owner.uses.length).getD []

/-- The reports of what the clauses of a symbol replace. -/
def reportsOf (symbols : SymbolTable) (modules : ModuleGraph) (sources : SourceMap)
    (replaced : List (Nat × Collision)) (id : SymbolId) : List Diagnostic :=
  ((symbols.get? id).map fun owner =>
    replaced.map fun (_, c) => c.report symbols modules sources owner).getD []

theorem mem_replaced (howner : symbols.get? id = some owner) {index : Nat} {c : Collision} :
    (index, c) ∈ replaced symbols modules sources id ↔
      CollidesAt symbols (ofProgram symbols modules sources) id owner index c := by
  have hlength := (wellFormed_context symbols modules sources).length id owner howner
  unfold replaced
  rw [howner, Option.map_some, Option.getD_some,
    FlattenContext.mem_collisionsBefore sorted_traits hlength,
    FlattenContext.mem_collisionsAt sorted_traits hlength]
  constructor
  · rintro ⟨hclause, hundeclared, hincoming, hexisting, hdiffer⟩
    exact ⟨hclause, hundeclared, hincoming, hexisting, hdiffer⟩
  · rintro ⟨hclause, hundeclared, hincoming, hexisting, hdiffer⟩
    exact ⟨hclause, hundeclared, hincoming, hexisting, hdiffer⟩

/-- The entry that the clauses before have left agrees with the member of the last of them that has
the key. -/
theorem CollidesAt.replaces {index : Nat} {c : Collision}
    (h : CollidesAt symbols (ofProgram symbols modules sources) id owner index c) :
    Replaces symbols (ofProgram symbols modules sources) id owner index c.key := by
  obtain ⟨target, htarget, hprovided⟩ := Option.bind_eq_some_iff.1 h.incoming
  obtain ⟨later, hlater, hincoming⟩ := provided?_eq_some hprovided
  -- The entry may be an older one than that of the last clause, but it is the same member then.
  cases hlast : ((symbols.keptBefore id index).filterMap
      ((ofProgram symbols modules sources).traitMember? · c.key)).getLast? with
  | none =>
    obtain ⟨used, hused, hentry⟩ :=
      (isSome_winnerOf_provided _ _).1 (Option.isSome_iff_exists.2 ⟨_, h.existing⟩)
    have hnone := List.filterMap_eq_nil_iff.1 (List.getLast?_eq_none_iff.1 hlast) used hused
    simp [hnone] at hentry
  | some earlier =>
    obtain ⟨m, hwinner, hsource, hindex, _, horigin⟩ :=
      winnerOf_provided (Origin.through owner) hlast
    cases h.existing.symm.trans hwinner
    refine ⟨h.undeclared, target, later, earlier, Option.join_eq_some_iff.1 htarget, hlater, hlast,
      ?_⟩
    have hdiffer := Composition.isSameMember_eq_false_iff.1 h.differ
    rw [hsource, hindex, horigin, hincoming] at hdiffer
    exact hdiffer.imp Ne.symm (Or.imp Ne.symm Ne.symm)

theorem Replaces.exists_collidesAt (howner : symbols.get? id = some owner) {index : Nat}
    {key : MemberKey}
    (h : Replaces symbols (ofProgram symbols modules sources) id owner index key) :
    ∃ c, CollidesAt symbols (ofProgram symbols modules sources) id owner index c ∧ c.key = key := by
  obtain ⟨hundeclared, target, later, earlier, htarget, hlater, hlast, hdiffer⟩ := h
  obtain ⟨m, hwinner, hsource, hindex, _, horigin⟩ :=
    winnerOf_provided (Origin.through owner) hlast
  have hlt : index < owner.uses.length := by
    rw [← (wellFormed_context symbols modules sources).length id owner howner]
    exact (List.getElem?_eq_some_iff.1 htarget).1
  refine ⟨⟨owner.uses[index], key, m, Composition.bring (Origin.through owner) target
    (degrades symbols (ofProgram symbols modules sources) target) later⟩,
    ⟨List.getElem?_eq_getElem hlt, hundeclared, ?_, hwinner, ?_⟩, rfl⟩
  · rw [htarget, Option.join_some, Option.bind_some, provided?, hlater, Option.map_some]
  · rw [Composition.isSameMember_eq_false_iff, hsource, hindex, horigin]
    exact hdiffer.imp Ne.symm (Or.imp Ne.symm Ne.symm)

theorem listsReplaced (howner : symbols.get? id = some owner) :
    ListsReplaced symbols (ofProgram symbols modules sources) id owner
      (replaced symbols modules sources id) where
  ordered := by
    unfold replaced
    rw [howner, Option.map_some, Option.getD_some]
    exact FlattenContext.ordered_collisionsBefore sorted_traits _
  collides _ _ := mem_replaced howner
  keys index key := by
    simp only [mem_replaced howner]
    constructor
    · rintro ⟨c, hc, rfl⟩
      exact hc.replaces
    · exact Replaces.exists_collidesAt howner

/-! The reports, owner by owner. -/

theorem collisionDiagnostics_composeUses (howner : symbols.get? id = some owner) :
    (context symbols modules sources).collisionDiagnostics owner
        ((context symbols modules sources).composeUses id owner (Origin.through owner)
          (ofProgram symbols modules sources).traits).collisions =
      reportsOf symbols modules sources (replaced symbols modules sources id) id := by
  unfold reportsOf replaced
  simp only [howner, Option.map_some, Option.getD_some]
  rw [FlattenContext.collisions_composeUses sorted_traits, FlattenContext.collisionDiagnostics,
    List.map_map]
  rfl

/-- The reports of what the clauses of some symbols replace. -/
def collisionReports (symbols : SymbolTable) (modules : ModuleGraph) (sources : SourceMap)
    (ids : List SymbolId) : List Diagnostic :=
  ids.flatMap fun id => reportsOf symbols modules sources (replaced symbols modules sources id) id

theorem kind_of_mem_collisionReports {ids : List SymbolId} {d : Diagnostic}
    (h : d ∈ collisionReports symbols modules sources ids) : d.kind = .traitMethodCollision := by
  obtain ⟨id, _, hd⟩ := List.mem_flatMap.1 h
  unfold reportsOf at hd
  cases howner : symbols.get? id with
  | none => simp [howner] at hd
  | some owner =>
    rw [howner, Option.map_some, Option.getD_some] at hd
    obtain ⟨_, _, rfl⟩ := List.mem_map.1 hd
    rfl

/-- Where every symbol is composed with the origins that it gives, its reports are of what its
clauses replace. -/
theorem reports_eq_collisionReports {α : Type}
    {flatten : SymbolId → Symbol → α × List Diagnostic} {ids : List SymbolId}
    (hflatten : ∀ id ∈ ids, ∀ owner, symbols.get? id = some owner → (flatten id owner).2 =
      (context symbols modules sources).collisionDiagnostics owner
        ((context symbols modules sources).composeUses id owner (Origin.through owner)
          (ofProgram symbols modules sources).traits).collisions) :
    (context symbols modules sources).reports flatten ids =
      collisionReports symbols modules sources ids := by
  refine List.flatMap_congr fun id hid => ?_
  have hsymbols : (context symbols modules sources).symbols.get? id = symbols.get? id := rfl
  cases howner : symbols.get? id with
  | none => rw [hsymbols, reportsOf, howner, Option.map_none, Option.map_none]
  | some owner =>
    rw [hsymbols, howner, Option.map_some, Option.getD_some, hflatten id hid owner howner,
      collisionDiagnostics_composeUses howner]

theorem reports_traits (symbols : SymbolTable) (modules : ModuleGraph) (sources : SourceMap) :
    (context symbols modules sources).flattenTraits.2 =
      collisionReports symbols modules sources symbols.keptGraph.levels.flatten := by
  have hx := wellFormed_context symbols modules sources
  rw [FlattenContext.reports_flattenTraits hx]
  refine reports_eq_collisionReports fun id hid owner howner => ?_
  obtain ⟨owner', howner', hkind⟩ :=
    (hx.traits id).1 ((UseGraph.mem_flatten_levels hx.nodup hx.closed hx.ends).1 hid)
  cases howner.symm.trans howner'
  rw [Origin.through_of_trait hkind]
  rfl

theorem reports_classes (symbols : SymbolTable) (modules : ModuleGraph) (sources : SourceMap) :
    (((context symbols modules sources).flattenAll
      ((context symbols modules sources).flattenClass (ofProgram symbols modules sources).traits)
      (symbols.ofKind .class)).flatMap fun r => r.2.2) =
      collisionReports symbols modules sources (symbols.ofKind .class) := by
  rw [FlattenContext.flatMap_flattenAll]
  refine reports_eq_collisionReports fun id hid owner howner => ?_
  obtain ⟨owner', howner', hkind⟩ := SymbolTable.mem_ofKind.1 hid
  cases howner.symm.trans howner'
  rw [Origin.through_of_class hkind]
  rfl

/-- The owners of clauses, in the order in which their tables are composed. -/
def owners (symbols : SymbolTable) : List SymbolId :=
  symbols.keptGraph.levels.flatten ++ symbols.ofKind .class

theorem perm_owners (symbols : SymbolTable) :
    (owners symbols).Perm (symbols.ofKind .trait ++ symbols.ofKind .class) :=
  (ordered_ofProgram symbols .empty .empty).once.append_right _

/-- Flattening reports what clauses replace, owner by owner. -/
theorem filter_diagnostics (symbols : SymbolTable) (modules : ModuleGraph) (sources : SourceMap) :
    (ofProgram symbols modules sources).diagnostics.filter (·.kind = .traitMethodCollision) =
      collisionReports symbols modules sources (owners symbols) := by
  have huses : (symbols.useDiagnostics sources).filter (·.kind = .traitMethodCollision) = [] :=
    Diagnostic.filter_kind_eq_nil fun d hd => by
      rcases SymbolTable.kind_of_mem_useDiagnostics hd with hkind | hkind <;> simp [hkind]
  have hcycles : (CycleReport.diagnostics symbols sources
      (CycleSearch.ofGraph symbols.useGraph).cycles).filter (·.kind = .traitMethodCollision) = [] :=
    Diagnostic.filter_kind_eq_nil fun d hd => by simp [CycleReport.kind_of_mem_diagnostics hd]
  have hreports : ∀ ids, (collisionReports symbols modules sources ids).filter
      (·.kind = .traitMethodCollision) = collisionReports symbols modules sources ids :=
    fun _ => Diagnostic.filter_kind_eq_self fun _ => kind_of_mem_collisionReports
  have hdiagnostics : (ofProgram symbols modules sources).diagnostics =
      symbols.useDiagnostics sources
        ++ CycleReport.diagnostics symbols sources (CycleSearch.ofGraph symbols.useGraph).cycles
        ++ collisionReports symbols modules sources symbols.keptGraph.levels.flatten
        ++ collisionReports symbols modules sources (symbols.ofKind .class) := by
    rw [← reports_traits, ← reports_classes]
    rfl
  rw [hdiagnostics, List.filter_append, List.filter_append, List.filter_append, huses, hcycles,
    hreports, hreports, List.nil_append, List.nil_append, owners, collisionReports,
    collisionReports, collisionReports, List.flatMap_append]

end Flattening

namespace Analysis

/-- Only flattening finds collisions. -/
theorem filter_found_collisions (units : List ParsedUnit) :
    (found units).filter (·.kind = .traitMethodCollision) =
      Flattening.collisionReports (collected units).symbols (collected units).modules (texts units)
        (Flattening.owners (collected units).symbols) := by
  rw [filter_found_of_flattening units (by simp)]
  exact Flattening.filter_diagnostics ..

/-- For every class and trait an analysis reports exactly what its clauses replace, each clause and
key once and at the clause; the policy has its say, and the reports are sorted with the others. -/
theorem collisions_reported_exactly (policy : Policy) (units : List ParsedUnit) :
    ∃ (owners : List SymbolId) (replaced : SymbolId → List (Nat × Collision)),
      owners.Perm
        ((collected units).symbols.ofKind .trait ++ (collected units).symbols.ofKind .class) ∧
      (∀ id owner, (collected units).symbols.get? id = some owner →
        Flattening.ListsReplaced (collected units).symbols (ofUnits policy units).flattening id
          owner (replaced id)) ∧
      (ofUnits policy units).diagnostics.filter (·.kind = .traitMethodCollision) =
        Diagnostic.sort (policy.apply (owners.flatMap fun id =>
          Flattening.reportsOf (collected units).symbols (ofUnits policy units).modules
            (ofUnits policy units).sources (replaced id) id)) := by
  refine ⟨Flattening.owners (collected units).symbols,
    Flattening.replaced (collected units).symbols (collected units).modules (texts units),
    Flattening.perm_owners _, fun _ _ howner => Flattening.listsReplaced howner, ?_⟩
  rw [filter_kind_diagnostics, filter_found_collisions]
  rfl

/-- Two traits with one method, used in turns: a clause that repeats the one before replaces
nothing, and one that comes back to the first trait does. -/
def usedInTurns : List SourceFile :=
  [⟨"a.php", "<?hh\ntrait A \x7b function m(): void \x7b\x7d \x7d\n"
    ++ "trait B \x7b function m(): void \x7b\x7d \x7d\nclass C \x7b use A, A, B, B, A; \x7d\n"⟩]

example : (Flattening.replaced (collected (parseProgram usedInTurns)).symbols
    (collected (parseProgram usedInTurns)).modules (texts (parseProgram usedInTurns)) ⟨2⟩).map
      Prod.fst = [2, 4] := by
  decide +kernel

end Analysis
end ModuleVisibility
