import Mathlib.Data.List.Basic
import ModuleVisibility.Proofs.Compose
import ModuleVisibility.Proofs.CycleSearch
import ModuleVisibility.Proofs.Level

/-!
The tables that flattening makes satisfy the equation of a plain recursion: the table of a trait is
the one composed from the final tables of the traits it uses. When a level is composed, these are
there already and stay as they are. So what is reported on the way is what the final tables give.
-/
namespace ModuleVisibility
namespace FlattenContext

variable {x : FlattenContext} {id : SymbolId} {owner : Symbol} {α : Type}

/-- The use graph of a context lists each trait once, aligns clauses with those of the symbols, and
has no cycles. -/
structure WellFormed (x : FlattenContext) : Prop where
  traits : ∀ id, id ∈ x.uses.traits ↔ ∃ s, x.symbols.get? id = some s ∧ s.kind = .trait
  nodup : x.uses.traits.Nodup
  length : ∀ id s, x.symbols.get? id = some s → (x.uses.uses id).length = s.uses.length
  closed : x.uses.Closed
  ends : ∀ id, x.uses.Ends id

/-- What is composed is decided by the clauses and by the tables and marks of the traits they
name. -/
theorem composeUses_congr {x' : FlattenContext} {done done' : TraitTables}
    (huses : x'.uses.uses id = x.uses.uses id)
    (hmarks : ∀ target, x.uses.Leads id target → x'.isUnresolved target = x.isUnresolved target)
    (h : ∀ target, x.uses.Leads id target → done'.lookup target = done.lookup target)
    (through : Origin → Origin) :
    x'.composeUses id owner through done' = x.composeUses id owner through done := by
  unfold composeUses
  rw [huses]
  refine List.foldl_ext _ _ _ fun c clause hclause => ?_
  obtain ⟨clause, target⟩ := clause
  cases target with
  | none => rfl
  | some target =>
    have hleads : x.uses.Leads id target := (List.of_mem_zip hclause).2
    simp only [composeClause, h target hleads, hmarks target hleads]

theorem flattenTrait_congr {done done' : TraitTables}
    (h : ∀ target, x.uses.Leads id target → done.lookup target = done'.lookup target) :
    x.flattenTrait done id owner = x.flattenTrait done' id owner := by
  unfold flattenTrait
  rw [composeUses_congr rfl (fun _ _ => rfl) h]

theorem lookup_flattenAll {α : Type} (x : FlattenContext) (flatten : SymbolId → Symbol → α)
    (ids : List SymbolId) (id : SymbolId) :
    (x.flattenAll flatten ids).lookup id =
      if id ∈ ids then (x.symbols.get? id).map (flatten id) else none := by
  have hlookup := lookup_filterMap_key (fun id => (x.symbols.get? id).map (flatten id)) ids id
  simp only [Option.map_map] at hlookup
  exact hlookup

theorem lookup_flattenLevel (below : TraitTables × List Diagnostic) (level : List SymbolId) :
    (x.flattenLevel below level).1.lookup id =
      (below.1.lookup id).or
        (if id ∈ level then (x.symbols.get? id).map fun owner => (x.flattenTrait below.1 id owner).1
          else none) := by
  unfold flattenLevel
  rw [List.lookup_append]
  congr 1
  have hvalue := lookup_map_value
    (fun (_ : SymbolId) (r : MemberTable FlatMember × List Diagnostic) => r.1)
    (x.flattenAll (x.flattenTrait below.1) level) id
  refine hvalue.trans ?_
  rw [lookup_flattenAll]
  split
  · rw [Option.map_map]
    rfl
  · rfl

/-- Every table is the one composed from the tables at hand, and those that it needs are there. -/
def Recursive (x : FlattenContext) (tables : TraitTables) : Prop :=
  ∀ id table, tables.lookup id = some table →
    (∀ used, x.uses.Leads id used → (tables.lookup used).isSome) ∧
      ∃ owner, x.symbols.get? id = some owner ∧ table = (x.flattenTrait tables id owner).1

/-- A level on top of the tables it needs leaves them and adds its own. -/
theorem Recursive.flattenLevel {below : TraitTables × List Diagnostic} {level : List SymbolId}
    (h : Recursive x below.1)
    (hlevel : ∀ id ∈ level, ∀ used, x.uses.Leads id used → (below.1.lookup used).isSome) :
    Recursive x (x.flattenLevel below level).1 := by
  have hkept : ∀ used, (below.1.lookup used).isSome →
      (x.flattenLevel below level).1.lookup used = below.1.lookup used := by
    intro used hused
    rw [lookup_flattenLevel, Option.or_of_isSome hused]
  have hready : ∀ id, (∀ used, x.uses.Leads id used → (below.1.lookup used).isSome) →
      (∀ used, x.uses.Leads id used → ((x.flattenLevel below level).1.lookup used).isSome) ∧
        ∀ owner, x.flattenTrait below.1 id owner =
          x.flattenTrait (x.flattenLevel below level).1 id owner := by
    intro id hused
    refine ⟨fun used hleads => ?_, fun owner => flattenTrait_congr fun used hleads => ?_⟩
    · rw [hkept used (hused used hleads)]
      exact hused used hleads
    · exact (hkept used (hused used hleads)).symm
  intro id table hlookup
  rw [lookup_flattenLevel] at hlookup
  rcases Option.or_eq_some_iff.1 hlookup with hold | ⟨_, hnew⟩
  · obtain ⟨hused, owner, howner, rfl⟩ := h id table hold
    obtain ⟨hused', hcongr⟩ := hready id hused
    exact ⟨hused', owner, howner, by rw [hcongr]⟩
  · split at hnew
    · next hmem =>
      obtain ⟨owner, howner, rfl⟩ := Option.map_eq_some_iff.1 hnew
      obtain ⟨hused', hcongr⟩ := hready id (hlevel id hmem)
      exact ⟨hused', owner, howner, by rw [hcongr]⟩
    · cases hnew

theorem isSome_lookup_flattenLevel {below : TraitTables × List Diagnostic} {level : List SymbolId}
    (hlevel : ∀ id ∈ level, (x.symbols.get? id).isSome) :
    ((x.flattenLevel below level).1.lookup id).isSome ↔
      (below.1.lookup id).isSome ∨ id ∈ level := by
  rw [lookup_flattenLevel]
  by_cases hmem : id ∈ level
  · simp [hmem, hlevel id hmem]
  · simp [hmem]

/-- Composing layer by layer keeps the tables recursive and makes one for each trait met. -/
theorem Recursive.flattenLevels (levels : List (List SymbolId)) {placed : List SymbolId}
    {below : TraitTables × List Diagnostic} (h : Recursive x below.1)
    (hplaced : ∀ id, (below.1.lookup id).isSome ↔ id ∈ placed)
    (hlayered : x.uses.Layered placed levels)
    (hsymbols : ∀ id ∈ levels.flatten, (x.symbols.get? id).isSome) :
    Recursive x (levels.foldl x.flattenLevel below).1 ∧
      ∀ id, ((levels.foldl x.flattenLevel below).1.lookup id).isSome ↔
        id ∈ placed ∨ id ∈ levels.flatten := by
  induction levels generalizing placed below with
  | nil => exact ⟨h, fun id => by simp [hplaced]⟩
  | cons level rest ih =>
    obtain ⟨hlevel, hrest⟩ := hlayered
    have hnext : Recursive x (x.flattenLevel below level).1 :=
      h.flattenLevel fun id hid used hleads => (hplaced used).2 ((hlevel id hid).2 used hleads)
    have hplaced' : ∀ id, ((x.flattenLevel below level).1.lookup id).isSome ↔
        id ∈ placed ++ level := by
      intro id
      rw [isSome_lookup_flattenLevel fun id hid => hsymbols id (by simp [hid]), hplaced,
        List.mem_append]
    obtain ⟨hfinal, hkeys⟩ := ih hnext hplaced' hrest fun id hid => hsymbols id (by simp [hid])
    exact ⟨hfinal, fun id => by simp [hkeys id, or_assoc]⟩

/-! Reports of collisions. -/

/-- What is reported when some symbols are flattened. -/
def reports (x : FlattenContext) (flatten : SymbolId → Symbol → α × List Diagnostic)
    (ids : List SymbolId) : List Diagnostic :=
  ids.flatMap fun id => ((x.symbols.get? id).map fun owner => (flatten id owner).2).getD []

theorem flatMap_flattenAll (x : FlattenContext)
    (flatten : SymbolId → Symbol → α × List Diagnostic) (ids : List SymbolId) :
    ((x.flattenAll flatten ids).flatMap fun r => r.2.2) = x.reports flatten ids := by
  unfold reports flattenAll
  induction ids with
  | nil => rfl
  | cons id rest ih =>
    cases hget : x.symbols.get? id with
    | none =>
      rw [List.filterMap_cons_none (by rw [hget]; rfl), List.flatMap_cons, hget]
      exact ih
    | some owner =>
      rw [List.filterMap_cons_some (by rw [hget]; rfl), List.flatMap_cons, List.flatMap_cons, ih,
        hget]
      rfl

/-- A table that is there stays as it is. -/
theorem lookup_foldl_flattenLevel (levels : List (List SymbolId))
    {below : TraitTables × List Diagnostic} {used : SymbolId}
    (hused : (below.1.lookup used).isSome) :
    (levels.foldl x.flattenLevel below).1.lookup used = below.1.lookup used := by
  induction levels generalizing below with
  | nil => rfl
  | cons level rest ih =>
    have hkept : (x.flattenLevel below level).1.lookup used = below.1.lookup used := by
      rw [lookup_flattenLevel, Option.or_of_isSome hused]
    rw [List.foldl_cons, ih (hkept ▸ hused), hkept]

/-- What is reported level by level is what the final tables give. -/
theorem reports_foldl_flattenLevel (levels : List (List SymbolId)) {placed : List SymbolId}
    {below : TraitTables × List Diagnostic}
    (hplaced : ∀ id, id ∈ placed → (below.1.lookup id).isSome)
    (hlayered : x.uses.Layered placed levels)
    (hsymbols : ∀ id ∈ levels.flatten, (x.symbols.get? id).isSome) :
    (levels.foldl x.flattenLevel below).2 =
      below.2 ++ x.reports (x.flattenTrait (levels.foldl x.flattenLevel below).1)
        levels.flatten := by
  induction levels generalizing placed below with
  | nil => simp [reports]
  | cons level rest ih =>
    obtain ⟨hlevel, hrest⟩ := hlayered
    have hplaced' : ∀ id, id ∈ placed ++ level →
        ((x.flattenLevel below level).1.lookup id).isSome := by
      intro id hid
      rw [isSome_lookup_flattenLevel fun id hid => hsymbols id (by simp [hid])]
      rcases List.mem_append.1 hid with hold | hnew
      · exact .inl (hplaced id hold)
      · exact .inr hnew
    have hfinal : ∀ id ∈ level, ∀ owner,
        x.flattenTrait below.1 id owner =
          x.flattenTrait ((level :: rest).foldl x.flattenLevel below).1 id owner := by
      intro id hid owner
      refine flattenTrait_congr fun used hleads => ?_
      exact (lookup_foldl_flattenLevel _ (hplaced used ((hlevel id hid).2 used hleads))).symm
    have hhere : x.reports (x.flattenTrait below.1) level =
        x.reports (x.flattenTrait ((level :: rest).foldl x.flattenLevel below).1) level := by
      refine List.flatMap_congr fun id hid => ?_
      cases x.symbols.get? id with
      | none => rfl
      | some owner => simp only [Option.map_some, hfinal id hid owner]
    have hbelow : (x.flattenLevel below level).2 =
        below.2 ++ x.reports (x.flattenTrait below.1) level := by
      unfold flattenLevel
      rw [← flatMap_flattenAll]
    rw [List.foldl_cons, ih hplaced' hrest fun id hid => hsymbols id (by simp [hid]), hbelow, hhere,
      List.flatten_cons, List.append_assoc]
    simp only [reports, List.flatMap_append, List.foldl_cons]

variable (hx : x.WellFormed)
include hx

theorem recursive_flattenTraits :
    Recursive x x.flattenTraits.1 ∧
      ∀ id, (x.flattenTraits.1.lookup id).isSome ↔ id ∈ x.uses.traits := by
  have hlevels : ∀ id, id ∈ x.uses.levels.flatten ↔ id ∈ x.uses.traits := fun id =>
    UseGraph.mem_flatten_levels hx.nodup hx.closed hx.ends
  have hsymbols : ∀ id ∈ x.uses.levels.flatten, (x.symbols.get? id).isSome := by
    intro id hid
    obtain ⟨s, hs, _⟩ := (hx.traits id).1 ((hlevels id).1 hid)
    simp [hs]
  have hempty : Recursive x [] := fun id table hlookup => by cases hlookup
  have hnone : ∀ id, (([] : TraitTables).lookup id).isSome ↔ id ∈ ([] : List SymbolId) := by simp
  have hstart : Recursive x (([], []) : TraitTables × List Diagnostic).1 := hempty
  obtain ⟨hrecursive, hkeys⟩ := hstart.flattenLevels _ hnone (UseGraph.layered_levels hx.nodup)
    hsymbols
  exact ⟨hrecursive, fun id => (hkeys id).trans (by simp [← hlevels id])⟩

/-- The table of a trait is the one composed from the final tables. -/
theorem lookup_flattenTraits (howner : x.symbols.get? id = some owner)
    (htrait : owner.kind = .trait) :
    x.flattenTraits.1.lookup id = some (x.flattenTrait x.flattenTraits.1 id owner).1 := by
  obtain ⟨hrecursive, hkeys⟩ := recursive_flattenTraits hx
  obtain ⟨table, htable⟩ := Option.isSome_iff_exists.1
    ((hkeys id).2 ((hx.traits id).2 ⟨owner, howner, htrait⟩))
  obtain ⟨_, owner', howner', rfl⟩ := hrecursive id table htable
  cases howner.symm.trans howner'
  exact htable

/-- The reports of traits are those that the final tables give. -/
theorem reports_flattenTraits :
    x.flattenTraits.2 = x.reports (x.flattenTrait x.flattenTraits.1) x.uses.levels.flatten := by
  have hsymbols : ∀ id ∈ x.uses.levels.flatten, (x.symbols.get? id).isSome := by
    intro id hid
    obtain ⟨s, hs, _⟩ :=
      (hx.traits id).1 ((UseGraph.mem_flatten_levels hx.nodup hx.closed hx.ends).1 hid)
    exact Option.isSome_iff_exists.2 ⟨s, hs⟩
  have hnone : ∀ id, id ∈ ([] : List SymbolId) →
      ((([], []) : TraitTables × List Diagnostic).1.lookup id).isSome := by simp
  exact reports_foldl_flattenLevel _ hnone (UseGraph.layered_levels hx.nodup) hsymbols

end FlattenContext
end ModuleVisibility
