import ModuleVisibility.Proofs.Flattening

/-!
The tables of traits and classes, key by key.
-/
namespace ModuleVisibility

namespace Symbol

variable {s : Symbol} {key : MemberKey}

/-- The symbol itself declares a member of the key. -/
def Declares (s : Symbol) (key : MemberKey) : Prop :=
  ∃ m ∈ s.members, m.kind = key.kind ∧ m.name = key.name

instance (s : Symbol) (key : MemberKey) : Decidable (s.Declares key) :=
  inferInstanceAs (Decidable (∃ m ∈ s.members, m.kind = key.kind ∧ m.name = key.name))

/-- The last member of the key that the symbol declares, with its index. -/
def lastMember? (s : Symbol) (key : MemberKey) : Option (Member × Nat) :=
  (s.members.zipIdx.filter fun (m, _) => m.kind = key.kind ∧ m.name = key.name).getLast?

theorem lastMember?_eq_none_iff : s.lastMember? key = none ↔ ¬ s.Declares key := by
  unfold lastMember? Declares
  rw [List.getLast?_eq_none_iff, List.filter_eq_nil_iff]
  simp only [decide_eq_true_eq, not_exists, not_and, Prod.forall, List.mem_zipIdx_iff_getElem?]
  constructor
  · intro h m hm hkind hname
    obtain ⟨i, hi⟩ := List.mem_iff_getElem?.1 hm
    exact h m i hi hkind hname
  · intro h m i hi hkind hname
    exact h m (List.mem_of_getElem? hi) hkind hname

theorem of_lastMember? {m : Member} {i : Nat} (h : s.lastMember? key = some (m, i)) :
    s.members[i]? = some m ∧ m.kind = key.kind ∧ m.name = key.name := by
  obtain ⟨hmem, hkey⟩ := List.mem_filter.1 (List.mem_of_getLast? h)
  exact ⟨List.mem_zipIdx_iff_getElem?.1 hmem, of_decide_eq_true hkey⟩

theorem isSome_member?_iff : (s.member? key.kind key.name).isSome ↔ s.Declares key := by
  unfold member? Declares
  simp only [Option.isSome_map, List.find?_isSome, Bool.and_eq_true, beq_iff_eq]
  constructor
  · rintro ⟨⟨m, i⟩, hm, hkey⟩
    exact ⟨m, List.mem_of_getElem? (List.mem_zipIdx_iff_getElem?.1 hm), hkey⟩
  · rintro ⟨m, hm, hkey⟩
    obtain ⟨i, hi⟩ := List.mem_iff_getElem?.1 hm
    exact ⟨(m, i), List.mem_zipIdx_iff_getElem?.2 hi, hkey⟩

theorem of_member? {m : Member} {i : Nat} (h : s.member? key.kind key.name = some (i, m)) :
    s.members[i]? = some m ∧ m.kind = key.kind ∧ m.name = key.name := by
  obtain ⟨⟨m', i'⟩, hfound, heq⟩ := Option.map_eq_some_iff.1 h
  cases heq
  have hmem := List.mem_of_find?_eq_some hfound
  have hkey := List.find?_some hfound
  exact ⟨List.mem_zipIdx_iff_getElem?.1 hmem, by simpa using hkey⟩

end Symbol

namespace FlattenContext

theorem get?_addOwn (x : FlattenContext) (id : SymbolId) (owner : Symbol)
    (composed : MemberTable FlatMember) (key : MemberKey) :
    (x.addOwn id owner composed).get? key =
      match owner.lastMember? key with
      | some (m, index) =>
        some ⟨m.visibility, Origin.throughTrait owner .composer, id, index, id, x.isUnresolved id⟩
      | none => composed.get? key := by
  unfold addOwn Symbol.lastMember?
  generalize owner.members.zipIdx = members
  induction members generalizing composed with
  | nil => rfl
  | cons head rest ih =>
    obtain ⟨m, index⟩ := head
    rw [List.foldl_cons, ih]
    by_cases h : m.kind = key.kind ∧ m.name = key.name
    · obtain ⟨hkind, hname⟩ := h
      have hkey : (⟨m.kind, m.name⟩ : MemberKey) = key := by rw [hkind, hname]
      rw [List.filter_cons_of_pos (by simp [hkind, hname]), List.getLast?_cons]
      cases (rest.filter fun (m, _) => m.kind = key.kind ∧ m.name = key.name).getLast? with
      | none => simp [hkey]
      | some last => rfl
    · have hkey : key ≠ ⟨m.kind, m.name⟩ := by
        rintro rfl
        exact h ⟨rfl, rfl⟩
      rw [List.filter_cons_of_neg (by simpa using h), MemberTable.get?_insert_of_ne _ _ hkey]

theorem get?_foldl_erase (members : List Member) (composed : MemberTable FlatMember)
    (key : MemberKey) :
    (members.foldl (fun table m => table.erase ⟨m.kind, m.name⟩) composed).get? key =
      if ∃ m ∈ members, m.kind = key.kind ∧ m.name = key.name then none else composed.get? key := by
  induction members generalizing composed with
  | nil => simp
  | cons m rest ih =>
    rw [List.foldl_cons, ih, MemberTable.get?_erase]
    by_cases h : m.kind = key.kind ∧ m.name = key.name
    · simp [h]
    · have hkey : key ≠ ⟨m.kind, m.name⟩ := by
        rintro rfl
        exact h ⟨rfl, rfl⟩
      simp [hkey, h]

theorem get?_removeOwn (owner : Symbol) (composed : MemberTable FlatMember) (key : MemberKey) :
    (removeOwn owner composed).get? key =
      if owner.Declares key then none else composed.get? key :=
  get?_foldl_erase owner.members composed key

theorem sorted_flattenTrait (x : FlattenContext) (done : TraitTables) (id : SymbolId)
    (owner : Symbol) : (x.flattenTrait done id owner).1.Sorted :=
  List.foldlRecOn (motive := MemberTable.Sorted) _ _ (sorted_composeUses ..)
    fun _ ht _ _ => MemberTable.sorted_insert ht _ _

theorem sorted_flattenClass (x : FlattenContext) (done : TraitTables) (id : SymbolId)
    (owner : Symbol) : (x.flattenClass done id owner).1.Sorted :=
  MemberTable.sorted_map (List.foldlRecOn (motive := MemberTable.Sorted) _ _
    (sorted_composeUses ..) fun _ ht _ _ => MemberTable.sorted_erase ht _) _

end FlattenContext

namespace Flattening

variable {symbols : SymbolTable} {modules : ModuleGraph} {sources : SourceMap}

/-- The entry of a key in the table of a trait. -/
def traitMember? (f : Flattening) (id : SymbolId) (key : MemberKey) : Option FlatMember :=
  (f.traitMembers? id).bind (·.get? key)

/-- The entry of a key among the members that a class inherits. -/
def inheritedMember? (f : Flattening) (id : SymbolId) (key : MemberKey) : Option InheritedMember :=
  (f.inherited? id).bind (·.get? key)

theorem wellFormed_context (symbols : SymbolTable) (modules : ModuleGraph) (sources : SourceMap) :
    (context symbols modules sources).WellFormed where
  traits _ := SymbolTable.mem_ofKind
  nodup := symbols.nodup_ofKind .trait
  length id s hs := by
    have hs' : symbols.get? id = some s := hs
    simp only [context, UseGraph.uses_drop, List.length_mapIdx, SymbolTable.uses_useGraph hs',
      List.length_map]
  closed := symbols.closed_useGraph.drop _
  ends := symbols.ends_keptGraph

theorem traits_ofProgram (symbols : SymbolTable) (modules : ModuleGraph) (sources : SourceMap) :
    (ofProgram symbols modules sources).traits =
      (context symbols modules sources).flattenTraits.1 := rfl

/-- A table belongs to a trait and is composed from the final tables. -/
theorem of_traitMembers? {id : SymbolId} {table : MemberTable FlatMember}
    (h : (ofProgram symbols modules sources).traitMembers? id = some table) :
    ∃ owner, symbols.get? id = some owner ∧ owner.kind = .trait ∧
      table = ((context symbols modules sources).flattenTrait
        (ofProgram symbols modules sources).traits id owner).1 := by
  have hx := wellFormed_context symbols modules sources
  obtain ⟨_, hkeys⟩ := FlattenContext.recursive_flattenTraits hx
  have hsome : ((context symbols modules sources).flattenTraits.1.lookup id).isSome := by
    rw [← traits_ofProgram, Option.isSome_iff_exists]
    exact ⟨table, h⟩
  obtain ⟨owner, howner, htrait⟩ := (hx.traits id).1 ((hkeys id).1 hsome)
  refine ⟨owner, howner, htrait, Option.some.inj (h.symm.trans ?_)⟩
  exact FlattenContext.lookup_flattenTraits hx howner htrait

theorem traitMembers?_ofProgram {id : SymbolId} {owner : Symbol}
    (howner : symbols.get? id = some owner) (htrait : owner.kind = .trait) :
    (ofProgram symbols modules sources).traitMembers? id =
      some ((context symbols modules sources).flattenTrait
        (ofProgram symbols modules sources).traits id owner).1 :=
  FlattenContext.lookup_flattenTraits (wellFormed_context symbols modules sources) howner htrait

theorem inherited?_ofProgram (id : SymbolId) :
    (ofProgram symbols modules sources).inherited? id =
      if id ∈ symbols.ofKind .class then
        (symbols.get? id).map fun owner => ((context symbols modules sources).flattenClass
          (ofProgram symbols modules sources).traits id owner).1
      else none := by
  have hvalue := lookup_map_value
    (fun (_ : SymbolId) (r : MemberTable InheritedMember × List Diagnostic) => r.1)
    ((context symbols modules sources).flattenAll ((context symbols modules sources).flattenClass
      (ofProgram symbols modules sources).traits) (symbols.ofKind .class)) id
  refine hvalue.trans ?_
  rw [FlattenContext.lookup_flattenAll]
  split
  · rw [Option.map_map]
    rfl
  · rfl

/-- Whether a trait degrades what comes through it. -/
def degrades (symbols : SymbolTable) (f : Flattening) (id : SymbolId) : Bool :=
  f.cyclic.contains id || (symbols.get? id).any (·.isUnresolved)

/-- What `target` provides for a key, as a clause of an owner brings it in. -/
def provided? (symbols : SymbolTable) (f : Flattening) (through : Origin → Origin)
    (key : MemberKey) (target : SymbolId) : Option FlatMember :=
  (f.traitMember? target key).map (Composition.bring through target (degrades symbols f target))

theorem sorted_traits :
    FlattenContext.TablesSorted (ofProgram symbols modules sources).traits := by
  intro id table htable
  obtain ⟨owner, _, _, rfl⟩ := of_traitMembers? htable
  exact FlattenContext.sorted_flattenTrait ..

theorem get?_composeUses_ofProgram {id : SymbolId} {owner : Symbol}
    (howner : symbols.get? id = some owner) (through : Origin → Origin) (key : MemberKey) :
    ((context symbols modules sources).composeUses id owner through
      (ofProgram symbols modules sources).traits).members.get? key =
      Composition.winnerOf ((symbols.keptUses id owner).filterMap
        (provided? symbols (ofProgram symbols modules sources) through key)) := by
  have hx := wellFormed_context symbols modules sources
  rw [FlattenContext.get?_composeUses sorted_traits (hx.length id owner howner),
    ← SymbolTable.targets_keptGraph howner]
  rfl

/-- The table of a trait by its own members and the tables of the traits it uses. -/
theorem traitMember?_of_trait {id : SymbolId} {owner : Symbol}
    (howner : symbols.get? id = some owner) (htrait : owner.kind = .trait) (key : MemberKey) :
    (ofProgram symbols modules sources).traitMember? id key =
      match owner.lastMember? key with
      | some (m, index) =>
        some ⟨m.visibility, Origin.throughTrait owner .composer, id, index, id,
          degrades symbols (ofProgram symbols modules sources) id⟩
      | none => Composition.winnerOf ((symbols.keptUses id owner).filterMap
          (provided? symbols (ofProgram symbols modules sources) (Origin.throughTrait owner)
            key)) := by
  unfold traitMember?
  rw [traitMembers?_ofProgram howner htrait, Option.bind_some, FlattenContext.flattenTrait,
    FlattenContext.get?_addOwn, get?_composeUses_ofProgram howner]
  rfl

/-- What a class inherits by the tables of the traits it uses. -/
theorem inheritedMember?_of_class {id : SymbolId} {owner : Symbol}
    (howner : symbols.get? id = some owner) (hclass : owner.kind = .class) (key : MemberKey) :
    (ofProgram symbols modules sources).inheritedMember? id key =
      if owner.Declares key then none
      else (Composition.winnerOf ((symbols.keptUses id owner).filterMap
          (provided? symbols (ofProgram symbols modules sources) (Origin.throughClass owner)
            key))).map (InheritedMember.ofFlat owner.home) := by
  have hmem : id ∈ symbols.ofKind .class := SymbolTable.mem_ofKind.2 ⟨owner, howner, hclass⟩
  unfold inheritedMember?
  rw [inherited?_ofProgram, if_pos hmem, howner, Option.map_some, Option.bind_some,
    FlattenContext.flattenClass, MemberTable.get?_map, FlattenContext.get?_removeOwn,
    get?_composeUses_ofProgram howner]
  split <;> rfl

end Flattening
end ModuleVisibility
