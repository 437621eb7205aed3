import ModuleVisibility.Proofs.Violation

/-!
What looking up a member finds. It is a declaration of the class or trait that it names as its
source, at the index that it gives, and it is checked against the module of the owner or of a
module-level trait. So whoever follows such a record finds the member, and no record is passed over.
-/
namespace ModuleVisibility

theorem Symbol.kind_of_mem_members {s : Symbol} {m : Member} (h : m ∈ s.members) :
    s.kind = .class ∨ s.kind = .trait := by
  unfold Symbol.members at h
  unfold Symbol.kind
  cases hcontent : s.content with
  | function => simp [hcontent, DeclarationContent.members] at h
  | «class» => exact .inl rfl
  | trait => exact .inr rfl
  | constant => simp [hcontent, DeclarationContent.members] at h

theorem SymbolTable.exists_of_pinnedHome? {t : SymbolTable} {chain : List SymbolId}
    {home : ModuleId} (h : t.pinnedHome? chain = some home) :
    ∃ d s, t.get? d = some s ∧ s.isModuleLevelTrait = true ∧ s.home = home := by
  obtain ⟨d, _, hpin⟩ := List.mem_filterMap.1 (List.mem_of_getLast? h)
  obtain ⟨s, hs, rfl⟩ := Option.map_eq_some_iff.1 hpin
  obtain ⟨hget, hlevel⟩ := Option.filter_eq_some_iff.1 hs
  exact ⟨d, s, hget, hlevel, rfl⟩

namespace Flattening

variable {symbols : SymbolTable} {f : Flattening} {id : SymbolId} {key : MemberKey}
  {r : ResolvedMember}

/-- How a member of the key is found on the symbol `id`. -/
inductive FoundOn (f : Flattening) (symbols : SymbolTable) (id : SymbolId) (key : MemberKey) :
    ResolvedMember → Prop
  /-- The owner declares it. -/
  | own {owner index m} (howner : symbols.get? id = some owner)
    (hm : owner.member? key.kind key.name = some (index, m)) :
    f.FoundOn symbols id key (.ofOwn id owner index m)
  /-- The owner is a class that inherits it. -/
  | inherited {owner r} (howner : symbols.get? id = some owner) (hundeclared : ¬ owner.Declares key)
    (hclass : owner.kind = .class) (hr : f.inheritedMember? id key = some r) :
    f.FoundOn symbols id key (.ofInherited id owner r)
  /-- The owner is a trait whose table holds it. -/
  | held {owner m} (howner : symbols.get? id = some owner) (hundeclared : ¬ owner.Declares key)
    (htrait : owner.kind = .trait) (hm : f.traitMember? id key = some m) :
    f.FoundOn symbols id key (.ofFlat id owner m)

theorem foundOn_of_composedMember? {owner : Symbol} (howner : symbols.get? id = some owner)
    (hundeclared : ¬ owner.Declares key) (h : f.composedMember? id owner key = some r) :
    f.FoundOn symbols id key r := by
  unfold composedMember? at h
  split at h
  · next hclass =>
    obtain ⟨inherited, hinherited, rfl⟩ := Option.map_eq_some_iff.1 h
    exact .inherited howner hundeclared hclass hinherited
  · next htrait =>
    obtain ⟨m, hm, rfl⟩ := Option.map_eq_some_iff.1 h
    exact .held howner hundeclared htrait hm
  · cases h

/-- What is found, and how. -/
theorem resolveMember?_eq_some_iff :
    f.resolveMember? symbols id key = some r ↔ f.FoundOn symbols id key r := by
  constructor
  · intro h
    obtain ⟨owner, howner, hfound⟩ := Option.bind_eq_some_iff.1 h
    split at hfound
    · next hm =>
      cases hfound
      exact .own howner hm
    · next hnone =>
      have hundeclared : ¬ owner.Declares key := by
        rw [← Symbol.isSome_member?_iff, hnone]
        exact Bool.false_ne_true
      exact foundOn_of_composedMember? howner hundeclared hfound
  · intro h
    have hnone : ∀ {owner : Symbol}, ¬ owner.Declares key →
        owner.member? key.kind key.name = none := fun hundeclared =>
      Option.not_isSome_iff_eq_none.1 (mt Symbol.isSome_member?_iff.1 hundeclared)
    cases h with
    | own howner hm => simp only [resolveMember?, bind, howner, Option.bind_some, hm]
    | inherited howner hundeclared hclass hr =>
      have hlookup : (f.inherited? id).bind (·.get? key) = some _ := hr
      simp only [resolveMember?, bind, howner, Option.bind_some, hnone hundeclared,
        composedMember?, hclass, hlookup, Option.map_some]
    | held howner hundeclared htrait hm =>
      have hlookup : (f.traitMembers? id).bind (·.get? key) = some _ := hm
      simp only [resolveMember?, bind, howner, Option.bind_some, hnone hundeclared,
        composedMember?, htrait, hlookup, Option.map_some]

end Flattening

namespace Analysis

variable {units : List ParsedUnit} {id : SymbolId} {key : MemberKey} {r : ResolvedMember}

/-- Marking the traits of cycles changes no declaration. -/
theorem exists_get?_checked {s : Symbol} (h : (collected units).symbols.get? id = some s) :
    ∃ marked, (checked units).symbols.get? id = some marked ∧ marked.home = s.home ∧
      marked.content = s.content := by
  have hchecked := get?_checked units id
  rw [h, Option.map_some] at hchecked
  exact ⟨_, hchecked, rfl, rfl⟩

theorem declaresAt_checked {source : SymbolId} {index : Nat} {v : Visibility}
    (h : (collected units).symbols.DeclaresAt source index key v) :
    (checked units).symbols.DeclaresAt source index key v := by
  obtain ⟨s, m, hs, htrait, hm, hkey⟩ := h
  obtain ⟨marked, hmarked, _, hcontent⟩ := exists_get?_checked hs
  refine ⟨marked, m, hmarked, ?_, ?_, hkey⟩
  · rw [Symbol.kind, hcontent]
    exact htrait
  · rw [Symbol.members, hcontent]
    exact hm

/-- A module that a chain decides about is that of its composer or of a module-level trait. -/
theorem home_of_pinnedHome? (chain : List SymbolId) {owner : Symbol} {home : ModuleId}
    (howner : (checked units).symbols.get? id = some owner)
    (h : home = ((collected units).symbols.pinnedHome? chain).getD owner.home) :
    (∃ owner, (checked units).symbols.get? id = some owner ∧ home = owner.home) ∨
      ∃ d s, (checked units).symbols.get? d = some s ∧ s.isModuleLevelTrait = true ∧
        home = s.home := by
  cases hpinned : (collected units).symbols.pinnedHome? chain with
  | none =>
    rw [hpinned, Option.getD_none] at h
    exact .inl ⟨owner, howner, h⟩
  | some pinned =>
    rw [hpinned, Option.getD_some] at h
    obtain ⟨d, s, hs, hlevel, hhome⟩ := SymbolTable.exists_of_pinnedHome? hpinned
    obtain ⟨marked, hmarked, hkept, hcontent⟩ := exists_get?_checked hs
    refine .inr ⟨d, marked, hmarked, ?_, h.trans (hhome.symm.trans hkept.symm)⟩
    rw [Symbol.isModuleLevelTrait, hcontent]
    exact hlevel

/-- The record `r` of a member of the key on the symbol `id` leads to a declaration of that key. -/
structure IsMember (a : Analysis) (id : SymbolId) (key : MemberKey) (r : ResolvedMember) :
    Prop where
  owner : r.owner = id
  declared : ∃ source m, a.symbols.get? r.source = some source ∧
    (source.kind = .class ∨ source.kind = .trait) ∧ source.members[r.index]? = some m ∧
    m.kind = key.kind ∧ m.name = key.name ∧ m.visibility = r.visibility
  member : ∃ m, r.member? a.symbols = some m ∧ m.kind = key.kind ∧ m.name = key.name
  home : (∃ owner, a.symbols.get? id = some owner ∧ r.home = owner.home) ∨
    ∃ d s, a.symbols.get? d = some s ∧ s.isModuleLevelTrait = true ∧ r.home = s.home

/-- A record is sound by the declaration that it leads to and the module that it gives. -/
theorem IsMember.of_declaration {a : Analysis} {source : Symbol} {m : Member}
    (howner : r.owner = id)
    (hsource : a.symbols.get? r.source = some source)
    (hkind : source.kind = .class ∨ source.kind = .trait)
    (hm : source.members[r.index]? = some m) (hkey : m.kind = key.kind ∧ m.name = key.name)
    (hvisibility : m.visibility = r.visibility)
    (hhome : (∃ owner, a.symbols.get? id = some owner ∧ r.home = owner.home) ∨
      ∃ d s, a.symbols.get? d = some s ∧ s.isModuleLevelTrait = true ∧ r.home = s.home) :
    a.IsMember id key r where
  owner := howner
  declared := ⟨source, m, hsource, hkind, hm, hkey.1, hkey.2, hvisibility⟩
  member := ⟨m, by simp only [ResolvedMember.member?, bind, hsource, Option.bind_some, hm], hkey⟩
  home := hhome

theorem isMember_of_foundOn {policy : Policy}
    (h : (checked units).flattening.FoundOn (checked units).symbols id key r) :
    (ofUnits policy units).IsMember id key r := by
  cases h with
  | own howner hm =>
    obtain ⟨hindex, hkey⟩ := Symbol.of_member? hm
    exact .of_declaration rfl howner (Symbol.kind_of_mem_members (List.mem_of_getElem? hindex))
      hindex hkey rfl (.inl ⟨_, howner, rfl⟩)
  | inherited howner _ hclass hr =>
    obtain ⟨old, hold, rfl⟩ := of_get?_checked howner
    obtain ⟨chain, hchain⟩ := Flattening.exists_inheritsOver hold hclass hr
    obtain ⟨source, m, hsource, htrait, hm, hkind, hname, hvisibility⟩ :=
      declaresAt_checked hchain.declared
    exact .of_declaration rfl hsource (.inr htrait) hm ⟨hkind, hname⟩ hvisibility
      (home_of_pinnedHome? chain howner hchain.home)
  | held howner _ htrait hm =>
    obtain ⟨rest, hrest⟩ := Flattening.exists_delivers hm
    obtain ⟨source, m, hsource, htrait, hm, hkind, hname, hvisibility⟩ :=
      declaresAt_checked hrest.declared
    refine .of_declaration rfl hsource (.inr htrait) hm ⟨hkind, hname⟩ hvisibility
      (home_of_pinnedHome? (id :: rest) howner ?_)
    simp only [ResolvedMember.ofFlat, hrest.origin]
    cases (collected units).symbols.pinnedHome? (id :: rest) <;> rfl

/-- Every record of a member leads to a declaration, so that none is passed over. -/
structure ResolvesToMembers (a : Analysis) : Prop where
  resolved : ∀ id key r, a.flattening.resolveMember? a.symbols id key = some r → a.IsMember id key r
  classRecords : ∀ id, ∀ r ∈ a.program.inheritedBy id,
    (a.program.declared? r.source r.index).isSome
  traitRecords : ∀ id, ∀ m ∈ a.program.composedBy id,
    (a.program.declared? m.source m.index).isSome
  classRuns : ∀ id s, (a.program.classExecutions id s).length =
    s.members.length + (a.program.inheritedBy id).length
  traitRuns : ∀ id s, (a.program.composedTraitExecutions id s).length =
    (a.program.composedBy id).length

theorem isSome_declared? {source : SymbolId} {index : Nat} {v : Visibility}
    (h : (collected units).symbols.DeclaresAt source index key v) :
    ((checked units).declared? source index).isSome := by
  obtain ⟨s, m, hs, _, hm, _⟩ := declaresAt_checked h
  exact Option.isSome_iff_exists.2
    ⟨(s.unit, m), CheckedProgram.declared?_eq_some_iff.2 ⟨s, hs, hm, rfl⟩⟩

theorem isSome_declared?_of_inheritedBy {m : InheritedMember}
    (h : m ∈ (checked units).inheritedBy id) :
    ((checked units).declared? m.source m.index).isSome := by
  obtain ⟨key, table, htable, hentry⟩ := CheckedProgram.mem_inheritedBy.1 h
  obtain ⟨_, _, _, _, hchain⟩ := Flattening.inherited_over_chain htable hentry
  exact isSome_declared? hchain.declared

theorem isSome_declared?_of_composedBy {m : FlatMember} (h : m ∈ (checked units).composedBy id) :
    ((checked units).declared? m.source m.index).isSome := by
  obtain ⟨⟨key, hholds⟩, _⟩ := CheckedProgram.mem_composedBy.1 h
  obtain ⟨_, hrest⟩ := Flattening.exists_delivers (Flattening.traitMember?_of_holds hholds)
  exact isSome_declared? hrest.declared

/-- Whatever a lookup returns is a member, and every class and trait runs all of its members. -/
theorem resolvesToMembers_ofUnits (policy : Policy) (units : List ParsedUnit) :
    (ofUnits policy units).ResolvesToMembers where
  resolved _ _ _ h := isMember_of_foundOn (Flattening.resolveMember?_eq_some_iff.1 h)
  classRecords _ _ hr := isSome_declared?_of_inheritedBy hr
  traitRecords _ _ hm := isSome_declared?_of_composedBy hm
  classRuns id s := by
    rw [program_ofUnits, CheckedProgram.classExecutions, List.length_append, List.length_map,
      List.filterMap_length_eq_length.2 fun r hr =>
        Option.isSome_map.trans (isSome_declared?_of_inheritedBy hr)]
  traitRuns id s :=
    List.filterMap_length_eq_length.2 fun m hm =>
      Option.isSome_map.trans (isSome_declared?_of_composedBy hm)

end Analysis
end ModuleVisibility
