import Mathlib.Data.List.Chain
import ModuleVisibility.Proofs.Entry

/-!
Where the members of a table come from. An entry is the declaration of the last trait of a chain of
use clauses; its origin, its degradation and the trait it came through are all read off that one
chain, although entries of several chains may have competed for the key.
-/
namespace ModuleVisibility

namespace SymbolTable

/-- The module to which a module-level trait pins what it composes. -/
def pin? (t : SymbolTable) (id : SymbolId) : Option ModuleId :=
  ((t.get? id).filter (·.isModuleLevelTrait)).map (·.home)

/-- The module of the last module-level trait of a chain. -/
def pinnedHome? (t : SymbolTable) (chain : List SymbolId) : Option ModuleId :=
  (chain.filterMap t.pin?).getLast?

theorem pinnedHome?_cons (t : SymbolTable) (id : SymbolId) (chain : List SymbolId) :
    t.pinnedHome? (id :: chain) = (t.pinnedHome? chain).or (t.pin? id) := by
  unfold pinnedHome?
  cases hpin : t.pin? id with
  | none => rw [List.filterMap_cons_none hpin, Option.or_none]
  | some home =>
    rw [List.filterMap_cons_some hpin, List.getLast?_cons]
    cases (chain.filterMap t.pin?).getLast? <;> rfl

/-- The member of a trait at an index has this key and visibility. -/
def DeclaresAt (t : SymbolTable) (source : SymbolId) (index : Nat) (key : MemberKey)
    (visibility : Visibility) : Prop :=
  ∃ s m, t.get? source = some s ∧ s.kind = .trait ∧ s.members[index]? = some m ∧
    m.kind = key.kind ∧ m.name = key.name ∧ m.visibility = visibility

theorem DeclaresAt.visibility_eq {t : SymbolTable} {source : SymbolId} {index : Nat}
    {key : MemberKey} {v w : Visibility} (hv : t.DeclaresAt source index key v)
    (hw : t.DeclaresAt source index key w) : v = w := by
  obtain ⟨s, m, hs, _, hm, _, _, rfl⟩ := hv
  obtain ⟨s', m', hs', _, hm', _, _, rfl⟩ := hw
  cases hs.symm.trans hs'
  cases hm.symm.trans hm'
  rfl

end SymbolTable

namespace Flattening

/-- The entry `m` of a key in the table of `id` is the member that the last trait of the chain
from `id` over `rest` declares. -/
structure Delivers (symbols : SymbolTable) (f : Flattening) (id : SymbolId) (rest : List SymbolId)
    (key : MemberKey) (m : FlatMember) : Prop where
  uses : List.IsChain symbols.keptGraph.Leads (id :: rest)
  source : (id :: rest).getLast? = some m.source
  declared : symbols.DeclaresAt m.source m.index key m.visibility
  origin : m.origin = ((symbols.pinnedHome? (id :: rest)).map Origin.pinned).getD .composer
  degraded : (m.isDegraded || degrades symbols f id) = (id :: rest).any (degrades symbols f)

variable {symbols : SymbolTable} {modules : ModuleGraph} {sources : SourceMap}

theorem provided?_eq_some {f : Flattening} {through : Origin → Origin} {key : MemberKey}
    {target : SymbolId} {m : FlatMember} (h : provided? symbols f through key target = some m) :
    ∃ entry, f.traitMember? target key = some entry ∧
      m = Composition.bring through target (degrades symbols f target) entry := by
  obtain ⟨entry, hentry, rfl⟩ := Option.map_eq_some_iff.1 h
  exact ⟨entry, hentry, rfl⟩

theorem trait_of_traitMember? {id : SymbolId} {key : MemberKey} {m : FlatMember}
    (h : (ofProgram symbols modules sources).traitMember? id key = some m) :
    ∃ owner, symbols.get? id = some owner ∧ owner.kind = .trait := by
  obtain ⟨table, htable, _⟩ := Option.bind_eq_some_iff.1 h
  obtain ⟨owner, howner, htrait, _⟩ := of_traitMembers? htable
  exact ⟨owner, howner, htrait⟩

theorem pin?_eq {id : SymbolId} {owner : Symbol} (howner : symbols.get? id = some owner) :
    symbols.pin? id = if owner.isModuleLevelTrait then some owner.home else none := by
  unfold SymbolTable.pin?
  rw [howner, Option.filter_some]
  split <;> rfl

/-- Own members are delivered by the trait alone. -/
theorem delivers_own {id : SymbolId} {owner : Symbol} {key : MemberKey} {m : Member} {index : Nat}
    {f : Flattening} (howner : symbols.get? id = some owner) (htrait : owner.kind = .trait)
    (hlast : owner.lastMember? key = some (m, index)) :
    Delivers symbols f id [] key ⟨m.visibility, Origin.throughTrait owner .composer, id, index, id,
      degrades symbols f id⟩ where
  uses := List.isChain_singleton _
  source := rfl
  declared := by
    obtain ⟨hm, hkind, hname⟩ := Symbol.of_lastMember? hlast
    exact ⟨owner, m, howner, htrait, hm, hkind, hname, rfl⟩
  origin := by
    simp only [SymbolTable.pinnedHome?_cons, pin?_eq howner, Origin.throughTrait]
    split <;> rfl
  degraded := by simp

/-- A member that the trait composes is delivered over the chain of the trait it comes from. -/
theorem Delivers.composed {id target : SymbolId} {owner : Symbol} {rest : List SymbolId}
    {key : MemberKey} {entry : FlatMember} {f : Flattening}
    (h : Delivers symbols f target rest key entry) (howner : symbols.get? id = some owner)
    (hused : target ∈ symbols.keptUses id owner) :
    Delivers symbols f id (target :: rest) key
      (Composition.bring (Origin.throughTrait owner) target (degrades symbols f target) entry) where
  uses := List.isChain_cons_cons.2 ⟨(SymbolTable.leads_keptGraph howner).2 hused, h.uses⟩
  source := by
    rw [List.getLast?_cons_cons]
    exact h.source
  declared := h.declared
  origin := by
    simp only [Composition.bring, h.origin]
    rw [symbols.pinnedHome?_cons id]
    cases symbols.pinnedHome? (target :: rest) with
    | some home => rfl
    | none =>
      simp only [pin?_eq howner, Origin.throughTrait, Option.map_none, Option.getD_none,
        Option.none_or]
      split <;> rfl
  degraded := by
    simp only [Composition.bring, h.degraded]
    rw [List.any_cons (l := target :: rest), Bool.or_comm]

/-- What holds of the last declarations of traits, and of a member that a clause brings in if it
holds of the member there, holds of every entry of a trait's table. The induction is on the clauses
that remain, of which every chain ends. -/
theorem traitMember?_induction {key : MemberKey} {P : SymbolId → FlatMember → Prop}
    (own : ∀ {id owner m index}, symbols.get? id = some owner → owner.kind = .trait →
      owner.lastMember? key = some (m, index) →
      P id ⟨m.visibility, Origin.throughTrait owner .composer, id, index, id,
        degrades symbols (ofProgram symbols modules sources) id⟩)
    (composed : ∀ {id owner target entry}, symbols.get? id = some owner →
      owner.lastMember? key = none → target ∈ symbols.keptUses id owner → P target entry →
      P id (Composition.bring (Origin.throughTrait owner) target
        (degrades symbols (ofProgram symbols modules sources) target) entry))
    {id : SymbolId} {m : FlatMember}
    (h : (ofProgram symbols modules sources).traitMember? id key = some m) : P id m := by
  have hends := symbols.ends_keptGraph id
  induction hends generalizing m with
  | intro id _ ih =>
    obtain ⟨owner, howner, htrait⟩ := trait_of_traitMember? h
    rw [traitMember?_of_trait howner htrait] at h
    cases hlast : owner.lastMember? key with
    | some last =>
      rw [hlast] at h
      cases h
      exact own howner htrait hlast
    | none =>
      rw [hlast] at h
      obtain ⟨target, hused, hprovided⟩ :=
        List.mem_filterMap.1 (Composition.mem_of_winnerOf h)
      obtain ⟨entry, hentry, rfl⟩ := provided?_eq_some hprovided
      exact composed howner hlast hused
        (ih target ((SymbolTable.leads_keptGraph howner).2 hused) hentry)

/-- Every entry of a trait's table has its chain. -/
theorem exists_delivers {id : SymbolId} {key : MemberKey} {m : FlatMember}
    (h : (ofProgram symbols modules sources).traitMember? id key = some m) :
    ∃ rest, Delivers symbols (ofProgram symbols modules sources) id rest key m := by
  refine traitMember?_induction (P := fun id m => ∃ rest,
    Delivers symbols (ofProgram symbols modules sources) id rest key m) ?own ?composed h
  case own => exact fun howner htrait hlast => ⟨[], delivers_own howner htrait hlast⟩
  case composed =>
    rintro id owner target entry howner _ hused ⟨rest, hrest⟩
    exact ⟨target :: rest, hrest.composed howner hused⟩

theorem trait_of_mem_chain {id d : SymbolId} {rest : List SymbolId}
    (h : List.IsChain symbols.keptGraph.Leads (id :: rest)) (hd : d ∈ rest) :
    d ∈ symbols.ofKind .trait := by
  induction rest generalizing id with
  | nil => cases hd
  | cons next rest ih =>
    obtain ⟨hleads, hrest⟩ := List.isChain_cons_cons.1 h
    rcases List.mem_cons.1 hd with rfl | hd
    · exact symbols.closed_useGraph _ _ hleads.of_drop
    · exact ih hrest hd

/-- What a class inherits under a key wins among the members that its clauses provide. -/
theorem of_mem_inherited {id : SymbolId} {table : MemberTable InheritedMember} {key : MemberKey}
    {r : InheritedMember}
    (htable : (ofProgram symbols modules sources).inherited? id = some table)
    (hr : (key, r) ∈ table.entries) :
    ∃ owner, symbols.get? id = some owner ∧ owner.kind = .class ∧
      (ofProgram symbols modules sources).inheritedMember? id key = some r := by
  have hentry := htable
  rw [inherited?_ofProgram] at hentry
  split at hentry
  · next hclass =>
    obtain ⟨owner, howner, hkind⟩ := SymbolTable.mem_ofKind.1 hclass
    obtain ⟨owner', howner', rfl⟩ := Option.map_eq_some_iff.1 hentry
    refine ⟨owner, howner, hkind, ?_⟩
    unfold inheritedMember?
    rw [htable, Option.bind_some]
    exact (MemberTable.mem_entries_iff (FlattenContext.sorted_flattenClass ..)).1 hr
  · cases hentry

/-- The class `id` in `home` inherits the member `r` over a chain of use clauses, none of which
closes a cycle: the member belongs to the module of the chain's last module-level trait, or to that
of the class, and it is degraded exactly if a trait of the chain is unresolved or cyclic. -/
structure InheritsOver (symbols : SymbolTable) (f : Flattening) (id : SymbolId) (home : ModuleId)
    (chain : List SymbolId) (key : MemberKey) (r : InheritedMember) : Prop where
  uses : List.IsChain symbols.keptGraph.Leads (id :: chain)
  traits : ∀ d ∈ chain, d ∈ symbols.ofKind .trait
  via : chain.head? = some r.via
  source : chain.getLast? = some r.source
  declared : symbols.DeclaresAt r.source r.index key r.visibility
  home : r.home = (symbols.pinnedHome? chain).getD home
  degraded : r.isDegraded = true ↔
    ∃ d ∈ chain, (∃ s, symbols.get? d = some s ∧ s.isUnresolved = true) ∨ d ∈ f.cyclic

/-- What a class inherits is an entry of a trait that one of its clauses brings in. -/
theorem exists_entry_of_inheritedMember? {id : SymbolId} {owner : Symbol} {key : MemberKey}
    {r : InheritedMember} (howner : symbols.get? id = some owner) (hclass : owner.kind = .class)
    (h : (ofProgram symbols modules sources).inheritedMember? id key = some r) :
    ¬ owner.Declares key ∧ ∃ target ∈ symbols.keptUses id owner, ∃ entry,
      (ofProgram symbols modules sources).traitMember? target key = some entry ∧
      r = .ofFlat owner.home (Composition.bring (Origin.throughClass owner) target
        (degrades symbols (ofProgram symbols modules sources) target) entry) := by
  rw [inheritedMember?_of_class howner hclass] at h
  split at h
  · cases h
  · next hundeclared =>
    obtain ⟨m, hwinner, rfl⟩ := Option.map_eq_some_iff.1 h
    obtain ⟨target, hused, hprovided⟩ :=
      List.mem_filterMap.1 (Composition.mem_of_winnerOf hwinner)
    obtain ⟨entry, hentry, rfl⟩ := provided?_eq_some hprovided
    exact ⟨hundeclared, target, hused, entry, hentry, rfl⟩

/-- What wins among the members that the clauses of a class provide comes over one chain. -/
theorem exists_inheritsOver {id : SymbolId} {owner : Symbol} {key : MemberKey} {r : InheritedMember}
    (howner : symbols.get? id = some owner) (hclass : owner.kind = .class)
    (hentry : (ofProgram symbols modules sources).inheritedMember? id key = some r) :
    ∃ chain,
      InheritsOver symbols (ofProgram symbols modules sources) id owner.home chain key r := by
  obtain ⟨_, target, hused, entry, hprovider, rfl⟩ :=
    exists_entry_of_inheritedMember? howner hclass hentry
  obtain ⟨rest, hrest⟩ := exists_delivers hprovider
  have hchain : List.IsChain symbols.keptGraph.Leads (id :: target :: rest) :=
    List.isChain_cons_cons.2 ⟨(SymbolTable.leads_keptGraph howner).2 hused, hrest.uses⟩
  refine ⟨target :: rest, hchain, fun d hd => trait_of_mem_chain hchain hd, rfl, hrest.source,
    hrest.declared, ?_, ?_⟩
  · simp only [InheritedMember.ofFlat, Composition.bring, Origin.throughClass, hrest.origin]
    cases symbols.pinnedHome? (target :: rest) <;> rfl
  · simp only [InheritedMember.ofFlat, Composition.bring]
    rw [hrest.degraded, List.any_eq_true]
    simp only [degrades, Bool.or_eq_true, List.contains_iff_mem, Option.any_eq_true]
    exact exists_congr fun d => and_congr_right fun _ => or_comm

/-- Every member that a class inherits comes over one chain of use clauses, which decides about all
of it. -/
theorem inherited_over_chain {id : SymbolId} {table : MemberTable InheritedMember} {key : MemberKey}
    {r : InheritedMember}
    (htable : (ofProgram symbols modules sources).inherited? id = some table)
    (hr : (key, r) ∈ table.entries) :
    ∃ owner chain, symbols.get? id = some owner ∧ owner.kind = .class ∧
      InheritsOver symbols (ofProgram symbols modules sources) id owner.home chain key r := by
  obtain ⟨owner, howner, hclass, hentry⟩ := of_mem_inherited htable hr
  obtain ⟨chain, hchain⟩ := exists_inheritsOver howner hclass hentry
  exact ⟨owner, chain, howner, hclass, hchain⟩

/-- A class in module 0 that uses a module-level trait of module 1, which uses an ordinary trait
that uses it back. -/
def pinnedCycle : SymbolTable :=
  .ofSymbols [⟨"C", .declared 0, .public, 0, .origin, .class [⟨"T", .origin⟩] [], false⟩,
    ⟨"T", .declared 1, .public, 0, .origin, .trait true [⟨"U", .origin⟩] [], false⟩,
    ⟨"U", .declared 0, .public, 0, .origin,
      .trait false [⟨"T", .origin⟩] [⟨"m", .method, .internal, .origin, []⟩], false⟩]

/-- The member of the ordinary trait reaches the class through the module-level one. -/
theorem inherited_over_chain_pinnedCycle :
    ∃ table r, (ofProgram pinnedCycle .empty .empty).inherited? ⟨0⟩ = some table ∧
      (⟨.method, "m"⟩, r) ∈ table.entries ∧
      ∃ owner chain, pinnedCycle.get? ⟨0⟩ = some owner ∧ owner.kind = .class ∧
        InheritsOver pinnedCycle (ofProgram pinnedCycle .empty .empty) ⟨0⟩ owner.home chain
          ⟨.method, "m"⟩ r := by
  have hentries : ((ofProgram pinnedCycle .empty .empty).inherited? ⟨0⟩).map (·.entries) =
      some [(⟨.method, "m"⟩, ⟨.internal, .declared 1, ⟨2⟩, 0, ⟨1⟩, true⟩)] := by
    decide +kernel
  obtain ⟨table, htable, hentries⟩ := Option.map_eq_some_iff.1 hentries
  have hmem : ((⟨.method, "m"⟩, ⟨.internal, .declared 1, ⟨2⟩, 0, ⟨1⟩, true⟩) :
      MemberKey × InheritedMember) ∈ table.entries := by
    rw [hentries]
    exact List.mem_singleton_self _
  exact ⟨table, _, htable, hmem, inherited_over_chain htable hmem⟩

end Flattening
end ModuleVisibility
