import ModuleVisibility.Proofs.Cycle
import ModuleVisibility.Proofs.Recursion
import ModuleVisibility.Proofs.Resolution

/-!
The two ways to one member: on the trait that declares it and on a class that has it from there. The
trait is searched for its first declaration of the key, and its table keeps the last one. So the two
lookups find the same member exactly if the trait declares the key once.
-/
namespace ModuleVisibility

namespace Symbol

variable {s : Symbol} {key : MemberKey}

/-- The members of the key that the symbol declares, with their indices. -/
def declarations (s : Symbol) (key : MemberKey) : List (Member × Nat) :=
  s.members.zipIdx.filter fun (m, _) => m.kind = key.kind ∧ m.name = key.name

theorem lastMember?_eq_getLast? (s : Symbol) (key : MemberKey) :
    s.lastMember? key = (s.declarations key).getLast? := rfl

theorem member?_eq_head? (s : Symbol) (key : MemberKey) :
    s.member? key.kind key.name = (s.declarations key).head?.map fun (m, i) => (i, m) := by
  unfold member? declarations
  rw [List.head?_filter]
  congr 2
  exact funext fun p => (Bool.decide_and _ _).symm

theorem declarations_ne_nil_iff : s.declarations key ≠ [] ↔ s.Declares key := by
  rw [← not_iff_not, ← lastMember?_eq_none_iff, lastMember?_eq_getLast?, List.getLast?_eq_none_iff,
    not_ne_iff]

/-- The declarations come in the order of their indices. -/
theorem pairwise_declarations (s : Symbol) (key : MemberKey) :
    (s.declarations key).Pairwise fun a b => a.2 < b.2 := by
  have hindices : (s.members.zipIdx.map Prod.snd).Pairwise (· < ·) := by
    rw [List.zipIdx_map_snd]
    exact List.pairwise_lt_range'
  exact (List.pairwise_map.1 hindices).filter _

/-- The first declaration is the last one where there are no others. -/
theorem index_eq_iff_length {first last : Member × Nat}
    (hfirst : (s.declarations key).head? = some first)
    (hlast : (s.declarations key).getLast? = some last) :
    first.2 = last.2 ↔ (s.declarations key).length = 1 := by
  have hpairs := pairwise_declarations s key
  generalize s.declarations key = declarations at hfirst hlast hpairs
  cases declarations with
  | nil => cases hfirst
  | cons head rest =>
    cases hfirst
    cases rest with
    | nil =>
      cases hlast
      simp
    | cons next rest =>
      have hmem : last ∈ next :: rest := by
        rw [List.getLast?_cons_cons] at hlast
        exact List.mem_of_getLast? hlast
      have hlt := (List.pairwise_cons.1 hpairs).1 last hmem
      simp only [List.length_cons]
      omega

end Symbol

namespace Flattening

variable {symbols : SymbolTable} {modules : ModuleGraph} {sources : SourceMap} {id : SymbolId}
  {key : MemberKey}

/-- The symbol `source` declares the key, and `id` comes to it over clauses that close no cycle,
from owners that do not declare the key themselves. -/
inductive Provides (symbols : SymbolTable) (key : MemberKey) (source : SymbolId) : SymbolId → Prop
  | own {s} (hs : symbols.get? source = some s) (hdeclares : s.Declares key) :
    Provides symbols key source source
  | composed {id owner used} (howner : symbols.get? id = some owner)
    (hundeclared : ¬ owner.Declares key) (hleads : symbols.keptGraph.Leads id used)
    (hused : Provides symbols key source used) : Provides symbols key source id

/-- The last declaration of the key in `source` is at this index and has this visibility. -/
def DeclaresLast (symbols : SymbolTable) (key : MemberKey) (source : SymbolId) (index : Nat)
    (visibility : Visibility) : Prop :=
  ∃ s m, symbols.get? source = some s ∧ s.lastMember? key = some (m, index) ∧
    m.visibility = visibility

/-- What a table holds is the last declaration of a trait that provides the key. -/
theorem provides_of_traitMember? {m : FlatMember}
    (h : (ofProgram symbols modules sources).traitMember? id key = some m) :
    Provides symbols key m.source id ∧ DeclaresLast symbols key m.source m.index m.visibility := by
  refine traitMember?_induction (P := fun id m => Provides symbols key m.source id ∧
    DeclaresLast symbols key m.source m.index m.visibility) ?own ?composed h
  case own =>
    intro id owner m index howner _ hlast
    have hdeclares : owner.Declares key := by
      by_contra hundeclared
      rw [Symbol.lastMember?_eq_none_iff.2 hundeclared] at hlast
      cases hlast
    exact ⟨.own howner hdeclares, owner, m, howner, hlast, rfl⟩
  case composed =>
    rintro id owner target entry howner hlast hused ⟨hprovides, hdeclared⟩
    have hundeclared := Symbol.lastMember?_eq_none_iff.1 hlast
    have hleads := (SymbolTable.leads_keptGraph howner).2 hused
    exact ⟨.composed howner hundeclared hleads hprovides, hdeclared⟩

/-- A trait to which the key is provided has it in its table. -/
theorem Provides.isSome_traitMember? {source : SymbolId} (h : Provides symbols key source id)
    (htrait : id ∈ symbols.ofKind .trait) :
    ((ofProgram symbols modules sources).traitMember? id key).isSome := by
  induction h with
  | own hs hdeclares =>
    obtain ⟨owner, howner, hkind⟩ := SymbolTable.mem_ofKind.1 htrait
    cases hs.symm.trans howner
    exact (traitRow howner hkind key).present.2 (.inl hdeclares)
  | composed howner _ hleads _ ih =>
    obtain ⟨owner', howner', hkind⟩ := SymbolTable.mem_ofKind.1 htrait
    cases howner.symm.trans howner'
    refine (traitRow howner hkind key).present.2
      (.inr ⟨_, (SymbolTable.leads_keptGraph howner).1 hleads, ih ?_⟩)
    exact symbols.closed_useGraph _ _ hleads.of_drop

/-- A class to which the key is provided inherits it. -/
theorem Provides.isSome_inheritedMember? {source : SymbolId} {owner : Symbol}
    (h : Provides symbols key source id) (howner : symbols.get? id = some owner)
    (hclass : owner.kind = .class) (hundeclared : ¬ owner.Declares key) :
    ((ofProgram symbols modules sources).inheritedMember? id key).isSome := by
  cases h with
  | own hs hdeclares =>
    cases howner.symm.trans hs
    exact absurd hdeclares hundeclared
  | composed _ _ hleads hused =>
    refine (classRow howner hclass key).present.2
      ⟨hundeclared, _, (SymbolTable.leads_keptGraph howner).1 hleads,
        hused.isSome_traitMember? ?_⟩
    exact symbols.closed_useGraph _ _ hleads.of_drop

/-- What a class inherits is the last declaration of a trait that provides the key. -/
theorem provides_of_inheritedMember? {owner : Symbol} {r : InheritedMember}
    (howner : symbols.get? id = some owner) (hclass : owner.kind = .class)
    (h : (ofProgram symbols modules sources).inheritedMember? id key = some r) :
    Provides symbols key r.source id ∧ DeclaresLast symbols key r.source r.index r.visibility := by
  obtain ⟨hundeclared, target, hused, entry, hentry, rfl⟩ :=
    exists_entry_of_inheritedMember? howner hclass h
  obtain ⟨hprovides, hdeclared⟩ := provides_of_traitMember? hentry
  exact ⟨.composed howner hundeclared ((SymbolTable.leads_keptGraph howner).2 hused) hprovides,
    hdeclared⟩

/-- Where all clauses bring in one trait that declares the key, it alone provides the key. -/
theorem provides_iff_of_leads {T : SymbolId} {t owner : Symbol} (ht : symbols.get? T = some t)
    (hdeclares : t.Declares key) (howner : symbols.get? id = some owner)
    (hundeclared : ¬ owner.Declares key)
    (hleads : ∀ used, symbols.keptGraph.Leads id used ↔ used = T)
    (source : SymbolId) : Provides symbols key source id ↔ source = T := by
  constructor
  · intro h
    cases h with
    | own hs hown =>
      cases howner.symm.trans hs
      exact absurd hown hundeclared
    | composed _ _ hused hprovides =>
      cases (hleads _).1 hused
      cases hprovides with
      | own => rfl
      | composed ht' hundeclared' =>
        cases ht.symm.trans ht'
        exact absurd hdeclares hundeclared'
  · rintro rfl
    exact .composed howner hundeclared ((hleads source).2 rfl) (.own ht hdeclares)

end Flattening

namespace Analysis

variable {units : List ParsedUnit} {T C : SymbolId} {t c : Symbol} {key : MemberKey}

/-- What a lookup finds on the trait `T` that declares the key, and what one finds on a class that
has the key from `T` alone. -/
structure FindsFirstAndLast (T : SymbolId) (t : Symbol) (key : MemberKey)
    (direct composed : ResolvedMember) : Prop where
  sources : direct.source = T ∧ composed.source = T
  first : ∃ m, (t.declarations key).head? = some (m, direct.index) ∧
    direct.visibility = m.visibility
  last : ∃ m, (t.declarations key).getLast? = some (m, composed.index) ∧
    composed.visibility = m.visibility
  /-- They are one declaration exactly if the trait declares the key once. -/
  agree : direct.index = composed.index ↔ (t.declarations key).length = 1
  visibility : (t.declarations key).length = 1 → direct.visibility = composed.visibility

theorem FindsFirstAndLast.of_first_last {direct composed : ResolvedMember} {first last : Member}
    (hsources : direct.source = T ∧ composed.source = T)
    (hfirst : (t.declarations key).head? = some (first, direct.index))
    (hlast : (t.declarations key).getLast? = some (last, composed.index))
    (hdirect : direct.visibility = first.visibility)
    (hcomposed : composed.visibility = last.visibility) :
    FindsFirstAndLast T t key direct composed where
  sources := hsources
  first := ⟨first, hfirst, hdirect⟩
  last := ⟨last, hlast, hcomposed⟩
  agree := Symbol.index_eq_iff_length hfirst hlast
  visibility hlength := by
    obtain ⟨only, honly⟩ := List.length_eq_one_iff.1 hlength
    rw [honly] at hfirst hlast
    have hsame : (first, direct.index) = (last, composed.index) :=
      Option.some.inj (hfirst.symm.trans hlast)
    rw [hdirect, hcomposed, (Prod.mk.inj hsame).1]

/-- A lookup on a symbol that declares the key finds its first declaration. -/
theorem resolveMember?_of_declares (ht : (collected units).symbols.get? T = some t)
    (hdeclares : t.Declares key) :
    ∃ direct m, (checked units).flattening.resolveMember? (checked units).symbols T key =
      some direct ∧ direct.source = T ∧
      (t.declarations key).head? = some (m, direct.index) ∧ direct.visibility = m.visibility := by
  cases hfirst : (t.declarations key).head? with
  | none =>
    exact absurd (List.head?_eq_none_iff.1 hfirst) (Symbol.declarations_ne_nil_iff.2 hdeclares)
  | some first =>
    obtain ⟨m, index⟩ := first
    have hmember : t.member? key.kind key.name = some (index, m) := by
      rw [Symbol.member?_eq_head?, hfirst, Option.map_some]
    have hchecked := get?_checked units T
    rw [ht, Option.map_some] at hchecked
    exact ⟨_, m, Flattening.resolveMember?_eq_some_iff.2 (.own hchecked hmember), rfl, rfl, rfl⟩

/-- A lookup on a class to which the key is provided finds the last declaration of some trait that
provides it. -/
theorem resolveMember?_of_provides (hc : (collected units).symbols.get? C = some c)
    (hclass : c.kind = .class) (hundeclared : ¬ c.Declares key)
    (hprovides : Flattening.Provides (collected units).symbols key T C) :
    ∃ composed, (checked units).flattening.resolveMember? (checked units).symbols C key =
      some composed ∧ Flattening.Provides (collected units).symbols key composed.source C ∧
      Flattening.DeclaresLast (collected units).symbols key composed.source composed.index
        composed.visibility := by
  obtain ⟨r, hr⟩ :=
    Option.isSome_iff_exists.1 (hprovides.isSome_inheritedMember? hc hclass hundeclared)
  have hchecked := get?_checked units C
  rw [hc, Option.map_some] at hchecked
  exact ⟨_, Flattening.resolveMember?_eq_some_iff.2 (.inherited hchecked hundeclared hclass hr),
    Flattening.provides_of_inheritedMember? hc hclass hr⟩

/-- A class that has a key from one trait alone finds the trait's last declaration of it, and a
lookup on the trait finds the first one. -/
theorem direct_and_composed_lookup (policy : Policy) (units : List ParsedUnit)
    (ht : (collected units).symbols.get? T = some t) (hdeclares : t.Declares key)
    (hc : (collected units).symbols.get? C = some c) (hclass : c.kind = .class)
    (hundeclared : ¬ c.Declares key)
    (honly : ∀ source, Flattening.Provides (collected units).symbols key source C ↔ source = T) :
    ∃ direct composed,
      (ofUnits policy units).flattening.resolveMember? (ofUnits policy units).symbols T key =
        some direct ∧
      (ofUnits policy units).flattening.resolveMember? (ofUnits policy units).symbols C key =
        some composed ∧
      FindsFirstAndLast T t key direct composed := by
  obtain ⟨direct, first, hdirect, hsource, hfirst, hvisibility⟩ :=
    resolveMember?_of_declares ht hdeclares
  obtain ⟨composed, hcomposed, hprovides, s, last, hs, hlast, hvisibility'⟩ :=
    resolveMember?_of_provides hc hclass hundeclared ((honly T).2 rfl)
  have hsource' : composed.source = T := (honly composed.source).1 hprovides
  rw [hsource'] at hs
  cases ht.symm.trans hs
  exact ⟨direct, composed, hdirect, hcomposed,
    .of_first_last ⟨hsource, hsource'⟩ hfirst hlast hvisibility hvisibility'.symm⟩

/-- A trait that declares one method twice and another one once, and a class that uses it. -/
def repeatedMember : List SourceFile :=
  [⟨"a.php", "<?hh\nmodule M;\ntrait T \x7b\n  function m(): void \x7b\x7d\n"
    ++ "  internal function m(): void \x7b\x7d\n  internal function n(): void \x7b\x7d\n\x7d\n"
    ++ "class C \x7b use T; \x7d\n"⟩]

/-- The trait is on no cycle, and the class has both methods from it alone. -/
theorem only_provider_repeatedMember :
    ∃ t c, (collected (parseProgram repeatedMember)).symbols.get? ⟨0⟩ = some t ∧ t.kind = .trait ∧
      ¬ (collected (parseProgram repeatedMember)).symbols.useGraph.UsesItself ⟨0⟩ ∧
      (collected (parseProgram repeatedMember)).symbols.get? ⟨1⟩ = some c ∧ c.kind = .class ∧
      ∀ key ∈ [⟨.method, "m"⟩, ⟨.method, "n"⟩], t.Declares key ∧ ¬ c.Declares key ∧ ∀ source,
        Flattening.Provides (collected (parseProgram repeatedMember)).symbols key source ⟨1⟩ ↔
          source = ⟨0⟩ := by
  have hchecks : ((collected (parseProgram repeatedMember)).symbols.get? ⟨0⟩).any (fun t =>
        t.kind = .trait ∧ ∀ key ∈ [⟨.method, "m"⟩, ⟨.method, "n"⟩], t.Declares key) = true ∧
      ((collected (parseProgram repeatedMember)).symbols.get? ⟨1⟩).any (fun c =>
        c.kind = .class ∧ ∀ key ∈ [⟨.method, "m"⟩, ⟨.method, "n"⟩], ¬ c.Declares key) = true ∧
      (collected (parseProgram repeatedMember)).symbols.useGraph.uses ⟨0⟩ = [] ∧
      (collected (parseProgram repeatedMember)).symbols.keptGraph.uses ⟨1⟩ = [some ⟨0⟩] := by
    decide +kernel
  obtain ⟨htrait, hclass, hnone, huses⟩ := hchecks
  obtain ⟨t, ht, htrait⟩ := (Option.any_eq_true _ _).1 htrait
  obtain ⟨c, hc, hclass⟩ := (Option.any_eq_true _ _).1 hclass
  obtain ⟨htrait, hdeclares⟩ := of_decide_eq_true htrait
  obtain ⟨hclass, hundeclared⟩ := of_decide_eq_true hclass
  refine ⟨t, c, ht, htrait, fun hcycle => ?_, hc, hclass, fun key hkey =>
    ⟨hdeclares key hkey, hundeclared key hkey, Flattening.provides_iff_of_leads ht
      (hdeclares key hkey) hc (hundeclared key hkey) fun used => ?_⟩⟩
  · obtain ⟨next, hleads, _⟩ := Relation.TransGen.head'_iff.1 hcycle
    unfold UseGraph.Leads at hleads
    rw [hnone] at hleads
    cases hleads
  · unfold UseGraph.Leads
    rw [huses, List.mem_singleton, Option.some.injEq]

theorem direct_and_composed_lookup_repeatedMember :
    ∃ t direct composed,
      (collected (parseProgram repeatedMember)).symbols.get? ⟨0⟩ = some t ∧
      (ofFiles .default repeatedMember).flattening.resolveMember?
        (ofFiles .default repeatedMember).symbols ⟨0⟩ ⟨.method, "n"⟩ = some direct ∧
      (ofFiles .default repeatedMember).flattening.resolveMember?
        (ofFiles .default repeatedMember).symbols ⟨1⟩ ⟨.method, "n"⟩ = some composed ∧
      FindsFirstAndLast ⟨0⟩ t ⟨.method, "n"⟩ direct composed := by
  obtain ⟨t, c, ht, _, _, hc, hclass, hkeys⟩ := only_provider_repeatedMember
  obtain ⟨hdeclares, hundeclared, honly⟩ := hkeys ⟨.method, "n"⟩ (by simp)
  obtain ⟨direct, composed, hlookups⟩ := direct_and_composed_lookup .default
    (parseProgram repeatedMember) ht hdeclares hc hclass hundeclared honly
  exact ⟨t, direct, composed, ht, hlookups⟩

/-- The method that is declared twice is public on the trait and internal on the class. -/
theorem not_same_declaration :
    ¬ ∀ (policy : Policy) (units : List ParsedUnit) (T C : SymbolId) (t c : Symbol)
      (key : MemberKey), (collected units).symbols.get? T = some t → t.kind = .trait →
      ¬ (collected units).symbols.useGraph.UsesItself T → t.Declares key →
      (collected units).symbols.get? C = some c → c.kind = .class → ¬ c.Declares key →
      (∀ source, Flattening.Provides (collected units).symbols key source C ↔ source = T) →
      ((ofUnits policy units).flattening.resolveMember? (ofUnits policy units).symbols T key).map
          (fun m => (m.source, m.index, m.visibility)) =
        ((ofUnits policy units).flattening.resolveMember? (ofUnits policy units).symbols C key).map
          fun m => (m.source, m.index, m.visibility) := by
  intro hall
  obtain ⟨t, c, ht, htrait, hcycle, hc, hclass, hkeys⟩ := only_provider_repeatedMember
  obtain ⟨hdeclares, hundeclared, honly⟩ := hkeys ⟨.method, "m"⟩ (by simp)
  have hsame := hall .default (parseProgram repeatedMember) _ _ t c ⟨.method, "m"⟩ ht htrait hcycle
    hdeclares hc hclass hundeclared honly
  revert hsame
  decide +kernel

end Analysis
end ModuleVisibility
