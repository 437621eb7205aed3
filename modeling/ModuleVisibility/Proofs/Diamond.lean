import ModuleVisibility.Proofs.Narrowing
import ModuleVisibility.Proofs.Origin
import ModuleVisibility.Proofs.PermutedClauses
import ModuleVisibility.Proofs.RewiredAnalysis

/-!
A member that reaches a class twice. Of two clauses that bring in one declared member, of one module
in the end, the first makes the entry and the second one is passed over with all that it carries. So
the entry tells whether the first way leads over an unresolved trait, and not whether the second
does: with the clauses exchanged the member is of the same module, but where just one of the ways is
degraded, another visibility is enforced.
-/
namespace ModuleVisibility

namespace Flattening

variable {t : SymbolTable} {modules : ModuleGraph} {sources : SourceMap} {id : SymbolId}
  {owner : Symbol} {key : MemberKey} {i j : Nat} {x y : SymbolId} {m n : FlatMember}

/-- The clauses at `i` and `j` of `owner` bring in the traits `x` and `y`, which have the key for
one declared member of one module in the end; the owner does not declare the key, and no other
clause brings it in. -/
structure Diamond (t : SymbolTable) (f : Flattening) (owner : Symbol) (key : MemberKey) (i j : Nat)
    (x y : SymbolId) (m n : FlatMember) : Prop where
  ordered : i < j
  first : owner.uses[i]?.bind t.useTarget? = some x
  second : owner.uses[j]?.bind t.useTarget? = some y
  entry : f.traitMember? x key = some m
  other : f.traitMember? y key = some n
  source : n.source = m.source
  index : n.index = m.index
  origin : n.origin.resolve owner.home = m.origin.resolve owner.home
  undeclared : ¬ owner.Declares key
  alone : ∀ k clause z, owner.uses[k]? = some clause → k ≠ i → k ≠ j →
    t.useTarget? clause = some z → f.traitMember? z key = none

/-- The entry of the trait `target` as the class `owner` inherits it. -/
def inheritedFrom (t : SymbolTable) (f : Flattening) (owner : Symbol) (target : SymbolId)
    (m : FlatMember) : InheritedMember where
  visibility := m.visibility
  home := m.origin.resolve owner.home
  source := m.source
  index := m.index
  via := target
  isDegraded := m.isDegraded || degrades t f target

/-- Without cycles a class inherits the winner among what its clauses provide. -/
theorem inheritedMember?_of_acyclic (hacyclic : t.useGraph.Acyclic)
    (howner : t.get? id = some owner) (hclass : owner.kind = .class)
    (hundeclared : ¬ owner.Declares key) :
    (ofProgram t modules sources).inheritedMember? id key =
      (Composition.winnerOf (owner.uses.filterMap fun clause => (t.useTarget? clause).bind
        (provided? t (ofProgram t modules sources) (Origin.throughClass owner) key))).map
        (InheritedMember.ofFlat owner.home) := by
  rw [inheritedMember?_of_class howner hclass, if_neg hundeclared, keptUses_of_acyclic hacyclic,
    List.filterMap_filterMap]

/-- Of two entries of one member the class inherits the one that it meets first. -/
theorem winnerOf_pair {f : Flattening} (hsource : n.source = m.source) (hindex : n.index = m.index)
    (horigin : n.origin.resolve owner.home = m.origin.resolve owner.home) :
    (Composition.winnerOf
      [Composition.bring (Origin.throughClass owner) x (degrades t f x) m,
        Composition.bring (Origin.throughClass owner) y (degrades t f y) n]).map
      (InheritedMember.ofFlat owner.home) = some (inheritedFrom t f owner x m) := by
  have hsame : Composition.isSameMember
      (Composition.bring (Origin.throughClass owner) x (degrades t f x) m)
      (Composition.bring (Origin.throughClass owner) y (degrades t f y) n) = true := by
    simp [Composition.isSameMember, Composition.bring, Origin.throughClass, hsource,
      hindex, horigin]
  simp only [Composition.winnerOf, List.foldl_cons, List.foldl_nil,
    Composition.winner, hsame, if_true]
  rfl

section

variable (hacyclic : t.useGraph.Acyclic) (howner : t.get? id = some owner)
  (hclass : owner.kind = .class)
include hacyclic howner hclass

/-- With its clauses in another order a class meets the same members. -/
theorem inheritedMember?_rewire {f : List UseClause → List UseClause}
    (hf : ∀ uses, (f uses).Perm uses) (hundeclared : ¬ owner.Declares key) :
    (ofProgram (t.rewire id f) modules sources).inheritedMember? id key =
      (Composition.winnerOf ((f owner.uses).filterMap fun clause => (t.useTarget? clause).bind
        (provided? t (ofProgram t modules sources) (Origin.throughClass owner) key))).map
        (InheritedMember.ofFlat owner.home) := by
  obtain ⟨owner', howner', hbare⟩ :=
    SymbolTable.exists_get?_of_bare_eq (t.bare_rewire (f := f) id) howner
  have hkind : owner'.kind = owner.kind := Symbol.eq_of_bare_eq hbare Symbol.kind_bare
  have hmembers : owner'.members = owner.members := Symbol.eq_of_bare_eq hbare Symbol.members_bare
  have hhome : owner'.home = owner.home := Symbol.eq_of_bare_eq hbare fun _ => rfl
  have hthrough : Origin.throughClass owner' = Origin.throughClass owner :=
    Symbol.eq_of_bare_eq hbare fun _ => rfl
  have htarget := SymbolTable.useTarget?_of_bare_eq (t.bare_rewire (f := f) id)
  have htraits := traits_of_rewired (rewired_of_class modules sources hf hacyclic howner hclass)
  have hdegrades : degrades (t.rewire id f) (ofProgram (t.rewire id f) modules sources) =
      degrades t (ofProgram t modules sources) :=
    funext (sameBare_rewire modules sources hf hacyclic).isUnresolved
  have hprovided : provided? (t.rewire id f) (ofProgram (t.rewire id f) modules sources) =
      provided? t (ofProgram t modules sources) := by
    funext through key target
    unfold provided? traitMember? traitMembers?
    rw [htraits, hdegrades]
  have hundeclared' : ¬ owner'.Declares key := by
    unfold Symbol.Declares
    rwa [hmembers]
  rw [inheritedMember?_of_acyclic (SymbolTable.acyclic_rewire hf hacyclic) howner'
    (hkind.trans hclass) hundeclared',
    SymbolTable.uses_of_get?_rewire (hf []).eq_nil howner howner', if_pos rfl, htarget, hprovided,
    hthrough, hhome]

/-- Of the two clauses the first one makes the entry, whichever that is. -/
theorem inheritedMember?_diamond
    (h : Diamond t (ofProgram t modules sources) owner key i j x y m n) :
    (ofProgram t modules sources).inheritedMember? id key =
        some (inheritedFrom t (ofProgram t modules sources) owner x m) ∧
      (ofProgram (t.rewire id (swapAt i j)) modules sources).inheritedMember? id key =
        some (inheritedFrom t (ofProgram t modules sources) owner y n) := by
  obtain ⟨first, hfirst, hx⟩ := Option.bind_eq_some_iff.1 h.first
  obtain ⟨second, hsecond, hy⟩ := Option.bind_eq_some_iff.1 h.second
  obtain ⟨hmet, hmet'⟩ := filterMap_swapAt
    (f := fun clause => (t.useTarget? clause).bind
      (provided? t (ofProgram t modules sources) (Origin.throughClass owner) key))
    hfirst hsecond h.ordered (by rw [hx, Option.bind_some, provided?, h.entry, Option.map_some])
    (by rw [hy, Option.bind_some, provided?, h.other, Option.map_some])
    fun k clause hclause hi hj => Option.bind_eq_none_iff.2 fun z hz => by
      rw [provided?, h.alone k clause z hclause hi hj hz, Option.map_none]
  constructor
  · rw [inheritedMember?_of_acyclic hacyclic howner hclass h.undeclared, hmet]
    exact winnerOf_pair h.source h.index h.origin
  · rw [inheritedMember?_rewire hacyclic howner hclass (perm_swapAt i j) h.undeclared, hmet']
    exact winnerOf_pair h.source.symm h.index.symm h.origin.symm

end

/-- Both entries have the visibility of the one declaration. -/
theorem Diamond.visibility (h : Diamond t (ofProgram t modules sources) owner key i j x y m n) :
    n.visibility = m.visibility := by
  obtain ⟨_, hentry⟩ := exists_delivers h.entry
  obtain ⟨_, hother⟩ := exists_delivers h.other
  have hdeclared := hother.declared
  rw [h.source, h.index] at hdeclared
  exact hdeclared.visibility_eq hentry.declared

end Flattening

/-- Of two members that differ in their degradation the same is enforced unless `internal` has force
for just one of them. -/
theorem InheritedMember.enforced_eq_iff {r r' : InheritedMember} {modules : ModuleGraph}
    (hvisibility : r'.visibility = r.visibility) (hhome : r'.home = r.home) :
    r'.enforced modules = r.enforced modules ↔ r'.isDegraded = r.isDegraded ∨
      r.visibility = .public ∨ modules.scopesInternal r.home = false := by
  unfold enforced ModuleGraph.effective
  rw [hvisibility, hhome]
  cases r'.isDegraded <;> cases r.isDegraded <;> cases modules.scopesInternal r.home <;>
    cases r.visibility <;> simp

namespace Analysis

variable {units : List ParsedUnit} {site : DeclarationSite} {id : SymbolId} {owner : Symbol}
  {key : MemberKey} {i j : Nat} {x y : SymbolId} {m n : FlatMember}

/-- What the exchange of two clauses makes of the member that both bring in: from the one way `r` it
becomes `r'`, which the other way leads to. -/
structure ExchangesWay (a a' : Analysis) (id : SymbolId) (key : MemberKey)
    (r r' : InheritedMember) :
    Prop where
  before : a.flattening.inheritedMember? id key = some r
  after : a'.flattening.inheritedMember? id key = some r'
  source : r'.source = r.source
  index : r'.index = r.index
  visibility : r'.visibility = r.visibility
  home : r'.home = r.home
  modules : a'.modules = a.modules
  /-- What is enforced changes exactly where one way alone is degraded and `internal` has force. -/
  enforced : r'.enforced a'.modules = r.enforced a.modules ↔
    r'.isDegraded = r.isDegraded ∨ r.visibility = .public ∨ a.modules.scopesInternal r.home = false

/-- A class that gets one member by two clauses has it of the same module when they are exchanged;
it is degraded by the way that comes first. -/
theorem exchangesWay_of_diamond (policy : Policy) (units : List ParsedUnit)
    (hacyclic : (collected units).symbols.useGraph.Acyclic)
    (hsite : owner? site units = some id)
    (howner : (collected units).symbols.get? id = some owner) (hclass : owner.kind = .class)
    (h : Flattening.Diamond (collected units).symbols
      (ofUnits policy units).flattening owner key i j
      x y m n) :
    ExchangesWay (ofUnits policy units) (ofUnits policy (site.rewire (swapAt i j) units)) id key
      (Flattening.inheritedFrom (collected units).symbols
        (ofUnits policy units).flattening owner x m)
      (Flattening.inheritedFrom (collected units).symbols (ofUnits policy units).flattening
        owner y n) := by
  have hflattening : (ofUnits policy units).flattening =
      flattened units (collected units).symbols := flattening_checked units
  have hflattening' : (ofUnits policy (site.rewire (swapAt i j) units)).flattening =
      flattened units ((collected units).symbols.rewire id (swapAt i j)) := flattening_rewire hsite
  have hmodules : (ofUnits policy (site.rewire (swapAt i j) units)).modules =
      (ofUnits policy units).modules := modules_rewire hsite
  rw [hflattening] at h ⊢
  obtain ⟨hbefore, hafter⟩ := Flattening.inheritedMember?_diamond hacyclic howner hclass h
  refine ⟨?_, ?_, h.source, h.index, h.visibility, h.origin, hmodules, ?_⟩
  · rw [hflattening]
    exact hbefore
  · rw [hflattening']
    exact hafter
  · rw [hmodules]
    exact InheritedMember.enforced_eq_iff h.visibility h.origin

/-- A class that gets an internal method of a trait directly and by another trait, which is declared
twice. -/
def sharedMember : List SourceFile :=
  [⟨"a.php", "<?hh\nmodule M;\ntrait T \x7b internal function m(): void \x7b\x7d \x7d\n"
    ++ "trait A \x7b use T; \x7d\ntrait A \x7b\x7d\nclass C \x7b use T; use A; \x7d\n"⟩,
    ⟨"b.php", "<?hh\nmodule N;\nfunction f(): void \x7b (new C())->m(); \x7d\n"⟩]

theorem diamond_sharedMember : ∃ owner,
    (collected (parseProgram sharedMember)).symbols.get? ⟨2⟩ = some owner ∧ owner.kind = .class ∧
      Flattening.Diamond (collected (parseProgram sharedMember)).symbols
        (ofFiles .default sharedMember).flattening owner ⟨.method, "m"⟩ 0 1 ⟨0⟩ ⟨1⟩
        ⟨.internal, .composer, ⟨0⟩, 0, ⟨0⟩, false⟩ ⟨.internal, .composer, ⟨0⟩, 0, ⟨0⟩, false⟩ := by
  let t := (collected (parseProgram sharedMember)).symbols
  have hchecks : ((t.get? ⟨2⟩).any fun owner =>
      owner.kind = .class && owner.uses.length = 2 && owner.uses[0]?.bind t.useTarget? = some ⟨0⟩ &&
        owner.uses[1]?.bind t.useTarget? = some ⟨1⟩ && !decide (owner.Declares ⟨.method, "m"⟩)) =
        true ∧
      (ofFiles .default sharedMember).flattening.traitMember? ⟨0⟩ ⟨.method, "m"⟩ =
        some ⟨.internal, .composer, ⟨0⟩, 0, ⟨0⟩, false⟩ ∧
      (ofFiles .default sharedMember).flattening.traitMember? ⟨1⟩ ⟨.method, "m"⟩ =
        some ⟨.internal, .composer, ⟨0⟩, 0, ⟨0⟩, false⟩ := by
    decide +kernel
  obtain ⟨hclass, hentry, hother⟩ := hchecks
  obtain ⟨owner, howner, hclass⟩ := (Option.any_eq_true _ _).1 hclass
  simp only [Bool.and_eq_true, decide_eq_true_eq, Bool.not_eq_true',
    decide_eq_false_iff_not] at hclass
  obtain ⟨⟨⟨⟨hkind, hlength⟩, hfirst⟩, hsecond⟩, hundeclared⟩ := hclass
  refine ⟨owner, howner, hkind, by decide, hfirst, hsecond, hentry, hother, rfl, rfl,
    rfl, hundeclared,
    fun k clause z hclause hi hj => ?_⟩
  have hlt := (List.getElem?_eq_some_iff.1 hclause).1
  omega

/-- By the first clause the method is internal, and with the two exchanged it is open to
everyone. -/
theorem exchangesWay_sharedMember : ∃ r r',
    (collected (parseProgram sharedMember)).symbols.useGraph.Acyclic ∧
      owner? ⟨0, 3⟩ (parseProgram sharedMember) = some ⟨2⟩ ∧
      r.isDegraded = false ∧ r'.isDegraded = true ∧
      ExchangesWay (ofFiles .default sharedMember) (ofUnits .default
        (DeclarationSite.rewire ⟨0, 3⟩ (swapAt 0 1) (parseProgram sharedMember))) ⟨2⟩
        ⟨.method, "m"⟩ r r' := by
  have hchecks : (collected (parseProgram sharedMember)).symbols.useGraph.Acyclic ∧
      owner? ⟨0, 3⟩ (parseProgram sharedMember) = some ⟨2⟩ ∧
      Flattening.degrades (collected (parseProgram sharedMember)).symbols
        (ofFiles .default sharedMember).flattening ⟨0⟩ = false ∧
      Flattening.degrades (collected (parseProgram sharedMember)).symbols
        (ofFiles .default sharedMember).flattening ⟨1⟩ = true := by
    decide +kernel
  obtain ⟨hacyclic, hsite, hplain, hdegraded⟩ := hchecks
  obtain ⟨owner, howner, hclass, hdiamond⟩ := diamond_sharedMember
  have hexchanged := exchangesWay_of_diamond .default (parseProgram sharedMember) hacyclic hsite
    howner hclass hdiamond
  refine ⟨_, _, hacyclic, hsite, ?_, ?_, hexchanged⟩
  · simp only [Flattening.inheritedFrom, Bool.false_or]
    exact hplain
  · simp only [Flattening.inheritedFrom, Bool.false_or]
    exact hdegraded

/-- So what is enforced does depend on the order of the clauses. -/
theorem not_enforced_in_either_order : ¬ ∀ site id owner key i j x y m n r r',
    (collected (parseProgram sharedMember)).symbols.useGraph.Acyclic →
    owner? site (parseProgram sharedMember) = some id →
    (collected (parseProgram sharedMember)).symbols.get? id = some owner → owner.kind = .class →
    Flattening.Diamond (collected (parseProgram sharedMember)).symbols
      (ofFiles .default sharedMember).flattening owner key i j x y m n →
    (ofFiles .default sharedMember).flattening.inheritedMember? id key = some r →
    (ofUnits .default (site.rewire (swapAt i j)
      (parseProgram sharedMember))).flattening.inheritedMember?
      id key = some r' →
    r'.enforced (ofFiles .default sharedMember).modules =
      r.enforced (ofFiles .default sharedMember).modules := by
  intro hall
  obtain ⟨owner, howner, hclass, hdiamond⟩ := diamond_sharedMember
  have hchecks : (collected (parseProgram sharedMember)).symbols.useGraph.Acyclic ∧
      owner? ⟨0, 3⟩ (parseProgram sharedMember) = some ⟨2⟩ ∧
      ((ofFiles .default sharedMember).flattening.inheritedMember? ⟨2⟩ ⟨.method, "m"⟩).map
        (·.enforced (ofFiles .default sharedMember).modules) = some .internal ∧
      ((ofUnits .default (DeclarationSite.rewire ⟨0, 3⟩ (swapAt 0 1)
        (parseProgram sharedMember))).flattening.inheritedMember? ⟨2⟩ ⟨.method, "m"⟩).map
        (·.enforced (ofFiles .default sharedMember).modules) = some .public := by
    decide +kernel
  obtain ⟨hacyclic, hsite, hbefore, hafter⟩ := hchecks
  obtain ⟨r, hr, hinternal⟩ := Option.map_eq_some_iff.1 hbefore
  obtain ⟨r', hr', hpublic⟩ := Option.map_eq_some_iff.1 hafter
  have hsame := hall _ _ _ _ _ _ _ _ _ _ _ _ hacyclic hsite howner hclass hdiamond hr hr'
  rw [hinternal, hpublic] at hsame
  cases hsame

end Analysis
end ModuleVisibility
