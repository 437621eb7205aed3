import ModuleVisibility.Proofs.Cycle
import ModuleVisibility.Proofs.Frame
import ModuleVisibility.Proofs.Reading

/-!
What a composer cannot change. A class that uses a module-level trait runs the trait's members in
the modules in which they ran before, so the references in them that name their class are denied
what they were denied, and nothing more.
-/
namespace ModuleVisibility

/-! What a class has from its only trait. -/

namespace Flattening

variable {symbols : SymbolTable} {modules : ModuleGraph} {sources : SourceMap} {id : SymbolId}
  {key : MemberKey}

theorem holds_of_traitMember? {m : FlatMember}
    (h : (ofProgram symbols modules sources).traitMember? id key = some m) :
    (ofProgram symbols modules sources).Holds id key m := by
  obtain ⟨table, htable, hm⟩ := Option.bind_eq_some_iff.1 h
  exact ⟨table, htable, (MemberTable.mem_entries_iff (sorted_traits id table htable)).2 hm⟩

/-- A class that uses one trait inherits what the trait's table holds. -/
theorem exists_holds_of_inherits {target : SymbolId} {owner : Symbol} {r : InheritedMember}
    (howner : symbols.get? id = some owner)
    (hone : ∀ used ∈ symbols.keptUses id owner, used = target)
    (hr : (ofProgram symbols modules sources).Inherits id key r) :
    ∃ m, (ofProgram symbols modules sources).Holds target key m ∧ r.source = m.source ∧
      r.index = m.index ∧ r.home = m.origin.resolve owner.home := by
  obtain ⟨table, htable, hmem⟩ := hr
  obtain ⟨owner', howner', hclass, hentry⟩ := of_mem_inherited htable hmem
  cases howner.symm.trans howner'
  obtain ⟨_, used, hused, m, hm, rfl⟩ := exists_entry_of_inheritedMember? howner hclass hentry
  rw [hone used hused] at hm
  exact ⟨m, holds_of_traitMember? hm, rfl, rfl, rfl⟩

/-- No trait has its own members from another one, for the chain would lead back to it. -/
theorem eq_nil_of_delivers {rest : List SymbolId} {m : FlatMember} {f : Flattening}
    (h : Delivers symbols f id rest key m) (hown : m.source = id) : rest = [] := by
  cases rest with
  | nil => rfl
  | cons next rest =>
    obtain ⟨hleads, hchain⟩ := List.isChain_cons_cons.1 h.uses
    have hlast : (next :: rest).getLast (List.cons_ne_nil next rest) = id := by
      have hsource := h.source
      rw [List.getLast?_cons_cons, List.getLast?_eq_getLast_of_ne_nil (List.cons_ne_nil next rest)]
        at hsource
      exact (Option.some.inj hsource).trans hown
    have hback := List.relationReflTransGen_of_exists_isChain_cons rest hchain hlast
    exact (UseGraph.not_usesItself_of_ends (symbols.ends_keptGraph id)
      (Relation.TransGen.head' hleads hback)).elim

/-- The own members of a module-level trait belong to the trait's module. -/
theorem origin_of_own {owner : Symbol} {m : FlatMember} (howner : symbols.get? id = some owner)
    (hlevel : owner.isModuleLevelTrait = true)
    (hm : (ofProgram symbols modules sources).Holds id key m) (hown : m.source = id) :
    m.origin = .pinned owner.home := by
  obtain ⟨rest, hrest⟩ := exists_delivers (traitMember?_of_holds hm)
  have hnil := eq_nil_of_delivers hrest hown
  rw [hrest.origin, hnil, SymbolTable.pinnedHome?_cons, pin?_eq howner, if_pos hlevel]
  rfl

end Flattening

/-! Runs in the same module. -/

namespace CheckedProgram

variable {p : CheckedProgram} {e e' : Execution}

theorem useSymbol_of_accessor (h : e'.accessor = e.accessor) (target : Symbol) :
    p.useSymbol e' target = p.useSymbol e target := by
  unfold useSymbol
  rw [h]

theorem useMember_of_accessor (h : e'.accessor = e.accessor) (id : SymbolId) (owner : Symbol)
    (isCurrent : Bool) (key : MemberKey) :
    p.useMember e' id owner isCurrent key = p.useMember e id owner isCurrent key := by
  unfold useMember
  rw [h]

/-- What comes of a reference that names its class depends on the module of the run alone. -/
theorem outcomes_of_accessor (h : e'.accessor = e.accessor) {kind : ReferenceKind}
    (hnamed : kind.isCurrent = false) : p.outcomes e' kind = p.outcomes e kind := by
  cases kind with
  | call name fallback => simp only [outcomes, useSymbol_of_accessor h]
  | constant name fallback => simp only [outcomes, useSymbol_of_accessor h]
  | new owner =>
    cases owner with
    | current => cases hnamed
    | named name => simp only [outcomes, useSymbol_of_accessor h]
  | member owner name kind isStatic =>
    cases owner with
    | current => cases hnamed
    | named owner =>
      simp only [outcomes, useMemberOf, useSymbol_of_accessor h, useMember_of_accessor h]

theorem exists_of_mem_deniedIn {sources : SourceMap} {d : Diagnostic}
    (h : d ∈ p.deniedIn sources e) :
    ∃ r ∈ e.body, d.location = sources.locate e.unit r.span ∧
      ∃ o ∈ p.outcomes e r.kind, p.violation? sources ⟨e, r.span, o⟩ = some d := by
  obtain ⟨r, hr, hd⟩ := List.mem_flatMap.1 h
  obtain ⟨o, ho, hreport⟩ := List.mem_filterMap.1 hd
  refine ⟨r, hr, ?_, o, ho, hreport⟩
  cases o with
  | denied what name home =>
    cases hreport
    rfl
  | unresolved name => cases hreport

/-- A run of the same body in the same module is denied the same at references that name their
class. -/
theorem mem_deniedIn_of_same {sources : SourceMap} {d : Diagnostic} (hunit : e'.unit = e.unit)
    (hbody : e'.body = e.body) (haccessor : e'.accessor = e.accessor)
    (hnamed : ∀ r ∈ e.body, d.location = sources.locate e.unit r.span → r.kind.isCurrent = false)
    (h : d ∈ p.deniedIn sources e) : d ∈ p.deniedIn sources e' := by
  obtain ⟨r, hr, hplace, o, ho, hreport⟩ := exists_of_mem_deniedIn h
  refine List.mem_flatMap.2 ⟨r, hbody ▸ hr, List.mem_filterMap.2 ⟨o, ?_, ?_⟩⟩
  · rwa [outcomes_of_accessor haccessor (hnamed r hr hplace)]
  · rw [← hreport]
    unfold violation?
    simp only [hunit, haccessor]

end CheckedProgram

/-! The references of a trait. -/

/-- Whether a reference stands at the place that is in a member of the symbol and names its
class. -/
def Symbol.refersAt (s : Symbol) (place : Location) : Bool :=
  place.unit == s.unit && s.members.any fun m => m.body.any fun r =>
    !r.kind.isCurrent && r.span == place.span

/-- The denials at the references in the members of the symbol that name their class. -/
def Symbol.denials (s : Symbol) (ds : List Diagnostic) : List Diagnostic :=
  ds.filter fun d => d.kind = .internalAccessViolation && s.refersAt d.location

theorem Symbol.refersAt_iff {s : Symbol} {place : Location} : s.refersAt place = true ↔
    place.unit = s.unit ∧ ∃ m ∈ s.members, ∃ r ∈ m.body, r.kind.isCurrent = false ∧
      r.span = place.span := by
  simp [refersAt]

theorem Symbol.denials_sort (s : Symbol) (ds : List Diagnostic) :
    s.denials (Diagnostic.sort ds) = Diagnostic.sort (s.denials ds) :=
  filter_mergeSort Diagnostic.le_trans Diagnostic.le_total _ ds

theorem Symbol.denials_apply (s : Symbol) (policy : Policy) (ds : List Diagnostic) :
    s.denials (policy.apply ds) = policy.apply (s.denials ds) :=
  policy.filter_apply (fun d => by rw [Policy.kind_regrade, Policy.location_regrade]) ds

theorem Symbol.denials_filter (s : Symbol) (ds : List Diagnostic) :
    s.denials (ds.filter (·.kind = .internalAccessViolation)) = s.denials ds := by
  unfold denials
  rw [List.filter_filter]
  refine List.filter_congr fun d _ => ?_
  by_cases hkind : d.kind = .internalAccessViolation <;> simp [hkind]

namespace Analysis

variable {files : List SourceFile} {c : ParsedUnit} {id : SymbolId} {t : Symbol}

/-- Where a reference in the members of a symbol names its class, no reference stands that goes
through the running one. -/
theorem isCurrent_of_refersAt (ht : (checked (parseProgram files)).symbols.get? id = some t)
    {other : SymbolId} {s : Symbol}
    (hs : (checked (parseProgram files)).symbols.get? other = some s) {body : List Reference}
    (hbody : body ∈ s.content.bodies) {r : Reference} (hr : r ∈ body) {place : Location}
    (hunit : place.unit = s.unit) (hspan : place.span = r.span)
    (hrefers : t.refersAt place = true) :
    r.kind.isCurrent = false := by
  obtain ⟨hsame, m, hm, named, hnamed, hcurrent, hplace⟩ := Symbol.refersAt_iff.1 hrefers
  obtain ⟨u, hu, d, hd, _, hcontent⟩ := exists_declaration ht
  obtain ⟨u', hu', d', hd', _, hcontent'⟩ := exists_declaration hs
  rw [← hunit, hsame, hu] at hu'
  cases hu'
  obtain ⟨file, _, rfl⟩ := List.mem_map.1 (List.mem_of_getElem? hu)
  have hnamedIn : m.body ∈ d.content.bodies := by
    rw [← hcontent]
    exact DeclarationContent.mem_bodies_of_member hm
  have hrunning := isCurrent_eq_of_parseUnit hd' hd (hcontent' ▸ hbody) hnamedIn hr hnamed
    (by rw [hplace, hspan])
  rw [hrunning, hcurrent]

/-- The unit `c` declares nothing but a class with the single clause that uses the trait `t`; it has
nothing else to do with `units`. -/
structure Composes (units : List ParsedUnit) (t : Symbol) (c : ParsedUnit) : Prop where
  apart : Apart (units.map (·.unit)) [c.unit]
  declares : ∃ d clause members, c.unit.declarations = [d] ∧ d.content = .class [clause] members ∧
    clause.name = t.name

namespace Composes

variable {units : List ParsedUnit} (h : Composes units t c)
include h

theorem appendable : Appendable units [c] where
  apart := h.apart
  traits u hu d hd hkind := by
    obtain ⟨only, clause, members, honly, hcontent, _⟩ := h.declares
    rw [List.mem_singleton.1 hu, honly, List.mem_singleton] at hd
    rw [hd, hcontent] at hkind
    cases hkind

variable (ht : (checked units).symbols.get? id = some t)
include ht

/-- The new symbol is the class, and the only trait that it uses is the given one. -/
theorem of_new {new : SymbolId} {s : Symbol} (hnone : (collected units).symbols.get? new = none)
    (hs : (collected (units ++ [c])).symbols.get? new = some s) :
    units.length ≤ s.unit ∧ s.kind = .class ∧
      ∀ used ∈ (collected (units ++ [c])).symbols.keptUses new s, used = id := by
  obtain ⟨hunit, u, hu, d, hd, _, hcontent⟩ := h.appendable.of_new hnone hs
  obtain ⟨only, clause, members, honly, hclass, hname⟩ := h.declares
  rw [List.mem_singleton.1 hu, honly, List.mem_singleton] at hd
  rw [hd, hclass] at hcontent
  refine ⟨hunit, by rw [Symbol.kind, hcontent]; rfl, fun used hused => ?_⟩
  have hleads := ((SymbolTable.leads_keptGraph hs).2 hused).of_drop
  unfold UseGraph.Leads at hleads
  rw [SymbolTable.uses_useGraph hs, Symbol.uses, hcontent] at hleads
  obtain ⟨found, hfound, htarget⟩ := List.mem_map.1 hleads
  cases List.mem_singleton.1 hfound
  obtain ⟨_, hfind, _⟩ := SymbolTable.useTarget?_eq_some_iff.1 htarget
  have hold := SymbolTable.find?_of_grown h.appendable.collected.symbols
    (find?_checked units t.name ▸ (distinctNames_checked units).find? ht)
  rw [hname, hold] at hfind
  exact (Option.some.inj hfind).symm

/-- What the class inherits, the table of the trait held before. -/
theorem exists_holds {new : SymbolId} {key : MemberKey} {r : InheritedMember}
    (hlevel : t.isModuleLevelTrait = true) (hnone : (collected units).symbols.get? new = none)
    (hr : (checked (units ++ [c])).flattening.Inherits new key r) :
    ∃ m home, (checked units).flattening.Holds id key m ∧ m.origin = .pinned home ∧
      r.source = m.source ∧ r.index = m.index ∧ r.home = home := by
  have hinherits := hr
  obtain ⟨_, htable, hmem⟩ := hinherits
  obtain ⟨owner, howner, _, _⟩ := Flattening.of_mem_inherited htable hmem
  obtain ⟨_, _, hone⟩ := h.of_new ht hnone howner
  obtain ⟨m, hm, hsource, hindex, hhome⟩ := Flattening.exists_holds_of_inherits howner hone hr
  have hheld : (checked units).flattening.Holds id key m := (h.appendable.holds_iff ht).1 hm
  obtain ⟨home, horigin⟩ := pinned_ofUnits .default units ht hlevel hheld
  rw [horigin] at hhome
  exact ⟨m, home, hheld, horigin, hsource, hindex, hhome⟩

theorem extended (hlevel : t.isModuleLevelTrait = true) :
    (checked units).Extended (checked (units ++ [c])) := by
  refine h.appendable.checked fun other s hs hordinary index =>
    h.appendable.mem_relocated_iff (fun new key r hnone hr _ _ _ => ?_) hs hordinary index
  obtain ⟨m, _, hm, _, hsource, hindex, _⟩ := h.exists_holds ht hlevel hnone hr
  exact .inr ⟨id, t, key, m, ht, hlevel, hm, hsource.symm, hindex.symm⟩

/-- A member that the class has from the trait ran in the same module before. -/
theorem exists_runs {new : SymbolId} {key : MemberKey} {r : InheritedMember} {source : Symbol}
    {m : Member} (hlevel : t.isModuleLevelTrait = true)
    (hnone : (collected units).symbols.get? new = none)
    (hr : (checked (units ++ [c])).flattening.Inherits new key r)
    (hsource : (checked (units ++ [c])).symbols.get? r.source = some source)
    (hm : source.members[r.index]? = some m) :
    ∃ e, (ofUnits .default units).Runs e ∧ e.unit = source.unit ∧ e.accessor = r.home ∧
      e.body = m.body := by
  obtain ⟨entry, home, hentry, horigin, hfrom, hindex, hhome⟩ := h.exists_holds ht hlevel hnone hr
  have hold : (checked units).symbols.get? r.source = some source := by
    obtain ⟨s, hs⟩ := Option.isSome_iff_exists.1 (isSome_of_holds hentry)
    rw [hfrom] at hsource ⊢
    exact hs.trans ((h.appendable.get?_checked_append hs).symm.trans hsource)
  by_cases hown : entry.source = id
  · rw [hfrom, hown, ht] at hold
    cases hold
    obtain ⟨old, hget, hsame⟩ := of_get?_checked ht
    have hhere : entry.origin = .pinned old.home :=
      Flattening.origin_of_own hget (by rw [hsame] at hlevel; exact hlevel) hentry hown
    rw [horigin] at hhere
    refine ⟨_, .traitMember ht (Symbol.kind_of_isModuleLevelTrait hlevel) hm
      (.inl hlevel), rfl, ?_, rfl⟩
    rw [hhome, Origin.pinned.inj hhere, hsame]
  · rw [hfrom] at hold
    rw [hindex] at hm
    exact ⟨_, .composed ht hlevel hentry hown horigin hold hm, rfl, hhome.symm, rfl⟩

/-- What the class brings about runs in its own unit, or it is a body that ran in the same module
before. -/
theorem of_mem_newExecutions (hlevel : t.isModuleLevelTrait = true) {e : Execution}
    (he : e ∈ (checked units).newExecutions (checked (units ++ [c]))) : units.length ≤ e.unit ∨
      ∃ e₀, (ofUnits .default units).Runs e₀ ∧ e₀.unit = e.unit ∧ e₀.accessor = e.accessor ∧
        e₀.body = e.body := by
  obtain ⟨new, s, hnone, hs, hrun⟩ := CheckedProgram.mem_newExecutions.1 he
  rw [get?_checked_eq_none_iff] at hnone
  obtain ⟨old, hold, hsame⟩ := of_get?_checked hs
  obtain ⟨hunit, hclass, _⟩ := h.of_new ht hnone hold
  have hclass : s.kind = .class := by
    rw [hsame]
    exact hclass
  have hunit : units.length ≤ s.unit := by
    rw [hsame]
    exact hunit
  unfold CheckedProgram.symbolExecutions at hrun
  rw [hclass] at hrun
  rcases List.mem_append.1 hrun with hown | hinherited
  · obtain ⟨m, _, rfl⟩ := List.mem_map.1 hown
    exact .inl hunit
  · obtain ⟨r, hr, hrun⟩ := List.mem_filterMap.1 hinherited
    obtain ⟨key, hkey⟩ := CheckedProgram.mem_inheritedBy.1 hr
    obtain ⟨⟨unit, m⟩, hdeclared, rfl⟩ := Option.map_eq_some_iff.1 hrun
    obtain ⟨source, hsource, hm, rfl⟩ := CheckedProgram.declared?_eq_some_iff.1 hdeclared
    exact .inr (h.exists_runs ht hlevel hnone hkey hsource hm)

end Composes

/-- What the class is denied at the references of the trait that name their class was denied
before. -/
theorem Composes.exists_denied {e : Execution} (h : Composes (parseProgram files) t c)
    (ht : (checked (parseProgram files)).symbols.get? id = some t)
    (hlevel : t.isModuleLevelTrait = true)
    (he : e ∈ (checked (parseProgram files)).newExecutions (checked (parseProgram files ++ [c])))
    {d : Diagnostic}
    (hd : d ∈ (checked (parseProgram files ++ [c])).deniedIn (texts (parseProgram files ++ [c])) e)
    (hrefers : t.refersAt d.location = true) :
    ∃ e₀ ∈ (checked (parseProgram files)).executions,
      d ∈ (checked (parseProgram files)).deniedIn (texts (parseProgram files)) e₀ := by
  have hplace : d.location.unit = t.unit := (Symbol.refersAt_iff.1 hrefers).1
  have hunit := CheckedProgram.unit_of_mem_deniedIn hd
  rcases h.of_mem_newExecutions ht hlevel he with hbeyond | ⟨e₀, hruns, hsame, haccessor, hbody⟩
  · obtain ⟨_, hu, _⟩ := exists_declaration ht
    have hlt := (List.getElem?_eq_some_iff.1 hu).1
    omega
  · have hnamed : ∀ r ∈ e.body,
        d.location = (texts (parseProgram files ++ [c])).locate e.unit r.span →
          r.kind.isCurrent = false := by
      intro r hr hlocation
      obtain ⟨source, symbol, hsymbol, hhome, hin⟩ := hruns.exists_body
      refine isCurrent_of_refersAt ht hsymbol (hbody ▸ hin) hr ?_ ?_ hrefers
      · rw [hunit, ← hsame, hhome]
      · rw [hlocation, SourceMap.span_locate]
    refine ⟨e₀, (mem_executions_iff (pinned_ofUnits .default _)).2 hruns, ?_⟩
    rw [← h.appendable.deniedIn (h.extended ht hlevel) hruns]
    exact CheckedProgram.mem_deniedIn_of_same hsame hbody haccessor hnamed hd

theorem Composes.denials_violations (h : Composes (parseProgram files) t c)
    (ht : (checked (parseProgram files)).symbols.get? id = some t)
    (hlevel : t.isModuleLevelTrait = true) :
    t.denials ((checked (parseProgram files ++ [c])).violations
      (texts (parseProgram files ++ [c]))) =
      t.denials ((checked (parseProgram files)).violations (texts (parseProgram files))) := by
  rw [h.appendable.violations (h.extended ht hlevel), CheckedProgram.violations_eq]
  apply filter_distinctBy_append_known
  intro d hd hdenial
  obtain ⟨e, he, hd⟩ := List.mem_flatMap.1 hd
  obtain ⟨e₀, he₀, hd₀⟩ := h.exists_denied ht hlevel he hd (Bool.and_eq_true_iff.1 hdenial).2
  exact List.mem_map_of_mem (List.mem_flatMap.2 ⟨e₀, he₀, hd₀⟩)

/-- The check alone finds denials, and a policy and sorting leave them where they are. -/
theorem denials_diagnostics (t : Symbol) (policy : Policy) (units : List ParsedUnit) :
    t.denials (ofUnits policy units).diagnostics =
      Diagnostic.sort (policy.apply (t.denials ((checked units).violations (texts units)))) := by
  rw [diagnostics_ofUnits, t.denials_sort, t.denials_apply, ← filter_found, t.denials_filter]

/-- A class that uses a module-level trait does not change what is denied at the references in the
trait's members that name their class. -/
theorem denials_of_composes (policy : Policy) (files : List SourceFile) {id : SymbolId} {t : Symbol}
    (ht : (ofFiles policy files).symbols.get? id = some t) (hlevel : t.isModuleLevelTrait = true)
    {c : ParsedUnit} (h : Composes (parseProgram files) t c) :
    t.denials (ofUnits policy (parseProgram files ++ [c])).diagnostics =
      t.denials (ofFiles policy files).diagnostics := by
  have hfiles : (ofFiles policy files).diagnostics =
      (ofUnits policy (parseProgram files)).diagnostics :=
    rfl
  rw [hfiles, denials_diagnostics, denials_diagnostics, h.denials_violations ht hlevel]

/-- A module-level trait that calls what is internal to another module. -/
def guarded : List SourceFile :=
  [⟨"lib.php", "<?hh\nnew module Lib \x7b\x7d\nnew module App \x7b\x7d\nmodule App;\n"
      ++ "internal function secret(): void \x7b\x7d\n"⟩,
    ⟨"t.php", "<?hh\nmodule Lib;\n<<__ModuleLevelTrait>>\n"
      ++ "trait T \x7b function m(): void \x7b secret(); $this->m(); \x7d \x7d\n"⟩]

/-- A composer in the module to which the call is denied. -/
def composer : ParsedUnit := parseUnit ⟨"c.php", "<?hh\nmodule App;\nclass C \x7b use T; \x7d\n"⟩

/-- The call is denied with the composer as it was without, though the composer itself may make
it. -/
theorem denials_of_composes_guarded :
    ∃ t, (ofFiles .default guarded).symbols.get? ⟨1⟩ = some t ∧ t.isModuleLevelTrait = true ∧
      Composes (parseProgram guarded) t composer ∧
      t.denials (ofUnits .default (parseProgram guarded ++ [composer])).diagnostics =
        t.denials (ofFiles .default guarded).diagnostics ∧
      (t.denials (found (parseProgram guarded))).length = 1 := by
  have htrait : ((ofFiles .default guarded).symbols.get? ⟨1⟩).any (fun t =>
      t.isModuleLevelTrait && t.name == "T" &&
        (t.denials (found (parseProgram guarded))).length == 1) = true := by decide +kernel
  have hclass : composer.unit.declarations =
      [⟨"C", .public, ⟨23, 24⟩, .class [⟨"T", ⟨31, 32⟩⟩] []⟩] := by decide +kernel
  have hnames : (∀ name ∈ declaredNames [composer.unit],
        name ∉ declaredNames ((parseProgram guarded).map (·.unit)) ∧
        name ∉ lookedUpNames ((parseProgram guarded).map (·.unit)) ∧
        name ∉ moduleNames ((parseProgram guarded).map (·.unit))) ∧
      ∀ name ∈ moduleNames [composer.unit],
        name ∈ declaredNames ((parseProgram guarded).map (·.unit)) →
          name ∈ moduleNames ((parseProgram guarded).map (·.unit)) := by decide +kernel
  obtain ⟨t, ht, hchecks⟩ := (Option.any_eq_true _ _).1 htrait
  obtain ⟨hchecks, hdenied⟩ := Bool.and_eq_true_iff.1 hchecks
  obtain ⟨hlevel, hname⟩ := Bool.and_eq_true_iff.1 hchecks
  obtain ⟨hdeclared, hmodules⟩ := hnames
  have hcomposes : Composes (parseProgram guarded) t composer :=
    ⟨⟨fun name hmem => (hdeclared name hmem).1, fun name hmem => (hdeclared name hmem).2.1,
      fun name hmem => (hdeclared name hmem).2.2, hmodules⟩,
      _, _, _, hclass, rfl, (beq_iff_eq.1 hname).symm⟩
  exact ⟨t, ht, hlevel, hcomposes, denials_of_composes .default guarded ht hlevel hcomposes,
    beq_iff_eq.1 hdenied⟩

end Analysis
end ModuleVisibility
