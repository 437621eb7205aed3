import Mathlib.Data.List.Count
import ModuleVisibility.Proofs.Violation

/-!
No body escapes the check. A body of a trait is left out in its own trait where a class or a
module-level trait has taken the member over, and there it runs instead; so whatever a body calls
without being declared is listed, however many runs the body has.
-/
namespace ModuleVisibility

/-- The bodies of a declaration: that of a function, or those of the members of a class or trait. -/
def DeclarationContent.bodies : DeclarationContent → List (List Reference)
  | .function body => [body]
  | .class _ members => members.map Member.body
  | .trait _ _ members => members.map Member.body
  | .constant => []

theorem DeclarationContent.mem_bodies_of_member {content : DeclarationContent} {m : Member}
    (h : m ∈ content.members) : m.body ∈ content.bodies := by
  cases content with
  | function body => cases h
  | «class» uses members => exact List.mem_map_of_mem h
  | trait isModuleLevel uses members => exact List.mem_map_of_mem h
  | constant => cases h

namespace CheckedProgram

variable {p : CheckedProgram} {u : UnresolvedReference}

/-- Listed as unresolved is what a reference in some run leaves unresolved. -/
theorem mem_unresolved_iff : u ∈ p.unresolved ↔
    ∃ e ∈ p.executions, ∃ r ∈ e.body, .unresolved u.name ∈ p.outcomes e r.kind ∧
      u.unit = e.unit ∧ u.span = r.span := by
  obtain ⟨name, unit, span⟩ := u
  unfold unresolved occurrences
  rw [mem_distinctBy_iff fun a _ b _ (hsame : id a = id b) => hsame]
  simp only [List.mem_filterMap, List.mem_flatMap, List.mem_map]
  constructor
  · rintro ⟨o, ⟨e, he, r, hr, outcome, houtcome, rfl⟩, hlisted⟩
    cases outcome with
    | denied what name home => cases hlisted
    | unresolved name =>
      cases hlisted
      exact ⟨e, he, r, hr, houtcome, rfl, rfl⟩
  · rintro ⟨e, he, r, hr, houtcome, rfl, rfl⟩
    exact ⟨_, ⟨e, he, r, hr, _, houtcome, rfl⟩, rfl⟩

theorem nodup_unresolved (p : CheckedProgram) : p.unresolved.Nodup :=
  (nodup_distinctBy id _).of_map

end CheckedProgram

namespace Analysis

variable {a : Analysis} {id : SymbolId} {s : Symbol} {body : List Reference}

/-- What runs is a body of some declaration. -/
theorem Runs.exists_body {e : Execution} (h : a.Runs e) :
    ∃ id s, a.symbols.get? id = some s ∧ e.unit = s.unit ∧ e.body ∈ s.content.bodies := by
  cases h with
  | @function id s hs hkind =>
    refine ⟨id, s, hs, rfl, ?_⟩
    unfold Symbol.kind DeclarationContent.kind at hkind
    cases hcontent : s.content with
    | function body => exact List.mem_singleton.2 rfl
    | «class» uses members => simp [hcontent] at hkind
    | trait isModuleLevel uses members => simp [hcontent] at hkind
    | constant => simp [hcontent] at hkind
  | @classMember id s m hs hkind hm =>
    exact ⟨id, s, hs, rfl, DeclarationContent.mem_bodies_of_member hm⟩
  | @inherited _ _ _ r source m _ _ _ hsource hm =>
    exact ⟨r.source, source, hsource, rfl,
      DeclarationContent.mem_bodies_of_member (List.mem_of_getElem? hm)⟩
  | @traitMember id s _ m hs _ hm _ =>
    exact ⟨id, s, hs, rfl, DeclarationContent.mem_bodies_of_member (List.mem_of_getElem? hm)⟩
  | @composed _ _ _ r source _ m _ _ _ _ _ hsource hm =>
    exact ⟨r.source, source, hsource, rfl,
      DeclarationContent.mem_bodies_of_member (List.mem_of_getElem? hm)⟩

/-- A member that was taken over from an ordinary trait runs where it was taken. -/
theorem exists_runs_of_relocated (hpinned : a.Pinned) (hs : a.symbols.get? id = some s)
    (hordinary : s.isModuleLevelTrait = false) {index : Nat} {m : Member}
    (hm : s.members[index]? = some m) (h : a.Relocated id index) :
    ∃ e, a.Runs e ∧ e.unit = s.unit ∧ e.body = m.body := by
  rcases h with ⟨owner, t, key, r, ht, hclass, hr, rfl, rfl⟩ | ⟨owner, t, key, r, ht, hlevel, hr,
    rfl, rfl⟩
  · exact ⟨_, .inherited ht hclass hr hs hm, rfl, rfl⟩
  · obtain ⟨home, horigin⟩ := hpinned ht hlevel hr
    -- The owner is module-level and the trait of the member is not, so these are two traits.
    have hother : r.source ≠ owner := by
      intro heq
      rw [heq] at hs
      cases ht.symm.trans hs
      rw [hlevel] at hordinary
      cases hordinary
    exact ⟨_, .composed ht hlevel hr hother horigin hs hm, rfl, rfl⟩

/-- Every body of every symbol runs somewhere. -/
theorem exists_runs_of_mem_bodies (hpinned : a.Pinned) (hs : a.symbols.get? id = some s)
    (hbody : body ∈ s.content.bodies) : ∃ e, a.Runs e ∧ e.unit = s.unit ∧ e.body = body := by
  cases hcontent : s.content with
  | function body =>
    have hkind : s.kind = .function := by simp [Symbol.kind, DeclarationContent.kind, hcontent]
    have hown : s.content.body = body := by rw [hcontent]; rfl
    rw [hcontent] at hbody
    cases List.mem_singleton.1 hbody
    exact ⟨_, .function hs hkind, rfl, hown⟩
  | «class» uses members =>
    have hkind : s.kind = .class := by simp [Symbol.kind, DeclarationContent.kind, hcontent]
    have hmembers : s.members = members := by rw [Symbol.members, hcontent]; rfl
    rw [hcontent] at hbody
    obtain ⟨m, hm, rfl⟩ := List.mem_map.1 hbody
    exact ⟨_, .classMember hs hkind (hmembers ▸ hm), rfl, rfl⟩
  | trait isModuleLevel uses members =>
    have hkind : s.kind = .trait := by simp [Symbol.kind, DeclarationContent.kind, hcontent]
    have hmembers : s.members = members := by rw [Symbol.members, hcontent]; rfl
    rw [hcontent] at hbody
    obtain ⟨m, hm, rfl⟩ := List.mem_map.1 hbody
    obtain ⟨index, hindex⟩ := List.mem_iff_getElem?.1 (hmembers ▸ hm)
    cases hlevel : s.isModuleLevelTrait with
    | true => exact ⟨_, .traitMember hs hkind hindex (.inl hlevel), rfl, rfl⟩
    | false =>
      by_cases hrelocated : a.Relocated id index
      · exact exists_runs_of_relocated hpinned hs hlevel hindex hrelocated
      · exact ⟨_, .traitMember hs hkind hindex (.inr hrelocated), rfl, rfl⟩
  | constant =>
    rw [hcontent] at hbody
    cases hbody

/-- What no function is called by leaves a call unresolved, wherever it runs. -/
theorem unresolved_mem_outcomes_call (hnames : a.symbols.DistinctNames) {name : String}
    {fallback : Option String}
    (hundeclared : ∀ called ∈ name :: fallback.toList, ∀ id s, ¬ a.Names .function called id s)
    (e : Execution) : .unresolved name ∈ a.program.outcomes e (.call name fallback) := by
  have hnone : a.program.lookupOrGlobal? .function name fallback = none := by
    refine Option.eq_none_iff_forall_not_mem.2 fun ⟨id, s⟩ hfound => ?_
    rcases (lookupOrGlobal?_eq_some_iff hnames).1 hfound with hname | ⟨_, global, hglobal, hname⟩
    · exact hundeclared name List.mem_cons_self id s hname
    · exact hundeclared global (List.mem_cons_of_mem _ (Option.mem_toList.2 hglobal)) id s hname
  simp only [CheckedProgram.outcomes, hnone]
  exact List.mem_singleton_self _

/-- A call of what is no declared function, in whatever body, is listed exactly once. -/
theorem undeclared_call_listed_once (policy : Policy) (units : List ParsedUnit)
    (hs : (ofUnits policy units).symbols.get? id = some s) (hbody : body ∈ s.content.bodies)
    {name : String} {fallback : Option String} {span : Span}
    (hcall : ⟨.call name fallback, span⟩ ∈ body)
    (hundeclared : ∀ called ∈ name :: fallback.toList, ∀ id t,
      ¬ (ofUnits policy units).Names .function called id t) :
    (ofUnits policy units).unresolved.count ⟨name, s.unit, span⟩ = 1 := by
  have hpinned := pinned_ofUnits policy units
  obtain ⟨e, hruns, hunit, rfl⟩ := exists_runs_of_mem_bodies hpinned hs hbody
  rw [unresolved_ofUnits]
  refine List.count_eq_one_of_mem (CheckedProgram.nodup_unresolved _)
    (CheckedProgram.mem_unresolved_iff.2 ?_)
  exact ⟨e, (mem_executions_iff hpinned).2 hruns, _, hcall,
    unresolved_mem_outcomes_call (distinctNames_ofUnits policy units) hundeclared e,
    hunit.symm, rfl⟩

/-- A member that the class hides, and that calls what nothing declares. -/
def hidden : List SourceFile :=
  [⟨"hidden.php", "<?hh\nclass C \x7b use T; function m(): void \x7b\x7d \x7d\n"
    ++ "trait T \x7b function m(): void \x7b missing(); \x7d \x7d\n"⟩]

/-- The call is listed although neither the class nor any other runs the member. -/
theorem undeclared_call_listed_once_hidden :
    (ofFiles .default hidden).unresolved.count ⟨"missing", 0, ⟨77, 84⟩⟩ = 1 := by
  have hchecks : (((ofFiles .default hidden).symbols.get? ⟨1⟩).any fun s =>
      s.unit == 0 && s.content.bodies.contains [⟨.call "missing" none, ⟨77, 84⟩⟩]) = true ∧
      ∀ s ∈ (ofFiles .default hidden).symbols.symbols, s.name ≠ "missing" := by decide +kernel
  obtain ⟨htrait, hnames⟩ := hchecks
  obtain ⟨s, hs, hbody⟩ := (Option.any_eq_true _ _).1 htrait
  obtain ⟨hunit, hbody⟩ := Bool.and_eq_true_iff.1 hbody
  have hlisted := undeclared_call_listed_once .default (parseProgram hidden) hs
    (List.contains_iff_mem.1 hbody) List.mem_cons_self fun called hcalled id t ht =>
      hnames t (SymbolTable.mem_symbols_of_get? ht.1) (ht.2.1.trans (List.mem_singleton.1 hcalled))
  rw [beq_iff_eq.1 hunit] at hlisted
  exact hlisted

end Analysis
end ModuleVisibility
