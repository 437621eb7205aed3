import ModuleVisibility.Proofs.Analysis

/-!
Access as a relation. Which bodies run where, what the references in them name, and who is denied
it are said here of the result of an analysis, without the order in which a program is searched;
the check of references finds just these denials.
-/
namespace ModuleVisibility

/-- What a reference can name. -/
inductive Target where
  | symbol (id : SymbolId) (s : Symbol)
  /-- The member of a key that is found on a class or trait. -/
  | member (owner : Symbol) (key : MemberKey) (m : ResolvedMember)

namespace Target

/-- The visibility that its declaration gives it. -/
def visibility : Target → Visibility
  | symbol _ s => s.visibility
  | member _ _ m => m.visibility

/-- The module against which its use is checked. -/
def home : Target → ModuleId
  | symbol _ s => s.home
  | member _ _ m => m.home

def what : Target → String
  | symbol _ s => s.kind.text
  | member _ key _ => key.kind.text

def name : Target → String
  | symbol _ s => s.name
  | member owner key _ => CheckedProgram.memberName owner.name key.name

end Target

namespace Flattening

/-- The class `id` inherits the member `r` under the key. -/
def Inherits (f : Flattening) (id : SymbolId) (key : MemberKey) (r : InheritedMember) : Prop :=
  ∃ table, f.inherited? id = some table ∧ (key, r) ∈ table.entries

/-- The table of the trait `id` holds the member `m` under the key. -/
def Holds (f : Flattening) (id : SymbolId) (key : MemberKey) (m : FlatMember) : Prop :=
  ∃ table, f.traitMembers? id = some table ∧ (key, m) ∈ table.entries

end Flattening

namespace Analysis

variable (a : Analysis)

/-- The program declares a symbol of the kind under the name. -/
def Names (kind : SymbolKind) (name : String) (id : SymbolId) (s : Symbol) : Prop :=
  a.symbols.get? id = some s ∧ s.name = name ∧ s.kind = kind

/-- The name is that of a class or trait. -/
def NamesOwner (name : String) (id : SymbolId) (s : Symbol) : Prop :=
  a.Names .class name id s ∨ a.Names .trait name id s

/-- The fallback counts where nothing of the kind has the name itself. -/
def NamesOrGlobal (kind : SymbolKind) (name : String) (fallback : Option String) (id : SymbolId)
    (s : Symbol) : Prop :=
  a.Names kind name id s ∨
    (∀ other t, ¬ a.Names kind name other t) ∧ ∃ global ∈ fallback, a.Names kind global id s

/-- What a reference names in a body that runs on the class or trait `current`. A static access
names the class or trait itself besides the member. -/
inductive Resolves (current : Option SymbolId) : ReferenceKind → Target → Prop
  | call {name fallback id s} (h : a.NamesOrGlobal .function name fallback id s) :
    Resolves current (.call name fallback) (.symbol id s)
  | constant {name fallback id s} (h : a.NamesOrGlobal .constant name fallback id s) :
    Resolves current (.constant name fallback) (.symbol id s)
  | new {name id s} (h : a.Names .class name id s) :
    Resolves current (.new (.named name)) (.symbol id s)
  | owner {name id s member kind} (h : a.NamesOwner name id s) :
    Resolves current (.member (.named name) member kind true) (.symbol id s)
  | memberOf {name id s member kind isStatic m} (h : a.NamesOwner name id s)
    (hm : a.resolveMember? s.name ⟨kind, member⟩ = some m) :
    Resolves current (.member (.named name) member kind isStatic) (.member s ⟨kind, member⟩ m)
  | memberOfCurrent {id s member kind isStatic m} (hcurrent : current = some id)
    (h : a.symbols.get? id = some s) (hm : a.resolveMember? s.name ⟨kind, member⟩ = some m) :
    Resolves current (.member .current member kind isStatic) (.member s ⟨kind, member⟩ m)

/-- Code in `accessor` may not use the target. -/
def Denies (accessor : ModuleId) : Target → Prop
  | .symbol id _ => a.isAccessible? accessor id = some false
  | .member _ _ m => m.isAccessible a.modules accessor = false

/-- A class inherits the member that `source` declares at `index`, or the table of a module-level
trait holds it. -/
def Relocated (source : SymbolId) (index : Nat) : Prop :=
  (∃ id s key r, a.symbols.get? id = some s ∧ s.kind = .class ∧
    a.flattening.Inherits id key r ∧ r.source = source ∧ r.index = index) ∨
  ∃ id s key m, a.symbols.get? id = some s ∧ s.isModuleLevelTrait = true ∧
    a.flattening.Holds id key m ∧ m.source = source ∧ m.index = index

/-- Which bodies run, and where. -/
inductive Runs : Execution → Prop
  | function {id s} (hs : a.symbols.get? id = some s) (hkind : s.kind = .function) :
    Runs ⟨s.unit, s.home, none, s.content.body⟩
  | classMember {id s m} (hs : a.symbols.get? id = some s) (hkind : s.kind = .class)
    (hm : m ∈ s.members) : Runs ⟨s.unit, s.home, some id, m.body⟩
  | inherited {id s key r source m} (hs : a.symbols.get? id = some s) (hkind : s.kind = .class)
    (hr : a.flattening.Inherits id key r) (hsource : a.symbols.get? r.source = some source)
    (hm : source.members[r.index]? = some m) : Runs ⟨source.unit, r.home, some id, m.body⟩
  | traitMember {id s index m} (hs : a.symbols.get? id = some s) (hkind : s.kind = .trait)
    (hm : s.members[index]? = some m)
    (hhere : s.isModuleLevelTrait = true ∨ ¬ a.Relocated id index) :
    Runs ⟨s.unit, s.home, some id, m.body⟩
  | composed {id s key r source home m} (hs : a.symbols.get? id = some s)
    (hlevel : s.isModuleLevelTrait = true) (hr : a.flattening.Holds id key r)
    (hother : r.source ≠ id) (horigin : r.origin = .pinned home)
    (hsource : a.symbols.get? r.source = some source)
    (hm : source.members[r.index]? = some m) : Runs ⟨source.unit, home, some id, m.body⟩

/-- The report that a reference in a run is denied its target. -/
def denial (e : Execution) (r : Reference) (t : Target) : Diagnostic :=
  (Finding.internalAccess t.what t.name (a.modules.name t.home) (a.modules.name e.accessor)).report
    (a.sources.locate e.unit r.span)

variable {a}

theorem NamesOrGlobal.get? {kind : SymbolKind} {name : String} {fallback : Option String}
    {id : SymbolId} {s : Symbol} (h : a.NamesOrGlobal kind name fallback id s) :
    a.symbols.get? id = some s := by
  rcases h with hname | ⟨_, global, _, hglobal⟩
  · exact hname.1
  · exact hglobal.1

theorem NamesOwner.get? {name : String} {id : SymbolId} {s : Symbol} (h : a.NamesOwner name id s) :
    a.symbols.get? id = some s := by
  rcases h with hclass | htrait
  · exact hclass.1
  · exact htrait.1

/-! Resolution: what the check looks up is what a reference names. -/

theorem lookupKind?_eq_some_iff (h : a.symbols.DistinctNames) {kind : SymbolKind} {name : String}
    {id : SymbolId} {s : Symbol} :
    a.symbols.lookupKind? kind name = some (id, s) ↔ a.Names kind name id s := by
  rw [SymbolTable.lookupKind?_eq_some_iff]
  constructor
  · rintro ⟨hfind, hget, hkind⟩
    obtain ⟨s', hget', hname⟩ := SymbolTable.get?_of_find? hfind
    cases hget.symm.trans hget'
    exact ⟨hget, hname, hkind⟩
  · rintro ⟨hget, rfl, hkind⟩
    exact ⟨h.find? hget, hget, hkind⟩

theorem lookupOrGlobal?_eq_some_iff (h : a.symbols.DistinctNames) {kind : SymbolKind}
    {name : String} {fallback : Option String} {id : SymbolId} {s : Symbol} :
    a.program.lookupOrGlobal? kind name fallback = some (id, s) ↔
      a.NamesOrGlobal kind name fallback id s := by
  have hnone : a.symbols.lookupKind? kind name = none ↔ ∀ other t, ¬ a.Names kind name other t := by
    rw [Option.eq_none_iff_forall_not_mem]
    simp only [Option.mem_def, Prod.forall, lookupKind?_eq_some_iff h]
  unfold CheckedProgram.lookupOrGlobal? NamesOrGlobal
  simp only [program, Option.or_eq_some_iff, hnone, Option.bind_eq_some_iff,
    lookupKind?_eq_some_iff h, Option.mem_def]

theorem lookupOwner_eq_some_iff (h : a.symbols.DistinctNames) {name : String} {id : SymbolId}
    {s : Symbol} :
    (a.symbols.lookup? name).filter (fun (_, s) => s.kind == .class || s.kind == .trait) =
      some (id, s) ↔ a.NamesOwner name id s := by
  have hclass : a.symbols.lookupKind? .class name = some (id, s) ↔ a.Names .class name id s :=
    lookupKind?_eq_some_iff h
  have htrait : a.symbols.lookupKind? .trait name = some (id, s) ↔ a.Names .trait name id s :=
    lookupKind?_eq_some_iff h
  unfold NamesOwner
  rw [← hclass, ← htrait]
  simp only [SymbolTable.lookupKind?, Option.filter_eq_some_iff, Bool.or_eq_true, beq_iff_eq]
  exact and_or_left

theorem resolveMember?_name (h : a.symbols.DistinctNames) {id : SymbolId} {s : Symbol}
    (hs : a.symbols.get? id = some s) (key : MemberKey) :
    a.resolveMember? s.name key = a.flattening.resolveMember? a.symbols id key := by
  unfold Analysis.resolveMember?
  rw [h.find? hs, Option.bind_some]

/-! Denials: each use that the check denies is denied by the result as well. -/

theorem denied_mem_useSymbol {e : Execution} {id : SymbolId} {s : Symbol}
    (hs : a.symbols.get? id = some s) {what name : String} {home : ModuleId} :
    .denied what name home ∈ a.program.useSymbol e s ↔
      a.Denies e.accessor (.symbol id s) ∧ what = s.kind.text ∧ name = s.name ∧ home = s.home := by
  unfold CheckedProgram.useSymbol Denies isAccessible?
  simp only [hs, Option.map_some]
  cases hacc : s.isAccessible a.modules e.accessor <;> simp [program, hacc]

theorem denied_mem_useMember {e : Execution} {id : SymbolId} {owner : Symbol} {isCurrent : Bool}
    {key : MemberKey} {what name : String} {home : ModuleId} :
    .denied what name home ∈ a.program.useMember e id owner isCurrent key ↔
      ∃ m, a.flattening.resolveMember? a.symbols id key = some m ∧
        a.Denies e.accessor (.member owner key m) ∧ what = key.kind.text ∧
        name = CheckedProgram.memberName owner.name key.name ∧ home = m.home := by
  unfold CheckedProgram.useMember Denies
  simp only [program]
  cases hm : a.flattening.resolveMember? a.symbols id key with
  | none =>
    dsimp only
    split <;> simp
  | some m => cases hacc : m.isAccessible a.modules e.accessor <;> simp [hacc]

theorem denied_mem_useMemberOf_current (h : a.symbols.DistinctNames) {e : Execution}
    {member : String} {kind : MemberKind} {isStatic : Bool} {what name : String} {home : ModuleId} :
    .denied what name home ∈ a.program.useMemberOf e .current ⟨kind, member⟩ isStatic ↔
      ∃ t, a.Resolves e.current (.member .current member kind isStatic) t ∧
        a.Denies e.accessor t ∧ what = t.what ∧ name = t.name ∧ home = t.home := by
  simp only [CheckedProgram.useMemberOf]
  constructor
  · intro hmem
    split at hmem
    · cases hmem
    · next id s hs =>
      obtain ⟨current, hcurrent, hs⟩ := Option.bind_eq_some_iff.1 hs
      obtain ⟨s, hs, heq⟩ := Option.map_eq_some_iff.1 hs
      cases heq
      obtain ⟨m, hm, hdenied⟩ := denied_mem_useMember.1 hmem
      have hresolves := (resolveMember?_name h hs _).trans hm
      exact ⟨.member s _ m, .memberOfCurrent hcurrent hs hresolves, hdenied⟩
  · rintro ⟨t, hresolves, hdenied⟩
    cases hresolves with
    | @memberOfCurrent id s _ _ _ m hcurrent hs hm =>
      have howner : (e.current.bind fun id => (a.program.symbols.get? id).map (id, ·)) =
          some (id, s) := by
        simp [hcurrent, program, hs]
      rw [resolveMember?_name h hs] at hm
      simp only [howner]
      exact denied_mem_useMember.2 ⟨m, hm, hdenied⟩

theorem denied_mem_useMemberOf_named (h : a.symbols.DistinctNames) {e : Execution}
    {owner member : String} {kind : MemberKind} {isStatic : Bool} {what name : String}
    {home : ModuleId} :
    .denied what name home ∈ a.program.useMemberOf e (.named owner) ⟨kind, member⟩ isStatic ↔
      ∃ t, a.Resolves e.current (.member (.named owner) member kind isStatic) t ∧
        a.Denies e.accessor t ∧ what = t.what ∧ name = t.name ∧ home = t.home := by
  simp only [CheckedProgram.useMemberOf]
  constructor
  · intro hmem
    split at hmem
    · simp at hmem
    · next id s hlookup =>
      have howner : a.NamesOwner owner id s := (lookupOwner_eq_some_iff h).1 hlookup
      have hs : a.symbols.get? id = some s := howner.get?
      rcases List.mem_append.1 hmem with hsymbol | hmember
      · cases isStatic with
        | false => cases hsymbol
        | true => exact ⟨.symbol id s, .owner howner, (denied_mem_useSymbol hs).1 hsymbol⟩
      · obtain ⟨m, hm, hdenied⟩ := denied_mem_useMember.1 hmember
        have hresolves := (resolveMember?_name h hs _).trans hm
        exact ⟨.member s _ m, .memberOf howner hresolves, hdenied⟩
  · rintro ⟨t, hresolves, hdenied⟩
    cases hresolves with
    | @owner _ id s _ _ howner =>
      have hs : a.symbols.get? id = some s := howner.get?
      have hlookup := (lookupOwner_eq_some_iff h).2 howner
      simp only [program, hlookup]
      exact List.mem_append_left _ ((denied_mem_useSymbol hs).2 hdenied)
    | @memberOf _ id s _ _ _ m howner hm =>
      have hs : a.symbols.get? id = some s := howner.get?
      have hlookup := (lookupOwner_eq_some_iff h).2 howner
      rw [resolveMember?_name h hs] at hm
      simp only [program, hlookup]
      exact List.mem_append_right _ (denied_mem_useMember.2 ⟨m, hm, hdenied⟩)

/-- The use of whatever symbol a lookup finds. -/
theorem denied_mem_useFound {e : Execution} {found : Option (SymbolId × Symbol)}
    {names : SymbolId → Symbol → Prop} (hfound : ∀ id s, found = some (id, s) ↔ names id s)
    (hget : ∀ id s, names id s → a.symbols.get? id = some s) {otherwise : List Outcome}
    {what name : String} {home : ModuleId} (hotherwise : .denied what name home ∉ otherwise) :
    .denied what name home ∈ (match found with
      | some (_, target) => a.program.useSymbol e target
      | none => otherwise) ↔
      ∃ id s, names id s ∧ a.Denies e.accessor (.symbol id s) ∧
        what = s.kind.text ∧ name = s.name ∧ home = s.home := by
  cases found with
  | none =>
    have hnone : ∀ id s, ¬ names id s := fun id s hs => by simpa using (hfound id s).2 hs
    simp [hotherwise, hnone]
  | some target =>
    obtain ⟨id, s⟩ := target
    have hs : names id s := (hfound id s).1 rfl
    rw [denied_mem_useSymbol (hget id s hs)]
    constructor
    · intro hdenied
      exact ⟨id, s, hs, hdenied⟩
    · rintro ⟨id', s', hs', hdenied⟩
      cases (hfound id' s').2 hs'
      exact hdenied

/-- The check denies a reference in a run exactly what the result denies it. -/
theorem denied_mem_outcomes (h : a.symbols.DistinctNames) {e : Execution} {kind : ReferenceKind}
    {what name : String} {home : ModuleId} :
    .denied what name home ∈ a.program.outcomes e kind ↔
      ∃ t, a.Resolves e.current kind t ∧ a.Denies e.accessor t ∧
        what = t.what ∧ name = t.name ∧ home = t.home := by
  cases kind with
  | call called fallback =>
    refine (denied_mem_useFound (fun _ _ => lookupOrGlobal?_eq_some_iff h)
      (fun _ _ hnames => hnames.get?) (by simp)).trans ⟨?_, ?_⟩
    · rintro ⟨id, s, hnames, hdenied⟩
      exact ⟨.symbol id s, .call hnames, hdenied⟩
    · rintro ⟨t, hresolves, hdenied⟩
      cases hresolves with
      | call hnames => exact ⟨_, _, hnames, hdenied⟩
  | constant read fallback =>
    refine (denied_mem_useFound (fun _ _ => lookupOrGlobal?_eq_some_iff h)
      (fun _ _ hnames => hnames.get?) (by split <;> simp)).trans ⟨?_, ?_⟩
    · rintro ⟨id, s, hnames, hdenied⟩
      exact ⟨.symbol id s, .constant hnames, hdenied⟩
    · rintro ⟨t, hresolves, hdenied⟩
      cases hresolves with
      | constant hnames => exact ⟨_, _, hnames, hdenied⟩
  | new through =>
    cases through with
    | current =>
      constructor
      · intro hmem
        cases hmem
      · rintro ⟨t, hresolves, _⟩
        cases hresolves
    | named owner =>
      refine (denied_mem_useFound (fun _ _ => lookupKind?_eq_some_iff h)
        (fun _ _ hnames => hnames.1) (by simp)).trans ⟨?_, ?_⟩
      · rintro ⟨id, s, hnames, hdenied⟩
        exact ⟨.symbol id s, .new hnames, hdenied⟩
      · rintro ⟨t, hresolves, hdenied⟩
        cases hresolves with
        | new hnames => exact ⟨_, _, hnames, hdenied⟩
  | member through member kind isStatic =>
    cases through with
    | current => exact denied_mem_useMemberOf_current h
    | named owner => exact denied_mem_useMemberOf_named h

end Analysis
end ModuleVisibility
