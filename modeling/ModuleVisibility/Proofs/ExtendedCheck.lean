import ModuleVisibility.Proofs.Coverage
import ModuleVisibility.Proofs.ExtendedFlattening
import ModuleVisibility.Proofs.RevisedCheck
import ModuleVisibility.Proofs.Wording

/-!
The check of a program that has grown at the end. A reference that looks up none of the new names
finds what it found; so a body that ran before is answered as before wherever it runs.
-/
namespace ModuleVisibility

/-! The names that are looked up. -/

/-- The names by which a reference looks for declarations. -/
def ReferenceKind.lookedUp : ReferenceKind → List String
  | .call name fallback => name :: fallback.toList
  | .constant name fallback => name :: fallback.toList
  | .new owner => owner.names
  | .member owner _ _ _ => owner.names

/-- Whether the reference goes through the class by which the running member was reached. -/
def ReferenceKind.isCurrent : ReferenceKind → Bool
  | .new .current => true
  | .member .current _ _ _ => true
  | _ => false

/-- The names that the use clauses and bodies of a declaration look up. -/
def DeclarationContent.lookedUp (content : DeclarationContent) : List String :=
  content.uses.map UseClause.name
    ++ content.bodies.flatMap fun body => body.flatMap (·.kind.lookedUp)

namespace CheckedProgram

/-- The reports of what a run is denied. -/
def deniedIn (p : CheckedProgram) (sources : SourceMap) (e : Execution) : List Diagnostic :=
  e.body.flatMap fun r => (p.outcomes e r.kind).filterMap fun o =>
    p.violation? sources ⟨e, r.span, o⟩

theorem violations_eq (p : CheckedProgram) (sources : SourceMap) :
    p.violations sources = distinctBy violationKey (p.executions.flatMap (p.deniedIn sources)) := by
  unfold violations occurrences deniedIn
  rw [List.filterMap_flatMap]
  congr 2
  funext e
  rw [List.filterMap_flatMap]
  congr 1
  funext r
  rw [List.filterMap_map]
  rfl

theorem unit_of_mem_deniedIn {p : CheckedProgram} {sources : SourceMap} {e : Execution}
    {d : Diagnostic} (h : d ∈ p.deniedIn sources e) : d.location.unit = e.unit := by
  obtain ⟨r, _, hd⟩ := List.mem_flatMap.1 h
  obtain ⟨o, _, hreport⟩ := List.mem_filterMap.1 hd
  cases o with
  | denied what name home =>
    cases hreport
    exact SourceMap.unit_locate ..
  | unresolved name => cases hreport

theorem unit_of_mem_unresolvedIn {p : CheckedProgram} {e : Execution} {u : UnresolvedReference}
    (h : u ∈ p.unresolvedIn e) : u.unit = e.unit := by
  obtain ⟨r, _, hu⟩ := List.mem_flatMap.1 h
  obtain ⟨name, _, rfl⟩ := List.mem_map.1 hu
  rfl

/-- What a symbol brings about runs in its unit, or in that of a trait whose member it has. -/
theorem unit_of_mem_symbolExecutions {p : CheckedProgram} {id : SymbolId}
    {s : Symbol} {e : Execution}
    (h : e ∈ p.symbolExecutions id s) : e.unit = s.unit ∨ ∃ source t,
      ((∃ key r, p.flattening.Inherits id key r ∧ r.source = source) ∨
        s.kind = .trait ∧ ∃ key m, p.flattening.Holds id key m ∧ m.source = source) ∧
      p.symbols.get? source = some t ∧ e.unit = t.unit := by
  unfold symbolExecutions at h
  split at h
  · rw [List.mem_singleton.1 h]
    exact .inl rfl
  · rcases List.mem_append.1 h with hown | hinherited
    · obtain ⟨m, _, rfl⟩ := List.mem_map.1 hown
      exact .inl rfl
    · obtain ⟨r, hr, hrun⟩ := List.mem_filterMap.1 hinherited
      obtain ⟨key, hkey⟩ := mem_inheritedBy.1 hr
      obtain ⟨⟨unit, m⟩, hdeclared, rfl⟩ := Option.map_eq_some_iff.1 hrun
      obtain ⟨t, ht, _, rfl⟩ := declared?_eq_some_iff.1 hdeclared
      exact .inr ⟨r.source, t, .inl ⟨key, r, hkey, rfl⟩, ht, rfl⟩
  · next hkind =>
    rcases List.mem_append.1 h with hown | hcomposed
    · obtain ⟨m, _, rfl⟩ := List.mem_map.1 hown
      exact .inl rfl
    · split at hcomposed
      · obtain ⟨r, hr, hrun⟩ := List.mem_filterMap.1 hcomposed
        obtain ⟨⟨key, hkey⟩, _⟩ := mem_composedBy.1 hr
        obtain ⟨⟨unit, m⟩, hdeclared, rfl⟩ := Option.map_eq_some_iff.1 hrun
        obtain ⟨t, ht, _, rfl⟩ := declared?_eq_some_iff.1 hdeclared
        exact .inr ⟨r.source, t, .inr ⟨hkind, key, r, hkey, rfl⟩, ht, rfl⟩
      · cases hcomposed
  · cases h

theorem mem_of_lookupOrGlobal? {p : CheckedProgram} {kind : SymbolKind} {name : String}
    {fallback : Option String} {found : SymbolId × Symbol}
    (h : p.lookupOrGlobal? kind name fallback = some found) : found.2 ∈ p.symbols.symbols := by
  have hmem : ∀ {name}, p.symbols.lookupKind? kind name = some found →
      found.2 ∈ p.symbols.symbols :=
    fun hfound => SymbolTable.mem_symbols_of_get? (SymbolTable.lookupKind?_eq_some_iff.1 hfound).2.1
  rcases Option.or_eq_some_iff.1 h with hfound | ⟨_, hfound⟩
  · exact hmem hfound
  · obtain ⟨_, _, hfound⟩ := Option.bind_eq_some_iff.1 hfound
    exact hmem hfound

/-- The runs that the symbols of `p'` bring about which `p` does not have. -/
def newExecutions (p p' : CheckedProgram) : List Execution :=
  (p'.symbols.entries.filter fun e => (p.symbols.get? e.1).isNone).flatMap
    fun e => p'.symbolExecutions e.1 e.2

theorem mem_newExecutions {p p' : CheckedProgram} {e : Execution} :
    e ∈ p.newExecutions p' ↔ ∃ id s, p.symbols.get? id = none ∧ p'.symbols.get? id = some s ∧
      e ∈ p'.symbolExecutions id s := by
  unfold newExecutions
  simp only [List.mem_flatMap, List.mem_filter, Prod.exists, SymbolTable.mem_entries,
    Option.isNone_iff_eq_none]
  constructor
  · rintro ⟨id, s, ⟨hs, hnone⟩, he⟩
    exact ⟨id, s, hnone, hs, he⟩
  · rintro ⟨id, s, hnone, hs, he⟩
    exact ⟨id, s, ⟨hs, hnone⟩, he⟩

/-- The program `p'` is `p` with more symbols and modules: what was found on the old classes and
traits is still there. -/
structure Extended (p p' : CheckedProgram) : Prop where
  symbols : p.symbols.symbols <+: p'.symbols.symbols
  modules : p.modules.modules <+: p'.modules.modules
  homes : ∀ s ∈ p.symbols.symbols, p.modules.Knows s.home
  members : ∀ id key m, p.flattening.resolveMember? p.symbols id key = some m →
    p.modules.Knows m.home
  traits : ∀ id, (p.symbols.get? id).isSome →
    p'.flattening.traitMembers? id = p.flattening.traitMembers? id
  classes : ∀ id, (p.symbols.get? id).isSome →
    p'.flattening.inherited? id = p.flattening.inherited? id
  held : ∀ id key m, p.flattening.Holds id key m → (p.symbols.get? m.source).isSome
  inherited : ∀ id key r, p.flattening.Inherits id key r → (p.symbols.get? r.source).isSome
  /-- What is taken over from the ordinary traits among the old ones was taken over before. -/
  relocated : ∀ id s, p.symbols.get? id = some s → s.isModuleLevelTrait = false →
    ∀ index, (id, index) ∈ p'.relocated ↔ (id, index) ∈ p.relocated

namespace Extended

variable {p p' : CheckedProgram} (h : p.Extended p')
include h

/-! What comes of a reference. -/

theorem resolveMember? {id : SymbolId} (hid : (p.symbols.get? id).isSome) (key : MemberKey) :
    p'.flattening.resolveMember? p'.symbols id key =
      p.flattening.resolveMember? p.symbols id key := by
  unfold Flattening.resolveMember? Flattening.composedMember?
  rw [SymbolTable.get?_eq_of_grown h.symbols hid, h.traits id hid, h.classes id hid]

theorem lookupOrGlobal? {name : String} {fallback : Option String}
    (hnames : ∀ other ∈ name :: fallback.toList, p'.symbols.find? other = p.symbols.find? other)
    (kind : SymbolKind) :
    p'.lookupOrGlobal? kind name fallback = p.lookupOrGlobal? kind name fallback := by
  unfold CheckedProgram.lookupOrGlobal?
  rw [SymbolTable.lookupKind?_of_grown h.symbols (hnames name List.mem_cons_self)]
  congr 1
  cases fallback with
  | none => rfl
  | some global =>
    exact SymbolTable.lookupKind?_of_grown h.symbols (hnames global (by simp)) kind

theorem useSymbol (e : Execution) {s : Symbol} (hs : s ∈ p.symbols.symbols) :
    p'.useSymbol e s = p.useSymbol e s := by
  unfold CheckedProgram.useSymbol Symbol.isAccessible
  rw [ModuleGraph.effective_of_grown h.modules (h.homes s hs)]

theorem useMember (e : Execution) {id : SymbolId} (hid : (p.symbols.get? id).isSome)
      (owner : Symbol)
    (isCurrent : Bool) (key : MemberKey) :
    p'.useMember e id owner isCurrent key = p.useMember e id owner isCurrent key := by
  unfold CheckedProgram.useMember
  rw [h.resolveMember? hid]
  cases hfound : p.flattening.resolveMember? p.symbols id key with
  | none => rfl
  | some m =>
    unfold ResolvedMember.isAccessible
    simp only [ModuleGraph.effective_of_grown h.modules (h.members id key m hfound)]

theorem useMemberOf_named (e : Execution) {name : String}
    (hname : p'.symbols.find? name = p.symbols.find? name) (key : MemberKey) (isStatic : Bool) :
    p'.useMemberOf e (.named name) key isStatic = p.useMemberOf e (.named name) key isStatic := by
  unfold CheckedProgram.useMemberOf
  simp only [SymbolTable.lookup?_of_grown h.symbols hname]
  cases hfound : (p.symbols.lookup? name).filter fun e =>
    e.2.kind == .class || e.2.kind == .trait with
  | none => rfl
  | some found =>
    obtain ⟨id, owner⟩ := found
    have hget := (SymbolTable.lookup?_eq_some_iff.1 (Option.filter_eq_some_iff.1 hfound).1).2
    simp only [h.useSymbol e (SymbolTable.mem_symbols_of_get? hget),
      h.useMember e (Option.isSome_iff_exists.2 ⟨owner, hget⟩)]

theorem useMemberOf_current {e : Execution}
    (hcurrent : ∀ id, e.current = some id → (p.symbols.get? id).isSome) (key : MemberKey)
    (isStatic : Bool) :
    p'.useMemberOf e .current key isStatic = p.useMemberOf e .current key isStatic := by
  unfold CheckedProgram.useMemberOf
  cases hid : e.current with
  | none => rfl
  | some id =>
    obtain ⟨owner, howner⟩ := Option.isSome_iff_exists.1 (hcurrent id hid)
    simp only [Option.bind_some, howner, SymbolTable.get?_of_grown h.symbols howner,
      Option.map_some, h.useMember e (Option.isSome_iff_exists.2 ⟨owner, howner⟩)]

/-- The class by which the running member was reached matters to references through it only. -/
theorem outcomes {e : Execution} {kind : ReferenceKind}
    (hcurrent : kind.isCurrent = true → ∀ id, e.current = some id → (p.symbols.get? id).isSome)
    (hnames : ∀ name ∈ kind.lookedUp, p'.symbols.find? name = p.symbols.find? name) :
    p'.outcomes e kind = p.outcomes e kind := by
  cases kind with
  | call name fallback =>
    simp only [CheckedProgram.outcomes, h.lookupOrGlobal? hnames]
    cases hfound : p.lookupOrGlobal? .function name fallback with
    | none => rfl
    | some found => exact h.useSymbol e (mem_of_lookupOrGlobal? hfound)
  | constant name fallback =>
    simp only [CheckedProgram.outcomes, h.lookupOrGlobal? hnames]
    cases hfound : p.lookupOrGlobal? .constant name fallback with
    | none => simp only [hnames name List.mem_cons_self]
    | some found => exact h.useSymbol e (mem_of_lookupOrGlobal? hfound)
  | new owner =>
    cases owner with
    | current => rfl
    | named name =>
      simp only [CheckedProgram.outcomes,
        SymbolTable.lookupKind?_of_grown h.symbols (hnames name List.mem_cons_self)]
      cases hfound : p.symbols.lookupKind? .class name with
      | none => rfl
      | some found =>
        exact h.useSymbol e (SymbolTable.mem_symbols_of_get?
          (SymbolTable.lookupKind?_eq_some_iff.1 hfound).2.1)
  | member owner name kind isStatic =>
    cases owner with
    | current => exact h.useMemberOf_current (hcurrent rfl) ⟨kind, name⟩ isStatic
    | named owner =>
      exact h.useMemberOf_named e (hnames owner List.mem_cons_self) ⟨kind, name⟩ isStatic

/-- A denial that comes of a run is reported in the same words. -/
theorem violation? {sources sources' : SourceMap} {o : Occurrence}
    (hplace : sources'.locate o.execution.unit o.span = sources.locate o.execution.unit o.span)
    (haccessor : p.modules.Knows o.execution.accessor)
    (hhome : ∀ what name home, o.outcome = .denied what name home → p.modules.Knows home) :
    p'.violation? sources' o = p.violation? sources o := by
  unfold CheckedProgram.violation?
  cases houtcome : o.outcome with
  | unresolved name => rfl
  | denied what name home =>
    simp only [ModuleGraph.name_of_grown h.modules haccessor,
      ModuleGraph.name_of_grown h.modules (hhome what name home houtcome), hplace]

/-! The runs. -/

theorem declared? {source : SymbolId} (hsource : (p.symbols.get? source).isSome) (index : Nat) :
    p'.declared? source index = p.declared? source index := by
  unfold CheckedProgram.declared?
  rw [SymbolTable.get?_eq_of_grown h.symbols hsource]

variable {id : SymbolId} {s : Symbol} (hs : p.symbols.get? id = some s)
include hs

theorem inheritedBy : p'.inheritedBy id = p.inheritedBy id := by
  unfold CheckedProgram.inheritedBy
  rw [h.classes id (Option.isSome_iff_exists.2 ⟨s, hs⟩)]

theorem composedBy : p'.composedBy id = p.composedBy id := by
  unfold CheckedProgram.composedBy
  rw [h.traits id (Option.isSome_iff_exists.2 ⟨s, hs⟩)]

theorem classExecutions : p'.classExecutions id s = p.classExecutions id s := by
  unfold CheckedProgram.classExecutions
  rw [h.inheritedBy hs]
  congr 1
  refine List.filterMap_congr fun r hr => ?_
  obtain ⟨key, hkey⟩ := mem_inheritedBy.1 hr
  rw [h.declared? (h.inherited id key r hkey)]

theorem ownTraitExecutions : p'.ownTraitExecutions id s = p.ownTraitExecutions id s := by
  unfold CheckedProgram.ownTraitExecutions
  cases hlevel : s.isModuleLevelTrait with
  | true => rfl
  | false =>
    have hcontains : ∀ index,
        p'.relocated.contains (id, index) = p.relocated.contains (id, index) := by
      intro index
      rw [Bool.eq_iff_iff, List.contains_iff_mem, List.contains_iff_mem]
      exact h.relocated id s hs hlevel index
    simp only [hcontains]

theorem composedTraitExecutions :
    p'.composedTraitExecutions id s = p.composedTraitExecutions id s := by
  unfold CheckedProgram.composedTraitExecutions
  rw [h.composedBy hs]
  refine List.filterMap_congr fun r hr => ?_
  obtain ⟨⟨key, hkey⟩, _⟩ := mem_composedBy.1 hr
  rw [h.declared? (h.held id key r hkey)]

theorem symbolExecutions : p'.symbolExecutions id s = p.symbolExecutions id s := by
  unfold CheckedProgram.symbolExecutions
  rw [h.classExecutions hs, h.ownTraitExecutions hs, h.composedTraitExecutions hs]

omit hs

/-- The old bodies run as before, and the new symbols bring about runs besides. -/
theorem executions : p'.executions = p.executions ++ p.newExecutions p' := by
  unfold CheckedProgram.executions newExecutions
  conv_lhs => rw [SymbolTable.entries_of_grown h.symbols, List.flatMap_append]
  congr 1
  exact List.flatMap_congr fun e he => h.symbolExecutions (SymbolTable.mem_entries.1 he)

end Extended
end CheckedProgram
end ModuleVisibility
