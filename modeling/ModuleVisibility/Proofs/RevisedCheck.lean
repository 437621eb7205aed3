import ModuleVisibility.Proofs.Degradation
import ModuleVisibility.Proofs.RevisedFlattening

/-!
The check of references after a revision. The same bodies run in the same modules, every reference
names what it named before, and the same references name nothing; so all that visibilities decide is
who is denied what.
-/
namespace ModuleVisibility

variable {φ : Revision}

def ResolvedMember.revise (φ : Revision) (m : ResolvedMember) : ResolvedMember :=
  { m with visibility := φ.member m.source m.index m.visibility }

/-- The name that an outcome leaves unresolved. -/
def Outcome.unresolvedName? : Outcome → Option String
  | .denied .. => none
  | .unresolved name => some name

namespace CheckedProgram

/-- The references that a run leaves unresolved. -/
def unresolvedIn (p : CheckedProgram) (e : Execution) : List UnresolvedReference :=
  e.body.flatMap fun r =>
    ((p.outcomes e r.kind).filterMap Outcome.unresolvedName?).map (⟨·, e.unit, r.span⟩)

theorem unresolved_eq (p : CheckedProgram) :
    p.unresolved = distinctBy id (p.executions.flatMap p.unresolvedIn) := by
  unfold unresolved occurrences unresolvedIn
  rw [List.filterMap_flatMap]
  congr 2
  funext e
  rw [List.filterMap_flatMap]
  congr 1
  funext r
  rw [List.filterMap_map, List.map_filterMap]
  congr 1
  funext o
  cases o <;> rfl

theorem unresolved_useSymbol (p : CheckedProgram) (e : Execution) (target : Symbol) :
    (p.useSymbol e target).filterMap Outcome.unresolvedName? = [] := by
  unfold CheckedProgram.useSymbol
  split <;> rfl

/-- Two programs that differ in their visibilities only. -/
structure Revised (φ : Revision) (p p' : CheckedProgram) : Prop where
  symbols : p'.symbols = p.symbols.revise φ
  modules : p'.modules = p.modules
  flattening : p.flattening.Revised φ p'.flattening

namespace Revised

variable {p p' : CheckedProgram} (h : p.Revised φ p')
include h

/-! The runs. -/

theorem get? (id : SymbolId) :
    p'.symbols.get? id = (p.symbols.get? id).map (Symbol.revise φ id) := by
  rw [h.symbols]
  exact p.symbols.get?_revise id

theorem inheritedBy (id : SymbolId) :
    p'.inheritedBy id = (p.inheritedBy id).map (InheritedMember.revise φ) := by
  unfold CheckedProgram.inheritedBy
  rw [h.flattening.classes]
  cases p.flattening.inherited? id with
  | none => rfl
  | some table => simp [MemberTable.map]

theorem composedBy (id : SymbolId) :
    p'.composedBy id = (p.composedBy id).map (FlatMember.revise φ) := by
  unfold CheckedProgram.composedBy
  rw [h.flattening.traits]
  cases p.flattening.traitMembers? id with
  | none => rfl
  | some table =>
    simp only [Option.map_some, Option.getD_some, MemberTable.map, List.map_map, List.filter_map]
    rfl

theorem declared? (source : SymbolId) (index : Nat) :
    p'.declared? source index =
      (p.declared? source index).map fun (unit, m) => (unit, m.revise φ source index) := by
  unfold CheckedProgram.declared?
  rw [h.get?]
  cases p.symbols.get? source with
  | none => rfl
  | some s =>
    simp only [Option.map_some, bind, Option.bind_some, Symbol.getElem?_members_revise]
    cases s.members[index]? <;> rfl

theorem relocated : p'.relocated = p.relocated := by
  unfold CheckedProgram.relocated
  rw [h.symbols, SymbolTable.ofKind_revise, SymbolTable.entries_revise, List.filter_map,
    List.flatMap_map]
  simp only [h.inheritedBy, h.composedBy, List.map_map, Function.comp_def,
    Symbol.isModuleLevelTrait_revise]
  rfl

theorem classExecutions (id : SymbolId) (s : Symbol) :
    p'.classExecutions id (s.revise φ id) = p.classExecutions id s := by
  have hown : (s.revise φ id).members.map Member.body = s.members.map Member.body := by
    refine List.ext_getElem? fun index => ?_
    rw [List.getElem?_map, List.getElem?_map, Symbol.getElem?_members_revise, Option.map_map]
    rfl
  have hruns : ∀ members : List Member, members.map
      (fun m => (⟨s.unit, s.home, some id, m.body⟩ : Execution)) =
        (members.map Member.body).map fun body => ⟨s.unit, s.home, some id, body⟩ :=
    fun members => (List.map_map ..).symm
  unfold CheckedProgram.classExecutions
  rw [h.inheritedBy, List.filterMap_map, hruns s.members, ← hown, ← hruns]
  congr 1
  refine List.filterMap_congr fun r _ => ?_
  have hdeclared := h.declared? r.source r.index
  simp only [Function.comp_apply, InheritedMember.revise, hdeclared, Option.map_map]
  rfl

theorem ownTraitExecutions (id : SymbolId) (s : Symbol) :
    p'.ownTraitExecutions id (s.revise φ id) = p.ownTraitExecutions id s := by
  unfold CheckedProgram.ownTraitExecutions
  rw [h.relocated, Symbol.zipIdx_members_revise, List.filter_map, List.map_map,
    Symbol.isModuleLevelTrait_revise]
  rfl

theorem composedTraitExecutions (id : SymbolId) (s : Symbol) :
    p'.composedTraitExecutions id (s.revise φ id) = p.composedTraitExecutions id s := by
  unfold CheckedProgram.composedTraitExecutions
  rw [h.composedBy, List.filterMap_map]
  refine List.filterMap_congr fun r _ => ?_
  have hdeclared := h.declared? r.source r.index
  simp only [Function.comp_apply, FlatMember.revise, hdeclared, Option.map_map]
  rfl

theorem symbolExecutions (id : SymbolId) (s : Symbol) :
    p'.symbolExecutions id (s.revise φ id) = p.symbolExecutions id s := by
  unfold CheckedProgram.symbolExecutions
  rw [Symbol.kind_revise, Symbol.isModuleLevelTrait_revise, h.classExecutions,
    h.ownTraitExecutions, h.composedTraitExecutions]
  have hbody : (s.revise φ id).content.body = s.content.body := s.content.body_mapMembers _
  rw [hbody]
  rfl

/-- The same bodies run in the same modules. -/
theorem executions : p'.executions = p.executions := by
  unfold CheckedProgram.executions
  rw [h.symbols, SymbolTable.entries_revise, List.flatMap_map]
  exact List.flatMap_congr fun e _ => h.symbolExecutions e.1 e.2

/-! What comes of a reference. -/

theorem lookupOrGlobal? (kind : SymbolKind) (name : String) (fallback : Option String) :
    p'.lookupOrGlobal? kind name fallback =
      (p.lookupOrGlobal? kind name fallback).map fun (id, s) => (id, s.revise φ id) := by
  unfold CheckedProgram.lookupOrGlobal?
  rw [h.symbols, SymbolTable.lookupKind?_revise, Option.map_or]
  congr 1
  cases fallback with
  | none => rfl
  | some name => exact p.symbols.lookupKind?_revise kind name

theorem resolveMember? (id : SymbolId) (key : MemberKey) :
    p'.flattening.resolveMember? p'.symbols id key =
      (p.flattening.resolveMember? p.symbols id key).map (ResolvedMember.revise φ) := by
  unfold Flattening.resolveMember?
  rw [h.get?]
  cases p.symbols.get? id with
  | none => rfl
  | some owner =>
    simp only [Option.map_some, bind, Option.bind_some, Symbol.member?_revise]
    cases owner.member? key.kind key.name with
    | some found => rfl
    | none =>
      unfold Flattening.composedMember?
      simp only [Symbol.kind_revise, Option.map_none]
      cases owner.kind with
      | function => rfl
      | constant => rfl
      | «class» =>
        simp only [h.flattening.classes]
        cases p.flattening.inherited? id with
        | none => rfl
        | some table =>
          simp only [Option.map_some, Option.bind_some, MemberTable.get?_map, Option.map_map]
          rfl
      | trait =>
        simp only [h.flattening.traits]
        cases p.flattening.traitMembers? id with
        | none => rfl
        | some table =>
          simp only [Option.map_some, Option.bind_some, MemberTable.get?_map, Option.map_map]
          rfl

theorem unresolved_useMember (e : Execution) (id : SymbolId) (owner : Symbol) (isCurrent : Bool)
    (key : MemberKey) :
    (p'.useMember e id (owner.revise φ id) isCurrent key).filterMap Outcome.unresolvedName? =
      (p.useMember e id owner isCurrent key).filterMap Outcome.unresolvedName? := by
  unfold CheckedProgram.useMember
  rw [h.resolveMember?, Symbol.kind_revise]
  cases p.flattening.resolveMember? p.symbols id key with
  | none => rfl
  | some m =>
    simp only [Option.map_some]
    split <;> split <;> rfl

theorem unresolved_useMemberOf (e : Execution) (through : ClassRef) (key : MemberKey)
    (isStatic : Bool) :
    (p'.useMemberOf e through key isStatic).filterMap Outcome.unresolvedName? =
      (p.useMemberOf e through key isStatic).filterMap Outcome.unresolvedName? := by
  cases through with
  | current =>
    have hcurrent : (e.current.bind fun id => (p'.symbols.get? id).map (id, ·)) =
        (e.current.bind fun id => (p.symbols.get? id).map (id, ·)).map
          fun (id, s) => (id, s.revise φ id) := by
      cases e.current with
      | none => rfl
      | some id =>
        simp only [Option.bind_some, h.get?, Option.map_map]
        rfl
    unfold CheckedProgram.useMemberOf
    simp only [hcurrent]
    cases e.current.bind fun id => (p.symbols.get? id).map (id, ·) with
    | none => rfl
    | some found => exact h.unresolved_useMember e found.1 found.2 true key
  | named name =>
    have hfound : ((p'.symbols.lookup? name).filter
          fun (_, s) => s.kind == .class || s.kind == .trait) =
        ((p.symbols.lookup? name).filter fun (_, s) => s.kind == .class || s.kind == .trait).map
          fun (id, s) => (id, s.revise φ id) := by
      rw [h.symbols, SymbolTable.lookup?_revise, Option.filter_map]
      simp only [Function.comp_def, Symbol.kind_revise]
    unfold CheckedProgram.useMemberOf
    simp only [hfound]
    cases (p.symbols.lookup? name).filter fun (_, s) => s.kind == .class || s.kind == .trait with
    | none => rfl
    | some found =>
      simp only [Option.map_some, List.filterMap_append, h.unresolved_useMember]
      congr 1
      cases isStatic with
      | true =>
        simp only [if_true]
        rw [unresolved_useSymbol, unresolved_useSymbol]
      | false => rfl

/-- The same references name nothing. -/
theorem unresolved_outcomes (e : Execution) (kind : ReferenceKind) :
    (p'.outcomes e kind).filterMap Outcome.unresolvedName? =
      (p.outcomes e kind).filterMap Outcome.unresolvedName? := by
  cases kind with
  | call name fallback =>
    simp only [CheckedProgram.outcomes, h.lookupOrGlobal?]
    cases p.lookupOrGlobal? .function name fallback with
    | none => rfl
    | some found =>
      simp only [Option.map_some, unresolved_useSymbol]
  | constant name fallback =>
    simp only [CheckedProgram.outcomes, h.lookupOrGlobal?]
    cases p.lookupOrGlobal? .constant name fallback with
    | some found =>
      simp only [Option.map_some, unresolved_useSymbol]
    | none => simp only [Option.map_none, h.symbols, SymbolTable.find?_revise]
  | new owner =>
    cases owner with
    | current => rfl
    | named name =>
      simp only [CheckedProgram.outcomes, h.symbols, SymbolTable.lookupKind?_revise]
      cases p.symbols.lookupKind? .class name with
      | none => rfl
      | some found =>
        simp only [Option.map_some, unresolved_useSymbol]
  | member owner name kind isStatic => exact h.unresolved_useMemberOf e owner ⟨kind, name⟩ isStatic

theorem unresolved : p'.unresolved = p.unresolved := by
  have hruns : p'.unresolvedIn = p.unresolvedIn := by
    funext e
    unfold unresolvedIn
    simp only [h.unresolved_outcomes]
  rw [unresolved_eq, unresolved_eq, h.executions, hruns]

end Revised
end CheckedProgram

/-! Who is denied what. -/

/-- What a reference names before and after a revision. -/
inductive Target.Revised (φ : Revision) : Target → Target → Prop
  | symbol (id : SymbolId) (s : Symbol) : Revised φ (.symbol id s) (.symbol id (s.revise φ id))
  | member (id : SymbolId) (owner : Symbol) (key : MemberKey) (m : ResolvedMember) :
    Revised φ (.member owner key m) (.member (owner.revise φ id) key (m.revise φ))

namespace Analysis

/-- Two results of programs that differ in their visibilities only. -/
structure Revised (φ : Revision) (a a' : Analysis) : Prop where
  sources : a'.sources = a.sources
  program : a.program.Revised φ a'.program
  names : a.symbols.DistinctNames
  pinned : a.Pinned
  pinned' : a'.Pinned

namespace Revised

variable {a a' : Analysis} (h : a.Revised φ a')
include h

theorem get? (id : SymbolId) : a'.symbols.get? id = (a.symbols.get? id).map (Symbol.revise φ id) :=
  h.program.get? id

theorem modules : a'.modules = a.modules := h.program.modules

theorem names_iff {kind : SymbolKind} {name : String} {id : SymbolId} {s' : Symbol} :
    a'.Names kind name id s' ↔ ∃ s, a.Names kind name id s ∧ s.revise φ id = s' := by
  unfold Names
  rw [h.get?, Option.map_eq_some_iff]
  constructor
  · rintro ⟨⟨s, hs, rfl⟩, hname, hkind⟩
    exact ⟨s, ⟨hs, hname, (s.kind_revise id).symm.trans hkind⟩, rfl⟩
  · rintro ⟨s, ⟨hs, hname, hkind⟩, rfl⟩
    exact ⟨⟨s, hs, rfl⟩, hname, (s.kind_revise id).trans hkind⟩

theorem not_names_iff {kind : SymbolKind} {name : String} :
    (∀ id s', ¬ a'.Names kind name id s') ↔ ∀ id s, ¬ a.Names kind name id s := by
  constructor
  · intro hnone id s hs
    exact hnone id _ (h.names_iff.2 ⟨s, hs, rfl⟩)
  · intro hnone id s' hs'
    obtain ⟨s, hs, _⟩ := h.names_iff.1 hs'
    exact hnone id s hs

theorem namesOrGlobal_iff {kind : SymbolKind} {name : String} {fallback : Option String}
    {id : SymbolId} {s' : Symbol} :
    a'.NamesOrGlobal kind name fallback id s' ↔
      ∃ s, a.NamesOrGlobal kind name fallback id s ∧ s.revise φ id = s' := by
  unfold NamesOrGlobal
  rw [h.not_names_iff]
  simp only [h.names_iff]
  constructor
  · rintro (⟨s, hs, rfl⟩ | ⟨hnone, global, hglobal, s, hs, rfl⟩)
    · exact ⟨s, .inl hs, rfl⟩
    · exact ⟨s, .inr ⟨hnone, global, hglobal, hs⟩, rfl⟩
  · rintro ⟨s, hs | ⟨hnone, global, hglobal, hs⟩, rfl⟩
    · exact .inl ⟨s, hs, rfl⟩
    · exact .inr ⟨hnone, global, hglobal, s, hs, rfl⟩

theorem namesOwner_iff {name : String} {id : SymbolId} {s' : Symbol} :
    a'.NamesOwner name id s' ↔ ∃ s, a.NamesOwner name id s ∧ s.revise φ id = s' := by
  unfold NamesOwner
  simp only [h.names_iff, or_and_right, exists_or]

theorem resolveMember? (name : String) (key : MemberKey) :
    a'.resolveMember? name key = (a.resolveMember? name key).map (ResolvedMember.revise φ) := by
  have hfind : a'.symbols.find? name = a.symbols.find? name := by
    have hsymbols : a'.symbols = a.symbols.revise φ := h.program.symbols
    rw [hsymbols, SymbolTable.find?_revise]
  unfold Analysis.resolveMember?
  rw [hfind]
  cases a.symbols.find? name with
  | none => rfl
  | some id => exact h.program.resolveMember? id key

/-- Every reference names what it named before. -/
theorem exists_resolves {current : Option SymbolId} {kind : ReferenceKind} {t : Target}
    (ht : a.Resolves current kind t) : ∃ t', t.Revised φ t' ∧ a'.Resolves current kind t' := by
  have hmember : ∀ {s : Symbol} {id : SymbolId} {key : MemberKey} {m : ResolvedMember},
      a.resolveMember? s.name key = some m →
        a'.resolveMember? (s.revise φ id).name key = some (m.revise φ) := by
    intro s id key m hm
    have hname : (s.revise φ id).name = s.name := rfl
    rw [hname, h.resolveMember?, hm, Option.map_some]
  cases ht with
  | call hs => exact ⟨_, .symbol .., .call (h.namesOrGlobal_iff.2 ⟨_, hs, rfl⟩)⟩
  | constant hs => exact ⟨_, .symbol .., .constant (h.namesOrGlobal_iff.2 ⟨_, hs, rfl⟩)⟩
  | new hs => exact ⟨_, .symbol .., .new (h.names_iff.2 ⟨_, hs, rfl⟩)⟩
  | owner hs => exact ⟨_, .symbol .., .owner (h.namesOwner_iff.2 ⟨_, hs, rfl⟩)⟩
  | @memberOf _ id _ _ _ _ _ hs hm =>
    exact ⟨_, .member id .., .memberOf (h.namesOwner_iff.2 ⟨_, hs, rfl⟩) (hmember hm)⟩
  | @memberOfCurrent id _ _ _ _ _ hcurrent hs hm =>
    have hs' := h.get? id
    rw [hs, Option.map_some] at hs'
    exact ⟨_, .member id .., .memberOfCurrent hcurrent hs' (hmember hm)⟩

/-- And it names nothing else. -/
theorem of_resolves {current : Option SymbolId} {kind : ReferenceKind} {t' : Target}
    (ht' : a'.Resolves current kind t') : ∃ t, t.Revised φ t' ∧ a.Resolves current kind t := by
  have hmember : ∀ {name : String} {key : MemberKey} {m' : ResolvedMember},
      a'.resolveMember? name key = some m' →
        ∃ m, a.resolveMember? name key = some m ∧ m.revise φ = m' := by
    intro name key m' hm'
    rw [h.resolveMember?] at hm'
    exact Option.map_eq_some_iff.1 hm'
  cases ht' with
  | call hs' =>
    obtain ⟨s, hs, rfl⟩ := h.namesOrGlobal_iff.1 hs'
    exact ⟨_, .symbol .., .call hs⟩
  | constant hs' =>
    obtain ⟨s, hs, rfl⟩ := h.namesOrGlobal_iff.1 hs'
    exact ⟨_, .symbol .., .constant hs⟩
  | new hs' =>
    obtain ⟨s, hs, rfl⟩ := h.names_iff.1 hs'
    exact ⟨_, .symbol .., .new hs⟩
  | owner hs' =>
    obtain ⟨s, hs, rfl⟩ := h.namesOwner_iff.1 hs'
    exact ⟨_, .symbol .., .owner hs⟩
  | @memberOf _ id _ _ _ _ _ hs' hm' =>
    obtain ⟨s, hs, rfl⟩ := h.namesOwner_iff.1 hs'
    obtain ⟨m, hm, rfl⟩ := hmember hm'
    exact ⟨_, .member id .., .memberOf hs hm⟩
  | @memberOfCurrent id _ _ _ _ _ hcurrent hs' hm' =>
    rw [h.get?] at hs'
    obtain ⟨s, hs, rfl⟩ := Option.map_eq_some_iff.1 hs'
    obtain ⟨m, hm, rfl⟩ := hmember hm'
    exact ⟨_, .member id .., .memberOfCurrent hcurrent hs hm⟩

theorem runs_iff {e : Execution} : a'.Runs e ↔ a.Runs e := by
  rw [← mem_executions_iff h.pinned', ← mem_executions_iff h.pinned, h.program.executions]

/-- A denial is reported in the same words. -/
theorem denial {t t' : Target} (ht : t.Revised φ t') (e : Execution) (r : Reference) :
    a'.denial e r t' = a.denial e r t := by
  unfold Analysis.denial
  rw [h.modules, h.sources]
  cases ht with
  | symbol id s =>
    have hwhat : (Target.symbol id (s.revise φ id)).what = (Target.symbol id s).what :=
      congrArg SymbolKind.text (s.kind_revise id)
    rw [hwhat]
    rfl
  | member id owner key m => rfl

end Revised
end Analysis
end ModuleVisibility
