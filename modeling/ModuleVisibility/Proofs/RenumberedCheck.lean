import ModuleVisibility.Access.Check
import ModuleVisibility.Proofs.Distinct
import ModuleVisibility.Proofs.RenumberedFlattening

/-!
The check of references at other numbers. The runs of a program come in another order, and each has
the same outcomes, since names are looked up and modules compared in the same way.
-/
namespace ModuleVisibility

variable {ρ : Renumbering}

def ResolvedMember.renumber (ρ : Renumbering) (m : ResolvedMember) : ResolvedMember :=
  { m with
    owner := m.owner.renumber ρ
    source := m.source.renumber ρ
    home := m.home.renumber ρ }

def Execution.renumber (ρ : Renumbering) (e : Execution) : Execution :=
  ⟨ρ.unit e.unit, e.accessor.renumber ρ, e.current.map (SymbolId.renumber ρ), e.body⟩

def Outcome.renumber (ρ : Renumbering) : Outcome → Outcome
  | .denied what name home => .denied what name (home.renumber ρ)
  | .unresolved name => .unresolved name

def Occurrence.renumber (ρ : Renumbering) (o : Occurrence) : Occurrence :=
  ⟨o.execution.renumber ρ, o.span, o.outcome.renumber ρ⟩

def UnresolvedReference.renumber (ρ : Renumbering) (r : UnresolvedReference) :
    UnresolvedReference :=
  { r with unit := ρ.unit r.unit }

theorem UnresolvedReference.renumber_injective :
    Function.Injective (UnresolvedReference.renumber ρ) := by
  rintro ⟨name, unit, span⟩ ⟨name', unit', span'⟩ h
  simpa [renumber] using h

namespace CheckedProgram

variable {p p' : CheckedProgram}

/-- The same program at other numbers. -/
structure Renumbered (ρ : Renumbering) (p p' : CheckedProgram) : Prop where
  symbols : p.symbols.Renumbered ρ p'.symbols
  modules : p.modules.Renumbered ρ p'.modules
  flattening : p.flattening.Renumbered ρ p'.flattening

namespace Renumbered

variable (h : p.Renumbered ρ p')
include h

/-! The runs. -/

theorem inheritedBy (id : SymbolId) :
    p'.inheritedBy (id.renumber ρ) = (p.inheritedBy id).map (InheritedMember.renumber ρ) := by
  unfold CheckedProgram.inheritedBy
  rw [h.flattening.classes]
  cases p.flattening.inherited? id with
  | none => rfl
  | some table => simp [MemberTable.map]

theorem composedBy (id : SymbolId) :
    p'.composedBy (id.renumber ρ) = (p.composedBy id).map (FlatMember.renumber ρ) := by
  unfold CheckedProgram.composedBy
  rw [h.flattening.traits]
  cases p.flattening.traitMembers? id with
  | none => rfl
  | some table =>
    have hother : ∀ m : FlatMember,
        decide ((m.renumber ρ).source ≠ id.renumber ρ) = decide (m.source ≠ id) := fun m =>
      decide_eq_decide.2 (not_congr SymbolId.renumber_inj)
    simp only [Option.map_some, Option.getD_some, MemberTable.map, List.map_map, List.filter_map]
    congr 1
    exact List.filter_congr fun e _ => hother e.2

theorem declared? (source : SymbolId) (index : Nat) :
    p'.declared? (source.renumber ρ) index =
      (p.declared? source index).map fun (unit, m) => (ρ.unit unit, m) := by
  unfold CheckedProgram.declared?
  rw [h.symbols.get?]
  cases p.symbols.get? source with
  | none => rfl
  | some s =>
    simp only [Option.map_some, bind, Option.bind_some, Symbol.members_renumber]
    cases s.members[index]? <;> rfl

theorem perm_relocated :
    p'.relocated.Perm (p.relocated.map fun (source, index) => (source.renumber ρ, index)) := by
  unfold relocated
  rw [List.map_append]
  refine List.Perm.append ?_ ?_
  · refine perm_flatMap_of_map (h.symbols.perm_ofKind .class) fun id _ => ?_
    rw [h.inheritedBy, List.map_map, List.map_map]
    rfl
  · have hentries := h.symbols.perm_entries.filter (·.2.isModuleLevelTrait)
    rw [List.filter_map] at hentries
    refine perm_flatMap_of_map hentries fun e _ => ?_
    simp only [h.composedBy, List.map_map]
    rfl

theorem contains_relocated (source : SymbolId) (index : Nat) :
    p'.relocated.contains (source.renumber ρ, index) = p.relocated.contains (source, index) := by
  rw [Bool.eq_iff_iff, List.contains_iff_mem, List.contains_iff_mem, h.perm_relocated.mem_iff]
  simp

theorem classExecutions (id : SymbolId) (s : Symbol) :
    p'.classExecutions (id.renumber ρ) (s.renumber ρ) =
      (p.classExecutions id s).map (Execution.renumber ρ) := by
  unfold CheckedProgram.classExecutions
  rw [h.inheritedBy, List.map_append, List.map_map, List.map_filterMap, List.filterMap_map,
    Symbol.members_renumber]
  congr 1
  refine List.filterMap_congr fun r _ => ?_
  have hdeclared := h.declared? r.source r.index
  simp only [Function.comp_apply, InheritedMember.renumber, hdeclared, Option.map_map]
  rfl

theorem ownTraitExecutions (id : SymbolId) (s : Symbol) :
    p'.ownTraitExecutions (id.renumber ρ) (s.renumber ρ) =
      (p.ownTraitExecutions id s).map (Execution.renumber ρ) := by
  unfold CheckedProgram.ownTraitExecutions
  simp only [h.contains_relocated, List.map_map, Symbol.members_renumber,
    Symbol.isModuleLevelTrait_renumber]
  rfl

theorem composedTraitExecutions (id : SymbolId) (s : Symbol) :
    p'.composedTraitExecutions (id.renumber ρ) (s.renumber ρ) =
      (p.composedTraitExecutions id s).map (Execution.renumber ρ) := by
  unfold CheckedProgram.composedTraitExecutions
  rw [h.composedBy, List.map_filterMap, List.filterMap_map]
  refine List.filterMap_congr fun r _ => ?_
  have hdeclared := h.declared? r.source r.index
  have hhome := Origin.resolve_renumber (ρ := ρ) r.origin s.home
  simp only [Function.comp_apply, FlatMember.renumber, hdeclared, Symbol.home_renumber, hhome,
    Option.map_map]
  rfl

theorem symbolExecutions (id : SymbolId) (s : Symbol) :
    p'.symbolExecutions (id.renumber ρ) (s.renumber ρ) =
      (p.symbolExecutions id s).map (Execution.renumber ρ) := by
  unfold CheckedProgram.symbolExecutions
  rw [Symbol.kind_renumber]
  cases s.kind with
  | function => rfl
  | «class» => exact h.classExecutions id s
  | constant => rfl
  | trait =>
    simp only [List.map_append, h.ownTraitExecutions, h.composedTraitExecutions]
    by_cases hlevel : s.isModuleLevelTrait = true
    · have hlevel' : (s.renumber ρ).isModuleLevelTrait = true := hlevel
      rw [if_pos hlevel, if_pos hlevel']
    · have hlevel' : ¬ (s.renumber ρ).isModuleLevelTrait = true := hlevel
      rw [if_neg hlevel, if_neg hlevel']
      rfl

theorem perm_executions : p'.executions.Perm (p.executions.map (Execution.renumber ρ)) := by
  unfold executions
  exact perm_flatMap_of_map h.symbols.perm_entries fun e _ => h.symbolExecutions e.1 e.2

/-! What comes of a reference. -/

theorem lookupOrGlobal? (kind : SymbolKind) (name : String) (fallback : Option String) :
    p'.lookupOrGlobal? kind name fallback =
      (p.lookupOrGlobal? kind name fallback).map fun (id, s) => (id.renumber ρ, s.renumber ρ) := by
  unfold CheckedProgram.lookupOrGlobal?
  rw [h.symbols.lookupKind?, Option.map_or]
  congr 1
  cases fallback with
  | none => rfl
  | some name => exact h.symbols.lookupKind? kind name

theorem useSymbol (e : Execution) (target : Symbol) :
    p'.useSymbol (e.renumber ρ) (target.renumber ρ) =
      (p.useSymbol e target).map (Outcome.renumber ρ) := by
  have haccess : (target.renumber ρ).isAccessible p'.modules (e.renumber ρ).accessor =
      target.isAccessible p.modules e.accessor :=
    h.modules.permits_effective target.visibility target.home e.accessor target.isUnresolved
  unfold CheckedProgram.useSymbol
  rw [haccess]
  split <;> rfl

theorem resolveMember? (id : SymbolId) (key : MemberKey) :
    p'.flattening.resolveMember? p'.symbols (id.renumber ρ) key =
      (p.flattening.resolveMember? p.symbols id key).map (ResolvedMember.renumber ρ) := by
  unfold Flattening.resolveMember?
  rw [h.symbols.get?]
  cases p.symbols.get? id with
  | none => rfl
  | some owner =>
    simp only [Option.map_some, bind, Option.bind_some, Symbol.member?_renumber]
    cases owner.member? key.kind key.name with
    | some found => rfl
    | none =>
      unfold Flattening.composedMember?
      simp only [Symbol.kind_renumber]
      cases owner.kind with
      | function => rfl
      | constant => rfl
      | «class» =>
        simp only [h.flattening.classes]
        cases p.flattening.inherited? id with
        | none => rfl
        | some table =>
          simp only [Option.map_some, Option.bind_some, MemberTable.get?_map, Option.map_map]
          rfl
      | trait =>
        simp only [h.flattening.traits]
        cases p.flattening.traitMembers? id with
        | none => rfl
        | some table =>
          simp only [Option.map_some, Option.bind_some, MemberTable.get?_map, Option.map_map]
          congr 1
          funext m
          simp only [Function.comp_apply, ResolvedMember.ofFlat, ResolvedMember.renumber,
            FlatMember.renumber, Symbol.home_renumber, Origin.resolve_renumber]
          rfl

theorem useMember (e : Execution) (id : SymbolId) (owner : Symbol) (isCurrent : Bool)
    (key : MemberKey) :
    p'.useMember (e.renumber ρ) (id.renumber ρ) (owner.renumber ρ) isCurrent key =
      (p.useMember e id owner isCurrent key).map (Outcome.renumber ρ) := by
  unfold CheckedProgram.useMember
  rw [h.resolveMember?]
  cases p.flattening.resolveMember? p.symbols id key with
  | none =>
    by_cases hprovided : (isCurrent && owner.kind == .trait) = true
    · have hprovided' : (isCurrent && (owner.renumber ρ).kind == .trait) = true := hprovided
      simp only [Option.map_none, if_pos hprovided, if_pos hprovided', List.map_nil]
    · have hprovided' : ¬ (isCurrent && (owner.renumber ρ).kind == .trait) = true := hprovided
      simp only [Option.map_none, if_neg hprovided, if_neg hprovided', List.map_cons, List.map_nil]
      rfl
  | some m =>
    have haccess : (m.renumber ρ).isAccessible p'.modules (e.renumber ρ).accessor =
        m.isAccessible p.modules e.accessor :=
      h.modules.permits_effective m.visibility m.home e.accessor m.isDegraded
    simp only [Option.map_some, haccess]
    split <;> rfl

theorem useMemberOf (e : Execution) (through : ClassRef) (key : MemberKey) (isStatic : Bool) :
    p'.useMemberOf (e.renumber ρ) through key isStatic =
      (p.useMemberOf e through key isStatic).map (Outcome.renumber ρ) := by
  cases through with
  | current =>
    have hcurrent : ((e.renumber ρ).current.bind fun id => (p'.symbols.get? id).map (id, ·)) =
        (e.current.bind fun id => (p.symbols.get? id).map (id, ·)).map
          fun (id, s) => (id.renumber ρ, s.renumber ρ) := by
      cases hcurrent : e.current with
      | none => simp [Execution.renumber, hcurrent]
      | some id =>
        simp only [Execution.renumber, hcurrent, Option.map_some, Option.bind_some,
          h.symbols.get?, Option.map_map]
        rfl
    unfold CheckedProgram.useMemberOf
    simp only [hcurrent]
    cases e.current.bind fun id => (p.symbols.get? id).map (id, ·) with
    | none => rfl
    | some found => exact h.useMember e found.1 found.2 true key
  | named name =>
    have hfound : ((p'.symbols.lookup? name).filter
          fun (_, s) => s.kind == .class || s.kind == .trait) =
        ((p.symbols.lookup? name).filter fun (_, s) => s.kind == .class || s.kind == .trait).map
          fun (id, s) => (id.renumber ρ, s.renumber ρ) := by
      rw [h.symbols.lookup?, Option.filter_map]
      rfl
    unfold CheckedProgram.useMemberOf
    simp only [hfound]
    cases (p.symbols.lookup? name).filter fun (_, s) => s.kind == .class || s.kind == .trait with
    | none => rfl
    | some found =>
      simp only [Option.map_some, List.map_append, h.useMember]
      congr 1
      cases isStatic with
      | true => exact h.useSymbol e found.2
      | false => rfl

theorem outcomes (e : Execution) (kind : ReferenceKind) :
    p'.outcomes (e.renumber ρ) kind = (p.outcomes e kind).map (Outcome.renumber ρ) := by
  cases kind with
  | call name fallback =>
    simp only [CheckedProgram.outcomes, h.lookupOrGlobal?]
    cases p.lookupOrGlobal? .function name fallback with
    | none => rfl
    | some found => exact h.useSymbol e found.2
  | constant name fallback =>
    simp only [CheckedProgram.outcomes, h.lookupOrGlobal?]
    cases p.lookupOrGlobal? .constant name fallback with
    | some found => exact h.useSymbol e found.2
    | none =>
      simp only [Option.map_none, h.symbols.find?, Option.isSome_map]
      split <;> rfl
  | new owner =>
    cases owner with
    | current => rfl
    | named name =>
      simp only [CheckedProgram.outcomes, h.symbols.lookupKind?]
      cases p.symbols.lookupKind? .class name with
      | none => rfl
      | some found => exact h.useSymbol e found.2
  | member owner name kind isStatic => exact h.useMemberOf e owner ⟨kind, name⟩ isStatic

theorem perm_occurrences : p'.occurrences.Perm (p.occurrences.map (Occurrence.renumber ρ)) := by
  unfold occurrences
  refine perm_flatMap_of_map h.perm_executions fun e _ => ?_
  rw [List.map_flatMap]
  refine List.flatMap_congr fun r _ => ?_
  rw [h.outcomes, List.map_map, List.map_map]
  rfl

/-! What is listed of them. -/

theorem perm_unresolved :
    p'.unresolved.Perm (p.unresolved.map (UnresolvedReference.renumber ρ)) := by
  refine perm_distinctBy UnresolvedReference.renumber_injective (fun _ _ hsame => ?_) ?_
    fun _ _ _ _ hsame => hsame
  · exact UnresolvedReference.renumber_injective hsame
  · refine perm_filterMap_of_map h.perm_occurrences fun o _ => ?_
    obtain ⟨execution, span, outcome⟩ := o
    cases outcome <;> rfl

variable {sources sources' : SourceMap}

theorem violation? (hsources : sources.Renumbered ρ sources') (o : Occurrence) :
    p'.violation? sources' (o.renumber ρ) =
      (p.violation? sources o).map (Diagnostic.renumber ρ) := by
  obtain ⟨execution, span, outcome⟩ := o
  cases outcome with
  | unresolved _ => rfl
  | denied what name home =>
    have hhome := h.modules.name home
    have haccessor := h.modules.name execution.accessor
    have hplace := hsources.locate execution.unit span
    simp only [CheckedProgram.violation?, Occurrence.renumber, Outcome.renumber,
      Execution.renumber, hhome, haccessor, hplace, Option.map_some, Finding.renumber_report]

/-- The reports of denials come in another order, if those of one place and message are the same. -/
theorem perm_violations (hsources : sources.Renumbered ρ sources')
    (hkey : ∀ d ∈ p.occurrences.filterMap (p.violation? sources),
      ∀ d' ∈ p.occurrences.filterMap (p.violation? sources),
        violationKey d = violationKey d' → d = d') :
    (p'.violations sources').Perm ((p.violations sources).map (Diagnostic.renumber ρ)) := by
  refine perm_distinctBy Diagnostic.renumber_injective (fun d d' hsame => ?_) ?_ hkey
  · simp only [violationKey, Diagnostic.renumber, Location.renumber, Prod.mk.injEq,
      ρ.unit.apply_eq_iff_eq] at hsame ⊢
    exact hsame
  · exact perm_filterMap_of_map h.perm_occurrences fun o _ => h.violation? hsources o

end Renumbered
end CheckedProgram
end ModuleVisibility
