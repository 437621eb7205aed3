import Mathlib.Data.List.Basic
import ModuleVisibility.Access.Check
import ModuleVisibility.Proofs.Rewiring

/-!
The check of references does not read use clauses. Whatever they bring about has gone into the
tables by then, so a program and the one without its clauses have the same runs with the same
outcomes.
-/
namespace ModuleVisibility

theorem Flattening.resolveMember?_bare (f : Flattening) (t : SymbolTable) (id : SymbolId)
    (key : MemberKey) : f.resolveMember? t.bare id key = f.resolveMember? t id key := by
  unfold resolveMember?
  rw [SymbolTable.get?_bare]
  cases t.get? id with
  | none => rfl
  | some owner =>
    simp only [Option.map_some, bind, Option.bind_some, Symbol.member?_bare]
    unfold composedMember?
    rw [Symbol.kind_bare]
    rfl

namespace CheckedProgram

/-- The program without its use clauses. -/
def bare (p : CheckedProgram) : CheckedProgram := { p with symbols := p.symbols.bare }

variable (p : CheckedProgram) (e : Execution) (id : SymbolId) (s : Symbol)

/-! The runs. -/

theorem declared?_bare (source : SymbolId) (index : Nat) :
    p.bare.declared? source index = p.declared? source index := by
  have hget := p.symbols.get?_bare source
  unfold declared? bare
  rw [hget]
  cases p.symbols.get? source with
  | none => rfl
  | some s => simp only [Option.map_some, bind, Option.bind_some, Symbol.members_bare]; rfl

theorem relocated_bare : p.bare.relocated = p.relocated := by
  have hkind := p.symbols.ofKind_bare .class
  have hentries := p.symbols.entries_bare
  unfold relocated bare
  rw [hkind, hentries, List.filter_map, List.flatMap_map]
  simp only [Function.comp_def, Symbol.isModuleLevelTrait_bare]
  rfl

theorem symbolExecutions_bare : p.bare.symbolExecutions id s.bare = p.symbolExecutions id s := by
  have hclass : p.bare.classExecutions id s.bare = p.classExecutions id s := by
    unfold classExecutions
    simp only [Symbol.members_bare, declared?_bare]
    rfl
  have hown : p.bare.ownTraitExecutions id s.bare = p.ownTraitExecutions id s := by
    unfold ownTraitExecutions
    simp only [Symbol.members_bare, Symbol.isModuleLevelTrait_bare, relocated_bare]
    rfl
  have hcomposed : p.bare.composedTraitExecutions id s.bare = p.composedTraitExecutions id s := by
    unfold composedTraitExecutions
    simp only [declared?_bare]
    rfl
  unfold symbolExecutions
  rw [hclass, hown, hcomposed, Symbol.kind_bare, Symbol.isModuleLevelTrait_bare, Symbol.body_bare]
  rfl

theorem executions_bare : p.bare.executions = p.executions := by
  have hentries : p.bare.symbols.entries = p.symbols.entries.map fun e => (e.1, e.2.bare) :=
    p.symbols.entries_bare
  unfold executions
  rw [hentries, List.flatMap_map]
  exact List.flatMap_congr fun entry _ => p.symbolExecutions_bare entry.1 entry.2

/-! What comes of a reference. -/

theorem lookupOrGlobal?_bare (kind : SymbolKind) (name : String) (fallback : Option String) :
    p.bare.lookupOrGlobal? kind name fallback =
      (p.lookupOrGlobal? kind name fallback).map fun (id, s) => (id, s.bare) := by
  have hkind : p.bare.symbols.lookupKind? kind =
      fun name => (p.symbols.lookupKind? kind name).map fun (id, s) => (id, s.bare) :=
    funext (p.symbols.lookupKind?_bare kind)
  unfold lookupOrGlobal?
  rw [hkind, Option.map_or]
  cases fallback <;> rfl

theorem useSymbol_bare : p.bare.useSymbol e s.bare = p.useSymbol e s := by
  unfold useSymbol
  rw [Symbol.kind_bare]
  rfl

theorem useMember_bare (isCurrent : Bool) (key : MemberKey) :
    p.bare.useMember e id s.bare isCurrent key = p.useMember e id s isCurrent key := by
  have hmember : p.bare.flattening.resolveMember? p.bare.symbols id key =
      p.flattening.resolveMember? p.symbols id key :=
    p.flattening.resolveMember?_bare p.symbols id key
  unfold useMember
  rw [hmember, Symbol.kind_bare]
  rfl

theorem useMemberOf_bare (through : ClassRef) (key : MemberKey) (isStatic : Bool) :
    p.bare.useMemberOf e through key isStatic = p.useMemberOf e through key isStatic := by
  cases through with
  | current =>
    have hcurrent : (e.current.bind fun id => (p.bare.symbols.get? id).map (id, ·)) =
        (e.current.bind fun id => (p.symbols.get? id).map (id, ·)).map
          fun (id, s) => (id, s.bare) := by
      cases e.current with
      | none => rfl
      | some id =>
        have hget : p.bare.symbols.get? id = (p.symbols.get? id).map Symbol.bare :=
          p.symbols.get?_bare id
        simp only [Option.bind_some, hget, Option.map_map]
        rfl
    unfold useMemberOf
    simp only [hcurrent]
    cases e.current.bind fun id => (p.symbols.get? id).map (id, ·) with
    | none => rfl
    | some found => exact p.useMember_bare e found.1 found.2 true key
  | named name =>
    have hlookup : p.bare.symbols.lookup? name =
        (p.symbols.lookup? name).map fun (id, s) => (id, s.bare) := p.symbols.lookup?_bare name
    unfold useMemberOf
    simp only [hlookup, Option.filter_map, Function.comp_def, Symbol.kind_bare]
    cases (p.symbols.lookup? name).filter fun (_, s) => s.kind == .class || s.kind == .trait with
    | none => rfl
    | some found => simp only [Option.map_some, useSymbol_bare, useMember_bare]

theorem outcomes_bare (kind : ReferenceKind) : p.bare.outcomes e kind = p.outcomes e kind := by
  cases kind with
  | call name fallback =>
    simp only [outcomes, lookupOrGlobal?_bare]
    cases p.lookupOrGlobal? .function name fallback with
    | none => rfl
    | some found => simp only [Option.map_some, useSymbol_bare]
  | constant name fallback =>
    have hfind : p.bare.symbols.find? name = p.symbols.find? name := p.symbols.find?_bare name
    simp only [outcomes, lookupOrGlobal?_bare, hfind]
    cases p.lookupOrGlobal? .constant name fallback with
    | none => rfl
    | some found => simp only [Option.map_some, useSymbol_bare]
  | new owner =>
    cases owner with
    | current => rfl
    | named name =>
      have hlookup : p.bare.symbols.lookupKind? .class name =
          (p.symbols.lookupKind? .class name).map fun (id, s) => (id, s.bare) :=
        p.symbols.lookupKind?_bare .class name
      simp only [outcomes, hlookup]
      cases p.symbols.lookupKind? .class name with
      | none => rfl
      | some found => simp only [Option.map_some, useSymbol_bare]
  | member owner name kind isStatic => exact p.useMemberOf_bare e owner ⟨kind, name⟩ isStatic

theorem occurrences_bare : p.bare.occurrences = p.occurrences := by
  unfold occurrences
  simp only [executions_bare, outcomes_bare]

/-- Two programs that differ in their use clauses, with the same tables. -/
structure Rewired (p p' : CheckedProgram) : Prop where
  symbols : p'.symbols.bare = p.symbols.bare
  modules : p'.modules = p.modules
  traits : p'.flattening.traits = p.flattening.traits
  classes : p'.flattening.classes = p.flattening.classes

namespace Rewired

variable {p} {p' : CheckedProgram} (h : p.Rewired p')
include h

theorem occurrences : p'.occurrences = p.occurrences := by
  have htables : ∀ {t g} {f f' : Flattening}, f'.traits = f.traits → f'.classes = f.classes →
      CheckedProgram.occurrences ⟨t, g, f'⟩ = CheckedProgram.occurrences ⟨t, g, f⟩ := by
    rintro t g ⟨traits, classes, _, _⟩ ⟨_, _, _, _⟩ rfl rfl
    rfl
  calc
    p'.occurrences = p'.bare.occurrences := p'.occurrences_bare.symm
    _ = CheckedProgram.occurrences ⟨p.symbols.bare, p.modules, p'.flattening⟩ := by
      rw [← h.symbols, ← h.modules]
      rfl
    _ = p.bare.occurrences := htables h.traits h.classes
    _ = p.occurrences := p.occurrences_bare

theorem violations (sources : SourceMap) : p'.violations sources = p.violations sources := by
  have hreport : p'.violation? sources = p.violation? sources := by
    funext o
    unfold violation?
    rw [h.modules]
  unfold CheckedProgram.violations
  rw [h.occurrences, hreport]

theorem unresolved : p'.unresolved = p.unresolved := by
  unfold CheckedProgram.unresolved
  rw [h.occurrences]

end Rewired
end CheckedProgram
end ModuleVisibility
