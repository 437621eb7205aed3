import Mathlib.Data.List.Nodup
import Mathlib.Logic.Equiv.Basic
import ModuleVisibility.Access.Visibility
import ModuleVisibility.Program.Collection
import ModuleVisibility.Proofs.ModuleGraph
import ModuleVisibility.Proofs.UseGraph

/-!
Programs that differ in their numbers only. The order of units and declarations decides how units,
modules and symbols are numbered; whatever is read off the tables of two such programs differs by
the same change of numbers, and what is found by name is the same.
-/
namespace ModuleVisibility

/-- New numbers for the units, declared modules and symbols of a program. -/
structure Renumbering where
  unit : Equiv.Perm Nat
  home : Equiv.Perm Nat
  symbol : Equiv.Perm Nat

/-- Back to the old numbers. -/
def Renumbering.symm (ρ : Renumbering) : Renumbering := ⟨ρ.unit.symm, ρ.home.symm, ρ.symbol.symm⟩

variable {ρ : Renumbering}

/-- The global module keeps its number. -/
def ModuleId.renumber (ρ : Renumbering) : ModuleId → ModuleId
  | .global => .global
  | .declared index => .declared (ρ.home index)

def SymbolId.renumber (ρ : Renumbering) (id : SymbolId) : SymbolId := ⟨ρ.symbol id.index⟩

def Symbol.renumber (ρ : Renumbering) (s : Symbol) : Symbol :=
  { s with home := s.home.renumber ρ, unit := ρ.unit s.unit }

def Location.renumber (ρ : Renumbering) (l : Location) : Location :=
  { l with unit := ρ.unit l.unit }

def Diagnostic.renumber (ρ : Renumbering) (d : Diagnostic) : Diagnostic :=
  { d with location := d.location.renumber ρ }

namespace ModuleId

@[simp] theorem renumber_symm_renumber (id : ModuleId) : (id.renumber ρ).renumber ρ.symm = id := by
  cases id <;> simp [renumber, Renumbering.symm]

theorem renumber_injective : Function.Injective (renumber ρ) :=
  Function.LeftInverse.injective renumber_symm_renumber

@[simp] theorem renumber_inj {a b : ModuleId} : a.renumber ρ = b.renumber ρ ↔ a = b :=
  renumber_injective.eq_iff

end ModuleId

namespace SymbolId

@[simp] theorem renumber_symm_renumber (id : SymbolId) : (id.renumber ρ).renumber ρ.symm = id := by
  simp [renumber, Renumbering.symm]

@[simp] theorem renumber_renumber_symm (id : SymbolId) : (id.renumber ρ.symm).renumber ρ = id := by
  simp [renumber, Renumbering.symm]

theorem renumber_injective : Function.Injective (renumber ρ) :=
  Function.LeftInverse.injective renumber_symm_renumber

@[simp] theorem renumber_inj {a b : SymbolId} : a.renumber ρ = b.renumber ρ ↔ a = b :=
  renumber_injective.eq_iff

end SymbolId

namespace Symbol

variable (s : Symbol)

@[simp] theorem renumber_symm_renumber : (s.renumber ρ).renumber ρ.symm = s := by
  simp [renumber]
  simp [Renumbering.symm]

@[simp] theorem home_renumber : (s.renumber ρ).home = s.home.renumber ρ := rfl

@[simp] theorem unit_renumber : (s.renumber ρ).unit = ρ.unit s.unit := rfl

@[simp] theorem span_renumber : (s.renumber ρ).span = s.span := rfl

@[simp] theorem kind_renumber : (s.renumber ρ).kind = s.kind := rfl

@[simp] theorem uses_renumber : (s.renumber ρ).uses = s.uses := rfl

@[simp] theorem members_renumber : (s.renumber ρ).members = s.members := rfl

@[simp] theorem isModuleLevelTrait_renumber :
    (s.renumber ρ).isModuleLevelTrait = s.isModuleLevelTrait := rfl

@[simp] theorem member?_renumber (kind : MemberKind) (name : String) :
    (s.renumber ρ).member? kind name = s.member? kind name := rfl

end Symbol

theorem Diagnostic.renumber_injective : Function.Injective (Diagnostic.renumber ρ) := by
  intro d d' h
  obtain ⟨kind, severity, message, ⟨unit, file, span, start, stop⟩, suggestion⟩ := d
  obtain ⟨kind', severity', message', ⟨unit', file', span', start', stop'⟩, suggestion'⟩ := d'
  simpa [renumber, Location.renumber] using h

@[simp] theorem Finding.renumber_report (f : Finding) (location : Location) :
    (f.report location).renumber ρ = f.report (location.renumber ρ) := rfl

/-! Lists whose elements have other numbers and come in another order. -/

section

variable {α α' β β' : Type} {f : α → α'} {k : β → β'} {l : List α} {l' : List α'}

theorem perm_flatMap_of_map (hl : l'.Perm (l.map f)) {g : α → List β} {g' : α' → List β'}
    (hg : ∀ a ∈ l, g' (f a) = (g a).map k) : (l'.flatMap g').Perm ((l.flatMap g).map k) := by
  refine (List.Perm.flatMap_right _ hl).trans (List.Perm.of_eq ?_)
  rw [List.flatMap_map, List.map_flatMap]
  exact List.flatMap_congr hg

theorem perm_filterMap_of_map (hl : l'.Perm (l.map f)) {g : α → Option β} {g' : α' → Option β'}
    (hg : ∀ a ∈ l, g' (f a) = (g a).map k) : (l'.filterMap g').Perm ((l.filterMap g).map k) := by
  refine (hl.filterMap _).trans (List.Perm.of_eq ?_)
  rw [List.filterMap_map, List.map_filterMap]
  exact List.filterMap_congr hg

end

/-- The same units, at other numbers. -/
def SourceMap.Renumbered (ρ : Renumbering) (m m' : SourceMap) : Prop :=
  ∀ unit, m'.get? (ρ.unit unit) = m.get? unit

theorem SourceMap.Renumbered.symm {m m' : SourceMap} (h : m.Renumbered ρ m') :
    m'.Renumbered ρ.symm m := by
  intro unit
  have hget := h (ρ.symm.unit unit)
  simp only [Renumbering.symm, Equiv.apply_symm_apply] at hget ⊢
  exact hget.symm

theorem SourceMap.Renumbered.locate {m m' : SourceMap} (h : m.Renumbered ρ m') (unit : Nat)
    (span : Span) : m'.locate (ρ.unit unit) span = (m.locate unit span).renumber ρ := by
  unfold SourceMap.locate
  rw [h unit]
  cases m.get? unit <;> rfl

/-- The same modules, at other numbers. -/
def ModuleGraph.Renumbered (ρ : Renumbering) (g g' : ModuleGraph) : Prop :=
  ∀ index : Nat, g'.modules[ρ.home index]? = g.modules[index]?

namespace ModuleGraph.Renumbered

variable {g g' : ModuleGraph} (h : g.Renumbered ρ g')
include h

theorem get? (id : ModuleId) : g'.get? (id.renumber ρ) = g.get? id := by
  cases id with
  | global => rw [ModuleId.renumber, ModuleGraph.get?_global, ModuleGraph.get?_global]
  | declared index =>
    rw [ModuleId.renumber, ModuleGraph.get?_declared, ModuleGraph.get?_declared, h index]

theorem name (id : ModuleId) : g'.name (id.renumber ρ) = g.name id := by
  cases id with
  | global => rw [ModuleId.renumber, ModuleGraph.name_global, ModuleGraph.name_global]
  | declared index =>
    rw [ModuleId.renumber, ModuleGraph.name_declared, ModuleGraph.name_declared, h index]

theorem scopesInternal (id : ModuleId) :
    g'.scopesInternal (id.renumber ρ) = g.scopesInternal id := by
  rw [ModuleGraph.scopesInternal_eq, ModuleGraph.scopesInternal_eq, h.get? id]

/-- What is enforced does not depend on the numbers. -/
theorem permits_effective (v : Visibility) (home accessor : ModuleId) (isDegraded : Bool) :
    (g'.effective v (home.renumber ρ) isDegraded).permits (accessor.renumber ρ) (home.renumber ρ) =
      (g.effective v home isDegraded).permits accessor home := by
  unfold effective
  rw [h.scopesInternal]
  generalize (if (isDegraded || !g.scopesInternal home) = true then Visibility.public else v) = v'
  cases v' with
  | «public» => rfl
  | internal =>
    simp only [Visibility.permits]
    rw [Bool.eq_iff_iff, beq_iff_eq, beq_iff_eq, ModuleId.renumber_inj]

end ModuleGraph.Renumbered

namespace SymbolTable

variable {t t' : SymbolTable}

/-- The same symbols, at other numbers and no name twice. -/
structure Renumbered (ρ : Renumbering) (t t' : SymbolTable) : Prop where
  get? : ∀ id, t'.get? (id.renumber ρ) = (t.get? id).map (Symbol.renumber ρ)
  names : t.DistinctNames
  names' : t'.DistinctNames

namespace Renumbered

theorem symm (h : t.Renumbered ρ t') : t'.Renumbered ρ.symm t where
  get? id := by
    have hget := h.get? (id.renumber ρ.symm)
    rw [SymbolId.renumber_renumber_symm] at hget
    rw [hget, Option.map_map]
    cases t.get? (id.renumber ρ.symm) <;> simp
  names := h.names'
  names' := h.names

theorem get?_eq_some (h : t.Renumbered ρ t') {id : SymbolId} {s : Symbol}
    (hs : t.get? id = some s) : t'.get? (id.renumber ρ) = some (s.renumber ρ) := by
  rw [h.get?, hs, Option.map_some]

/-- Every symbol of the second table is one of the first. -/
theorem exists_get? (h : t.Renumbered ρ t') {id' : SymbolId} {s' : Symbol}
    (hs : t'.get? id' = some s') :
    ∃ id s, id' = id.renumber ρ ∧ s' = s.renumber ρ ∧ t.get? id = some s := by
  have hget := h.get? (id'.renumber ρ.symm)
  rw [SymbolId.renumber_renumber_symm, hs] at hget
  obtain ⟨s, hs, heq⟩ := Option.map_eq_some_iff.1 hget.symm
  exact ⟨_, s, (SymbolId.renumber_renumber_symm id').symm, heq.symm, hs⟩

theorem name (h : t.Renumbered ρ t') (id : SymbolId) : t'.name (id.renumber ρ) = t.name id := by
  simp only [SymbolTable.name, h.get? id, Option.map_map]
  rfl

/-- A name belongs to the same symbol. -/
theorem find? (h : t.Renumbered ρ t') (name : String) :
    t'.find? name = (t.find? name).map (SymbolId.renumber ρ) := by
  cases hfind : t.find? name with
  | some id =>
    obtain ⟨s, hs, rfl⟩ := get?_of_find? hfind
    have hfound := h.names'.find? (h.get?_eq_some hs)
    exact hfound
  | none =>
    cases hfind' : t'.find? name with
    | none => rfl
    | some id' =>
      obtain ⟨s', hs', rfl⟩ := get?_of_find? hfind'
      obtain ⟨id, s, _, rfl, hs⟩ := h.exists_get? hs'
      exact absurd rfl (find?_eq_none_iff.1 hfind s (mem_symbols_of_get? hs))

theorem lookup? (h : t.Renumbered ρ t') (name : String) :
    t'.lookup? name =
      (t.lookup? name).map fun (id, s) => (id.renumber ρ, s.renumber ρ) := by
  unfold SymbolTable.lookup?
  rw [h.find?]
  cases hfind : t.find? name with
  | none => rfl
  | some id =>
    obtain ⟨s, hs, _⟩ := get?_of_find? hfind
    simp [h.get?_eq_some hs, hs]

theorem lookupKind? (h : t.Renumbered ρ t') (kind : SymbolKind) (name : String) :
    t'.lookupKind? kind name =
      (t.lookupKind? kind name).map fun (id, s) => (id.renumber ρ, s.renumber ρ) := by
  unfold SymbolTable.lookupKind?
  rw [h.lookup?, Option.filter_map]
  rfl

theorem perm_entries (h : t.Renumbered ρ t') :
    t'.entries.Perm (t.entries.map fun (id, s) => (id.renumber ρ, s.renumber ρ)) := by
  have hids : (t.entries.map fun (id, s) => (id.renumber ρ, s.renumber ρ)).map Prod.fst =
      (t.entries.map Prod.fst).map (SymbolId.renumber ρ) := by
    simp only [List.map_map]
    rfl
  have hnodup' : t'.entries.Nodup := List.Nodup.of_map _ t'.nodup_ids
  have hnodup : (t.entries.map fun (id, s) => (id.renumber ρ, s.renumber ρ)).Nodup := by
    refine List.Nodup.of_map Prod.fst ?_
    rw [hids]
    exact t.nodup_ids.map SymbolId.renumber_injective
  refine (List.perm_ext_iff_of_nodup hnodup' hnodup).2 fun (id', s') => ?_
  simp only [mem_entries, List.mem_map, Prod.exists, Prod.mk.injEq]
  constructor
  · intro hs'
    obtain ⟨id, s, rfl, rfl, hs⟩ := h.exists_get? hs'
    exact ⟨id, s, hs, rfl, rfl⟩
  · rintro ⟨id, s, hs, rfl, rfl⟩
    exact h.get?_eq_some hs

theorem perm_symbols (h : t.Renumbered ρ t') :
    t'.symbols.Perm (t.symbols.map (Symbol.renumber ρ)) := by
  have hperm := h.perm_entries.map Prod.snd
  rw [symbols_entries, List.map_map] at hperm
  rw [← symbols_entries t, List.map_map]
  exact hperm

theorem perm_ofKind (h : t.Renumbered ρ t') (kind : SymbolKind) :
    (t'.ofKind kind).Perm ((t.ofKind kind).map (SymbolId.renumber ρ)) := by
  have hperm := (h.perm_entries.filter fun (_, s) => s.kind == kind).map Prod.fst
  rw [List.filter_map, List.map_map] at hperm
  rw [ofKind_eq, ofKind_eq, List.map_map]
  exact hperm

/-! The use graph. -/

theorem useTarget? (h : t.Renumbered ρ t') (clause : UseClause) :
    t'.useTarget? clause = (t.useTarget? clause).map (SymbolId.renumber ρ) := by
  unfold SymbolTable.useTarget?
  rw [h.lookupKind?, Option.map_map, Option.map_map]
  rfl

theorem uses (h : t.Renumbered ρ t') (id : SymbolId) :
    t'.useGraph.uses (id.renumber ρ) =
      (t.useGraph.uses id).map (Option.map (SymbolId.renumber ρ)) := by
  cases hget : t.get? id with
  | none =>
    have hget' : t'.get? (id.renumber ρ) = none := by rw [h.get?, hget, Option.map_none]
    rw [uses_useGraph_of_none hget, uses_useGraph_of_none hget', List.map_nil]
  | some owner =>
    rw [uses_useGraph hget, uses_useGraph (h.get?_eq_some hget), List.map_map]
    exact List.map_congr_left fun clause _ => h.useTarget? clause

theorem leads (h : t.Renumbered ρ t') {a b : SymbolId} (hleads : t.useGraph.Leads a b) :
    t'.useGraph.Leads (a.renumber ρ) (b.renumber ρ) := by
  unfold UseGraph.Leads
  rw [h.uses]
  exact List.mem_map.2 ⟨some b, hleads, rfl⟩

end Renumbered
end SymbolTable
end ModuleVisibility
