import ModuleVisibility.Proofs.RenumberedCheck
import ModuleVisibility.Proofs.Wording

/-!
The result of an analysis does not depend on the order of units and declarations. In another order
the numbers are others, and so is what is listed first; what is declared, composed, reported and
left unresolved is the same.
-/
namespace ModuleVisibility

variable {ρ : Renumbering}

theorem Policy.regrade_renumber (policy : Policy) (d : Diagnostic) :
    policy.regrade (d.renumber ρ) = (policy.regrade d).renumber ρ := by
  have hkind : (d.renumber ρ).kind = d.kind := rfl
  unfold regrade
  rw [hkind]
  cases policy.severityOverride? d.kind <;> rfl

/-- What a policy makes of findings does not depend on their order and numbers. -/
theorem Policy.perm_apply (policy : Policy) {ds ds' : List Diagnostic}
    (h : ds'.Perm (ds.map (Diagnostic.renumber ρ))) :
    (policy.apply ds').Perm ((policy.apply ds).map (Diagnostic.renumber ρ)) := by
  unfold apply
  refine ((h.filter _).map _).trans (List.Perm.of_eq ?_)
  rw [List.filter_map, List.map_map, List.map_map]
  exact List.map_congr_left fun d _ => policy.regrade_renumber d

namespace Analysis

variable {policy : Policy} {units units' : List ParsedUnit}

/-- Two results that differ in their numbers, and in the order of what they list. -/
structure Agrees (ρ : Renumbering) (a a' : Analysis) : Prop where
  sources : a.sources.Renumbered ρ a'.sources
  modules : ∀ id, a'.modules.get? (id.renumber ρ) = a.modules.get? id
  modulesByName : ∀ name, a'.modules.lookup? name =
    (a.modules.lookup? name).map (ModuleId.renumber ρ)
  scopesInternal : ∀ id, a'.modules.scopesInternal (id.renumber ρ) = a.modules.scopesInternal id
  symbols : ∀ id, a'.symbols.get? (id.renumber ρ) = (a.symbols.get? id).map (Symbol.renumber ρ)
  symbolsByName : ∀ name, a'.symbols.find? name =
    (a.symbols.find? name).map (SymbolId.renumber ρ)
  classes : ∀ name, (a'.symbols.find? name).bind a'.flattening.inherited? =
    ((a.symbols.find? name).bind a.flattening.inherited?).map
      (MemberTable.map (InheritedMember.renumber ρ))
  traits : ∀ name, (a'.symbols.find? name).bind a'.flattening.traitMembers? =
    ((a.symbols.find? name).bind a.flattening.traitMembers?).map
      (MemberTable.map (FlatMember.renumber ρ))
  diagnostics : a'.diagnostics.Perm (a.diagnostics.map (Diagnostic.renumber ρ))
  unresolved : a'.unresolved.Perm (a.unresolved.map (UnresolvedReference.renumber ρ))

/-- Without cycles no symbol is marked. -/
theorem symbols_checked (hacyclic : (collected units).symbols.useGraph.Acyclic) :
    (checked units).symbols = (collected units).symbols := by
  have hcyclic : (checked units).flattening.cyclic = [] :=
    Flattening.cyclic_ofProgram_of_acyclic hacyclic
  have hmarked : (checked units).symbols = (checked units).flattening.cyclic.foldl
    SymbolTable.markUnresolved (collected units).symbols := rfl
  rw [hmarked, hcyclic]
  rfl

section

variable (hρ : Renumbered ρ units units')
  (hacyclic : (collected units).symbols.useGraph.Acyclic)
include hρ hacyclic

theorem renumbered_checked : (checked units).Renumbered ρ (checked units') where
  symbols := by
    rw [symbols_checked hacyclic, symbols_checked (hρ.symbols.acyclic hacyclic)]
    exact hρ.symbols
  modules := hρ.modules
  flattening := Flattening.renumbered_ofProgram hρ.symbols hρ.modules hρ.sources hacyclic

/-- What is found is found in either order, by every stage. -/
theorem perm_found (hplain : (ofUnits policy units).PlainNames) :
    (found units').Perm ((found units).map (Diagnostic.renumber ρ)) := by
  have hflattening := Flattening.perm_diagnostics_ofProgram hρ.symbols hρ.modules hρ.sources
    hacyclic
  have hviolations := (renumbered_checked hρ hacyclic).perm_violations hρ.sources
    fun d hd d' hd' hkey => by
      have hreports := fun d => mem_reports_iff (d := d) (distinctNames_ofUnits policy units)
        (pinned_ofUnits policy units)
      exact ((hreports d).1 hd).eq_of_key_eq hplain ((hreports d').1 hd') hkey
  unfold found
  rw [List.map_append, List.map_append, List.map_append]
  exact ((hρ.faults.append hρ.conflicts).append hflattening).append hviolations

theorem agrees_ofUnits (hplain : (ofUnits policy units).PlainNames) :
    Agrees ρ (ofUnits policy units) (ofUnits policy units') := by
  have hchecked := renumbered_checked hρ hacyclic
  have hfind := hchecked.symbols.find?
  refine {
    sources := hρ.sources
    modules := hρ.modules.get?
    modulesByName := hρ.lookup?
    scopesInternal := hρ.modules.scopesInternal
    symbols := hchecked.symbols.get?
    symbolsByName := hfind
    classes := fun name => ?_
    traits := fun name => ?_
    diagnostics := ?_
    unresolved := ?_ }
  · have hclasses := hchecked.flattening.classes
    refine (congrArg (Option.bind · _) (hfind name)).trans ?_
    rw [Option.bind_map, Option.map_bind]
    exact congrArg _ (funext hclasses)
  · have htraits := hchecked.flattening.traits
    refine (congrArg (Option.bind · _) (hfind name)).trans ?_
    rw [Option.bind_map, Option.map_bind]
    exact congrArg _ (funext htraits)
  · have happlied := policy.perm_apply (perm_found hρ hacyclic hplain)
    exact (perm_diagnostics policy units').trans
      (happlied.trans ((perm_diagnostics policy units).symm.map _))
  · rw [unresolved_ofUnits, unresolved_ofUnits, program_ofUnits, program_ofUnits]
    exact hchecked.perm_unresolved

end

/-- The order of units and of the declarations in them does not matter. -/
theorem agrees_of_rearranged (policy : Policy) (h : Rearranged units units')
    (hplain : ∀ u ∈ units, ∀ name ∈ u.unit.names, Plain name)
    (hnames : (declaredNames (units.map (·.unit))).Nodup)
    (hacyclic : (collected units).symbols.useGraph.Acyclic) :
    ∃ ρ, Agrees ρ (ofUnits policy units) (ofUnits policy units') := by
  obtain ⟨ρ, hρ⟩ := exists_renumbered h hnames
  exact ⟨ρ, agrees_ofUnits hρ hacyclic (plainNames_ofUnits policy hplain)⟩

/-- A module with a class, a trait and a function, and a call of the function from without. -/
def library : List SourceFile :=
  [⟨"lib.php", "<?hh\nnew module Lib \x7b\x7d\n"⟩,
    ⟨"c.php", "<?hh\nmodule Lib;\nclass C \x7b use T; \x7d\n<<__ModuleLevelTrait>>\n"
      ++ "trait T \x7b internal function m(): void \x7b secret(); \x7d \x7d\n"
      ++ "internal function secret(): void \x7b\x7d\n"⟩,
    ⟨"main.php", "<?hh\nfunction main(): void \x7b secret(); missing(); \x7d\n"⟩]

/-- The units from the last to the first, and in each the declarations likewise. -/
def backwards (units : List ParsedUnit) : List ParsedUnit :=
  units.reverse.map fun u =>
    { u with unit := { u.unit with declarations := u.unit.declarations.reverse } }

theorem rearranged_backwards (units : List ParsedUnit) : Rearranged units (backwards units) := by
  refine ⟨units.reverse, units.reverse_perm.symm, List.forall₂_map_right_iff.2 ?_⟩
  exact List.forall₂_same.2 fun u _ => ⟨rfl, rfl, ⟨rfl, .refl _, List.reverse_perm _⟩⟩

/-- Backwards it has the same denial and the same unresolved call, one of each. -/
theorem agrees_backwards_library :
    Rearranged (parseProgram library) (backwards (parseProgram library)) ∧
      (∀ u ∈ parseProgram library, ∀ name ∈ u.unit.names, Plain name) ∧
      (declaredNames ((parseProgram library).map (·.unit))).Nodup ∧
      (collected (parseProgram library)).symbols.useGraph.Acyclic ∧
      (ofFiles .default library).diagnostics.length = 1 ∧
      (ofFiles .default library).unresolved.length = 1 ∧
      ∃ ρ, Agrees ρ (ofFiles .default library)
        (ofUnits .default (backwards (parseProgram library))) := by
  have hchecks : (∀ u ∈ parseProgram library, ∀ name ∈ u.unit.names, Plain name) ∧
      (declaredNames ((parseProgram library).map (·.unit))).Nodup ∧
      (collected (parseProgram library)).symbols.useGraph.Acyclic ∧
      (ofFiles .default library).diagnostics.length = 1 ∧
      (ofFiles .default library).unresolved.length = 1 := by decide +kernel
  obtain ⟨hplain, hnames, hacyclic, hdiagnostics, hunresolved⟩ := hchecks
  have hrearranged := rearranged_backwards (parseProgram library)
  exact ⟨hrearranged, hplain, hnames, hacyclic, hdiagnostics, hunresolved,
    agrees_of_rearranged .default hrearranged hplain hnames hacyclic⟩

end Analysis
end ModuleVisibility
