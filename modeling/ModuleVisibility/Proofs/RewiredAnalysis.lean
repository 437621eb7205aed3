import ModuleVisibility.Proofs.DeclarationSite
import ModuleVisibility.Proofs.RewiredCheck
import ModuleVisibility.Proofs.RewiredFlattening

/-!
The analysis of a program in which one declaration has other use clauses. If flattening comes to the
same tables nothing behind it changes, and all that can differ in the reports is what flattening
itself has found.
-/
namespace ModuleVisibility

/-- The same tables, whatever was reported on the way. -/
structure Flattening.SameTables (f f' : Flattening) : Prop where
  traits : f'.traits = f.traits
  classes : f'.classes = f.classes
  cyclic : f'.cyclic = f.cyclic

namespace Analysis

/-- Two results that differ in the use clauses of one symbol, and in what is reported. -/
structure Rewired (id : SymbolId) (f : List UseClause → List UseClause) (a a' : Analysis) :
    Prop where
  sources : a'.sources = a.sources
  modules : a'.modules = a.modules
  symbols : a'.symbols = a.symbols.rewire id f
  traits : a'.flattening.traits = a.flattening.traits
  classes : a'.flattening.classes = a.flattening.classes
  cyclic : a'.flattening.cyclic = a.flattening.cyclic
  unresolved : a'.unresolved = a.unresolved

variable {units : List ParsedUnit} {site : DeclarationSite} {id : SymbolId}
  {f : List UseClause → List UseClause}

/-- Flattening for the program of some units with other symbols. -/
def flattened (units : List ParsedUnit) (symbols : SymbolTable) : Flattening :=
  .ofProgram symbols (collected units).modules (texts units)

theorem flattening_checked (units : List ParsedUnit) :
    (checked units).flattening = flattened units (collected units).symbols := rfl

variable (hsite : owner? site units = some id)
  (htables : (flattened units (collected units).symbols).SameTables
    (flattened units ((collected units).symbols.rewire id f)))
include hsite

theorem flattening_rewire : (checked (site.rewire f units)).flattening =
    flattened units ((collected units).symbols.rewire id f) := by
  rw [flattening_checked]
  unfold flattened
  rw [collected_rewire, hsite, texts_rewire]
  rfl

theorem modules_rewire : (checked (site.rewire f units)).modules = (checked units).modules := by
  unfold checked
  rw [collected_rewire, hsite]
  rfl

include htables

theorem symbols_checked_rewire :
    (checked (site.rewire f units)).symbols = (checked units).symbols.rewire id f := by
  have hmarked : ∀ units, (checked units).symbols =
    (checked units).flattening.cyclic.foldl SymbolTable.markUnresolved (collected units).symbols :=
    fun _ => rfl
  rw [hmarked, hmarked units, flattening_rewire hsite, htables.cyclic, ← flattening_checked,
    collected_rewire, hsite]
  exact SymbolTable.foldl_markUnresolved_rewire _ id _

theorem rewired_checked : (checked units).Rewired (checked (site.rewire f units)) where
  symbols := by
    rw [symbols_checked_rewire hsite htables]
    exact SymbolTable.bare_rewire _ id
  modules := modules_rewire hsite
  traits := by rw [flattening_rewire hsite, htables.traits, flattening_checked]
  classes := by rw [flattening_rewire hsite, htables.classes, flattening_checked]

/-- Nothing else is reported before flattening and behind it. -/
theorem exists_found_rewire : ∃ before after,
    found units = before ++ (flattened units (collected units).symbols).diagnostics ++ after ∧
      found (site.rewire f units) =
        before ++ (flattened units ((collected units).symbols.rewire id f)).diagnostics ++
          after := by
  have hconflicts : (collected (site.rewire f units)).diagnostics =
      (collected units).diagnostics := by
    rw [collected_rewire, hsite]
    rfl
  refine ⟨syntaxDiagnostics (texts units) units ++ (collected units).diagnostics,
    (checked units).violations (texts units), rfl, ?_⟩
  unfold found
  rw [texts_rewire, syntaxDiagnostics_rewire, hconflicts, flattening_rewire hsite,
    (rewired_checked hsite htables).violations]

theorem rewired_ofUnits (policy : Policy) :
    (ofUnits policy units).Rewired id f (ofUnits policy (site.rewire f units)) := by
  have hprogram := rewired_checked hsite htables
  have hsymbols := symbols_checked_rewire hsite htables
  have hcyclic : (checked (site.rewire f units)).flattening.cyclic =
      (checked units).flattening.cyclic := by
    rw [flattening_rewire hsite, htables.cyclic, flattening_checked]
  rw [← program_ofUnits policy, ← program_ofUnits policy] at hprogram hsymbols hcyclic
  exact ⟨texts_rewire site f units, hprogram.modules, hsymbols, hprogram.traits, hprogram.classes,
    hcyclic, by rw [unresolved_ofUnits, unresolved_ofUnits, hprogram.unresolved]⟩

end Analysis
end ModuleVisibility
