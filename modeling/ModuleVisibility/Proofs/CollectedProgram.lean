import ModuleVisibility.Proofs.Declaring

/-!
What the collection of any units holds, whatever names they repeat and share with modules: the
symbol of each name is its first declaration, every further declaration and every name of a module
that is declared has one report, and the modules are those that the units mention.
-/
namespace ModuleVisibility

/-- The declarations whose names come earlier in the list, each behind the first of its name. -/
def repetitions (ds : List (Nat × Declaration)) :
    List ((Nat × Declaration) × (Nat × Declaration)) :=
  ds.zipIdx.filterMap fun (p, index) =>
    ((ds.take index).find? (·.2.name == p.2.name)).map fun first => (first, p)

theorem repetitions_concat (ds : List (Nat × Declaration)) (p : Nat × Declaration) :
    repetitions (ds ++ [p]) =
      repetitions ds ++ ((ds.find? (·.2.name == p.2.name)).map fun first => (first, p)).toList := by
  unfold repetitions
  rw [List.zipIdx_append, List.filterMap_append]
  congr 1
  · refine List.filterMap_congr fun ⟨q, index⟩ hq => ?_
    have hindex : index ≤ ds.length := Nat.le_of_lt (List.snd_lt_of_mem_zipIdx hq)
    dsimp only
    rw [List.take_append_of_le_length hindex]
  · cases hfirst : ds.find? (·.2.name == p.2.name) <;> simp [hfirst]

/-- The module of what stands at `position` in a unit: that of the directive from its end on. -/
def ModuleGraph.Places (g : ModuleGraph) (unit : CompilationUnit) (position : Nat)
    (home : ModuleId) : Prop :=
  match unit.directive with
  | none => home = .global
  | some directive =>
    if directive.span.hi ≤ position then g.lookup? directive.name = some home else home = .global

theorem ModuleGraph.places_homeIn {g : ModuleGraph} {unit : CompilationUnit}
    (h : ∀ name ∈ unit.mentions, name ∈ g.names) (position : Nat) :
    g.Places unit position (g.homeIn unit position) := by
  unfold Places homeIn
  cases hdirective : unit.directive with
  | none => rfl
  | some directive =>
    have hknown : directive.name ∈ g.names := h _ (by simp [CompilationUnit.mentions, hdirective])
    obtain ⟨id, hid⟩ := Option.isSome_iff_exists.1 (isSome_lookup? hknown)
    dsimp only
    split
    · rw [hid]
      rfl
    · rfl

/-- The symbol holds a declaration of the units, which stand in the modules of `g`. -/
structure Symbol.Holds (g : ModuleGraph) (units : List CompilationUnit) (p : Nat × Declaration)
    (s : Symbol) : Prop where
  name : s.name = p.2.name
  visibility : s.visibility = p.2.visibility
  content : s.content = p.2.content
  unit : s.unit = p.1
  span : s.span = p.2.span
  home : ∃ u, units[p.1]? = some u ∧ p.2 ∈ u.declarations ∧ g.Places u p.2.span.lo s.home
  unresolved : s.isUnresolved = true ↔ 2 ≤ (declaredNames units).count p.2.name

namespace Collection

variable {g : ModuleGraph} {sources : SourceMap} {units : List CompilationUnit}

/-- The report of a declaration whose name is that of `first`. -/
def duplicate (sources : SourceMap) (first p : Nat × Declaration) : Diagnostic :=
  (Finding.duplicate p.2.name first.2.content.kind
    (sources.locate first.1 first.2.span)).report (sources.locate p.1 p.2.span)

/-- The report of a declaration that has the name of a module. -/
def conflict (sources : SourceMap) (p : Nat × Declaration) : Diagnostic :=
  (Finding.moduleNameTaken p.2.content.kind p.2.name).report (sources.locate p.1 p.2.span)

/-- Behind other declarations, one is reported as a duplicate exactly if its name is known. -/
theorem filter_duplicate_report? (g : ModuleGraph) (sources : SourceMap)
    (before : List (Nat × Declaration)) (p : Nat × Declaration) :
    (report? g sources before p.1 p.2).toList.filter (·.kind = .duplicateSymbol) =
      ((before.find? (·.2.name == p.2.name)).map fun first =>
        duplicate sources first p).toList := by
  unfold report? conflict?
  cases before.find? (·.2.name == p.2.name) with
  | some first => rfl
  | none =>
    dsimp only
    split <;> rfl

/-- It is reported for the name of a module only if its name is new. -/
theorem filter_conflict_report? (g : ModuleGraph) (sources : SourceMap)
    (before : List (Nat × Declaration)) (p : Nat × Declaration) :
    (report? g sources before p.1 p.2).toList.filter (·.kind = .moduleRedeclarationConflict) =
      if p.2.name ∉ before.map (·.2.name) ∧
        p.2.name ∈ g.names then [conflict sources p] else [] := by
  unfold report? conflict?
  cases hfirst : before.find? (·.2.name == p.2.name) with
  | some first =>
    have hname : (first.2.name == p.2.name) = true := by simpa using List.find?_some hfirst
    have hknown : p.2.name ∈ before.map (·.2.name) :=
      List.mem_map.2 ⟨first, List.mem_of_find?_eq_some hfirst, beq_iff_eq.1 hname⟩
    dsimp only
    rw [if_neg fun h => h.1 hknown]
    rfl
  | none =>
    have hnew : p.2.name ∉ before.map (·.2.name) := by
      intro hknown
      obtain ⟨q, hq, hname⟩ := List.mem_map.1 hknown
      exact List.find?_eq_none.1 hfirst q hq (beq_iff_eq.2 hname)
    by_cases hmodule : p.2.name ∈ g.names
    · simp only [if_pos hmodule, if_pos (And.intro hnew hmodule)]
      rfl
    · simp only [if_neg hmodule, if_neg fun h : _ ∧ _ => hmodule h.2]
      rfl

/-- Each further declaration of a name has one report, in order. -/
theorem duplicates_reports (g : ModuleGraph) (sources : SourceMap) (ds : List (Nat × Declaration)) :
    (reports g sources [] ds).filter (·.kind = .duplicateSymbol) =
      (repetitions ds).map fun (first, p) => duplicate sources first p := by
  induction ds using List.reverseRecOn with
  | nil => rfl
  | append_singleton ds p ih =>
    rw [reports_append, List.filter_append, ih, repetitions_concat, List.map_append]
    congr 1
    have hlast := filter_duplicate_report? g sources ds p
    cases hfirst : ds.find? (·.2.name == p.2.name) <;> simpa [reports, hfirst] using hlast

/-- Each name of a module that is declared has one report, at its first declaration. -/
theorem conflicts_reports (g : ModuleGraph) (sources : SourceMap) (ds : List (Nat × Declaration)) :
    (reports g sources [] ds).filter (·.kind = .moduleRedeclarationConflict) =
      ((distinctBy (·.2.name) ds).filter (·.2.name ∈ g.names)).map (conflict sources) := by
  induction ds using List.reverseRecOn with
  | nil => rfl
  | append_singleton ds p ih =>
    rw [reports_append, List.filter_append, ih, distinctBy_concat, List.filter_append,
      List.map_append]
    congr 1
    have hlast := filter_conflict_report? g sources ds p
    by_cases hknown : p.2.name ∈ ds.map (·.2.name)
    · simpa [reports, hknown] using hlast
    · by_cases hmodule : p.2.name ∈ g.names <;> simpa [reports, hknown, hmodule] using hlast

theorem count_declaredNames (units : List CompilationUnit) (name : String) :
    (numbered units).countP (·.2.name == name) = (declaredNames units).count name := by
  rw [← names_numbered, List.count, List.countP_map]
  rfl

/-- The first declaration of a name is the symbol of that name. -/
theorem lookup?_of_first (sources : SourceMap) {p : Nat × Declaration}
    (hfirst : (numbered units).find? (·.2.name == p.2.name) = some p) :
    ∃ id, (ofUnits sources units).symbols.lookup? p.2.name =
      some (id, symbolAmong (.ofUnits units) (numbered units) p) := by
  have hdeclares := declares_ofUnits sources units
  cases hfind : (ofUnits sources units).symbols.find? p.2.name with
  | none =>
    exact absurd (List.mem_map_of_mem (List.mem_of_find?_eq_some hfirst))
      (hdeclares.find?_eq_none_iff.1 hfind)
  | some id =>
    obtain ⟨q, hq, hget⟩ := hdeclares.symbol_of_find? hfind
    cases hfirst.symm.trans hq
    exact ⟨id, SymbolTable.lookup?_eq_some_iff.2 ⟨hfind, hget⟩⟩

theorem holds_symbolAmong (hnames : g.names = (ModuleGraph.ofUnits units).names)
    {p : Nat × Declaration} (hp : p ∈ numbered units) :
    (symbolAmong (.ofUnits units) (numbered units) p).Holds g units p where
  name := rfl
  visibility := rfl
  content := rfl
  unit := rfl
  span := rfl
  home := by
    obtain ⟨u, hu, hd⟩ := exists_getElem?_of_mem_numbered hp
    have hknown : ∀ name ∈ u.mentions, name ∈ g.names := fun name hname =>
      hnames ▸ ModuleGraph.mem_names_ofUnits.2 ⟨u, List.mem_of_getElem? hu, hname⟩
    have hhome : (ModuleGraph.ofUnits units).homeIn u p.2.span.lo = g.homeIn u p.2.span.lo := by
      unfold ModuleGraph.homeIn
      simp only [ModuleGraph.lookup?_congr hnames]
    refine ⟨u, hu, hd, ?_⟩
    rw [show (symbolAmong (.ofUnits units) (numbered units) p).home = g.homeIn u p.2.span.lo from
      (ModuleGraph.moduleAt_ofUnits hu _).trans hhome]
    exact ModuleGraph.places_homeIn hknown _
  unresolved := by
    rw [← count_declaredNames]
    exact decide_eq_true_iff

/-- What the collection `c` of units holds. The symbols have the declared names, each once; the
symbol of a name is its first declaration; all that is reported are further declarations of a name
and first declarations that have the name of a module; and the modules are those mentioned. -/
structure Collects (sources : SourceMap) (units : List CompilationUnit) (c : Collection) :
    Prop where
  names : c.symbols.symbols.map Symbol.name = distinctBy id (declaredNames units)
  first : ∀ before p after, numbered units = before ++ p :: after →
    p.2.name ∉ before.map (·.2.name) →
      ∃ id s, c.symbols.lookup? p.2.name = some (id, s) ∧ s.Holds c.modules units p
  duplicates : c.diagnostics.filter (·.kind = .duplicateSymbol) =
    (repetitions (numbered units)).map fun (first, p) => duplicate sources first p
  conflicts : c.diagnostics.filter (·.kind = .moduleRedeclarationConflict) =
    ((distinctBy (·.2.name) (numbered units)).filter (·.2.name ∈ c.modules.names)).map
      (conflict sources)
  kinds : ∀ d ∈ c.diagnostics, d.kind = .duplicateSymbol ∨ d.kind = .moduleRedeclarationConflict
  nodup : c.modules.names.Nodup
  mentioned : ∀ name, name ∈ c.modules.names ↔ ∃ u ∈ units,
    (∃ m ∈ u.definitions, m.name = name) ∨ ∃ m, u.directive = some m ∧ m.name = name
  unresolved : ∀ m ∈ c.modules.modules, m.isUnresolved = true ↔ m.name ∈ declaredNames units

/-- Collection holds just that, for any units. -/
theorem collects_ofUnits (sources : SourceMap) (units : List CompilationUnit) :
    Collects sources units (ofUnits sources units) := by
  have hdeclares := declares_ofUnits sources units
  refine ⟨?_, ?_, ?_, ?_, (sound_ofUnits sources units).kinds, ?_, ?_, ?_⟩
  · have hnames : distinctBy id ((numbered units).map (·.2.name)) =
        (distinctBy (·.2.name) (numbered units)).map (·.2.name) :=
      distinctBy_map _ fun _ _ _ _ => Iff.rfl
    rw [hdeclares.symbols, ← names_numbered, List.map_map, hnames]
    rfl
  · intro before p after hsplit hnew
    have hp : p ∈ numbered units := hsplit ▸ List.mem_append_right _ List.mem_cons_self
    have hfirst : (numbered units).find? (·.2.name == p.2.name) = some p := by
      have hbefore : before.find? (·.2.name == p.2.name) = none :=
        List.find?_eq_none.2 fun q hq hname =>
          hnew (List.mem_map.2 ⟨q, hq, beq_iff_eq.1 hname⟩)
      rw [hsplit, List.find?_append, hbefore, Option.none_or, List.find?_cons_of_pos (by simp)]
    obtain ⟨id, hlookup⟩ := lookup?_of_first sources hfirst
    exact ⟨id, _, hlookup, holds_symbolAmong hdeclares.names hp⟩
  · rw [hdeclares.diagnostics, duplicates_reports]
  · rw [hdeclares.diagnostics, conflicts_reports, hdeclares.names]
  · rw [hdeclares.names]
    exact ModuleGraph.nodup_names_ofUnits units
  · intro name
    rw [hdeclares.names, ModuleGraph.mem_names_ofUnits]
    simp [CompilationUnit.mentions]
  · intro m hm
    rw [hdeclares.modules] at hm
    obtain ⟨original, _, rfl⟩ := List.mem_map.1 hm
    rw [← names_numbered]
    exact decide_eq_true_iff

end Collection
end ModuleVisibility
