import ModuleVisibility.Proofs.ExtendedCheck

/-!
Units that are appended to a program. Where they declare no name that the program declares, looks up
or names a module by, all that the program has collected stays, and theirs comes behind it.
-/
namespace ModuleVisibility

/-- The names of the modules that units mention. -/
def moduleNames (units : List CompilationUnit) : List String :=
  units.flatMap CompilationUnit.mentions

/-- The names that the use clauses and bodies of units look up. -/
def lookedUpNames (units : List CompilationUnit) : List String :=
  units.flatMap fun u => u.declarations.flatMap (·.content.lookedUp)

/-- What the units `added` declare is new to `units`: nothing there declares it, looks it up or
names a module so; and no module they name becomes one with the name of a declaration of `units`. -/
structure Apart (units added : List CompilationUnit) : Prop where
  declared : ∀ name ∈ declaredNames added, name ∉ declaredNames units
  lookedUp : ∀ name ∈ declaredNames added, name ∉ lookedUpNames units
  modules : ∀ name ∈ declaredNames added, name ∉ moduleNames units
  entities : ∀ name ∈ moduleNames added, name ∈ declaredNames units → name ∈ moduleNames units

/-! The graph of modules. -/

namespace ModuleGraph

variable {units added : List CompilationUnit}

theorem mem_names_ofUnits_iff {name : String} :
    name ∈ (ofUnits units).names ↔ name ∈ moduleNames units := by
  rw [mem_names_ofUnits]
  exact List.mem_flatMap.symm

theorem grows_append (units added : List CompilationUnit) :
    Grows (ofUnits units) (ofUnits (units ++ added)) (moduleNames added) := by
  induction added using List.reverseRecOn with
  | nil =>
    rw [List.append_nil]
    exact Grows.refl _
  | append_singleton added u ih =>
    have hadd := addUnit_eq (initial_ofUnits (units ++ added)).entities (units ++ added).length u
    unfold moduleNames at *
    rw [← List.append_assoc, ofUnits_append_singleton, List.flatMap_append]
    simpa using ih.trans hadd.2.1

theorem moduleAt_append {index : Nat} (hindex : index < units.length) (position : Nat) :
    (ofUnits (units ++ added)).moduleAt index position =
      (ofUnits units).moduleAt index position := by
  have hu : units[index]? = some units[index] := List.getElem?_eq_getElem hindex
  have hu' : (units ++ added)[index]? = some units[index] := by
    rw [List.getElem?_append_left hindex, hu]
  rw [moduleAt_ofUnits hu, moduleAt_ofUnits hu']
  unfold homeIn
  cases hdirective : units[index].directive with
  | none => rfl
  | some directive =>
    have hknown : directive.name ∈ (ofUnits units).names :=
      mem_names_ofUnits.2 ⟨units[index], List.getElem_mem hindex,
        by simp [CompilationUnit.mentions, hdirective]⟩
    obtain ⟨id, hid⟩ := Option.isSome_iff_exists.1 (isSome_lookup? hknown)
    simp only [hid, (grows_append units added).lookup? hid]

end ModuleGraph

/-! The declarations. -/

/-- The declarations of units numbered from `first` on. -/
def numberedFrom (first : Nat) (units : List CompilationUnit) : List (Nat × Declaration) :=
  (units.zipIdx first).flatMap fun (u, index) => u.declarations.map (index, ·)

theorem numbered_append (units added : List CompilationUnit) :
    numbered (units ++ added) = numbered units ++ numberedFrom units.length added := by
  unfold numbered numberedFrom
  rw [List.zipIdx_append, List.flatMap_append, Nat.zero_add]

theorem of_mem_numberedFrom {first : Nat} {units : List CompilationUnit} {p : Nat × Declaration}
    (h : p ∈ numberedFrom first units) :
    first ≤ p.1 ∧ p.1 < first + units.length ∧ ∃ u ∈ units, p.2 ∈ u.declarations := by
  obtain ⟨⟨u, index⟩, hu, hp⟩ := List.mem_flatMap.1 h
  obtain ⟨d, hd, rfl⟩ := List.mem_map.1 hp
  obtain ⟨hfirst, hlast, hget⟩ := List.mem_zipIdx hu
  exact ⟨hfirst, by omega, u, hget ▸ List.getElem_mem _, hd⟩

theorem of_mem_numbered {units : List CompilationUnit} {p : Nat × Declaration}
    (h : p ∈ numbered units) : p.1 < units.length ∧ ∃ u ∈ units, p.2 ∈ u.declarations := by
  obtain ⟨u, hu, hp⟩ := exists_getElem?_of_mem_numbered h
  exact ⟨(List.getElem?_eq_some_iff.1 hu).1, u, List.mem_of_getElem? hu, hp⟩

theorem mem_declaredNames {units : List CompilationUnit} {u : CompilationUnit} {d : Declaration}
    (hu : u ∈ units) (hd : d ∈ u.declarations) : d.name ∈ declaredNames units :=
  List.mem_flatMap.2 ⟨u, hu, List.mem_map_of_mem hd⟩

namespace Collection

variable {units added : List CompilationUnit} {sources sources' : SourceMap}

section

variable (h : Apart units added)
include h

theorem symbolAmong_append {p : Nat × Declaration} (hp : p ∈ numbered units) :
    symbolAmong (ModuleGraph.ofUnits (units ++ added)) (numbered (units ++ added)) p =
      symbolAmong (ModuleGraph.ofUnits units) (numbered units) p := by
  obtain ⟨hunit, u, hu, hd⟩ := of_mem_numbered hp
  have hnone : (numberedFrom units.length added).countP (·.2.name == p.2.name) = 0 := by
    refine List.countP_eq_zero.2 fun q hq hsame => ?_
    obtain ⟨_, _, v, hv, hqd⟩ := of_mem_numberedFrom hq
    refine h.declared _ (mem_declaredNames hv hqd) ?_
    rw [beq_iff_eq.1 hsame]
    exact mem_declaredNames hu hd
  unfold symbolAmong
  rw [ModuleGraph.moduleAt_append hunit, numbered_append, List.countP_append, hnone, Nat.add_zero]

/-- The symbols of the units that were there stand first, and behind them those of the new ones. -/
theorem symbols_append : (ofUnits sources' (units ++ added)).symbols.symbols =
    (ofUnits sources units).symbols.symbols ++
      ((distinctBy (·.2.name) (numberedFrom units.length added)).filter fun q =>
        q.2.name ∉ (numbered units).map (·.2.name)).map
          (symbolAmong (ModuleGraph.ofUnits (units ++ added)) (numbered (units ++ added))) := by
  have hold : ∀ p ∈ distinctBy (·.2.name) (numbered units),
      symbolAmong (ModuleGraph.ofUnits (units ++ added)) (numbered (units ++ added)) p =
        symbolAmong (ModuleGraph.ofUnits units) (numbered units) p :=
    fun p hp => symbolAmong_append h (mem_of_mem_distinctBy hp)
  have hdistinct : distinctBy (·.2.name) (numbered (units ++ added)) =
      distinctBy (·.2.name) (numbered units) ++
        (distinctBy (·.2.name) (numberedFrom units.length added)).filter fun q =>
          q.2.name ∉ (numbered units).map (·.2.name) := by
    rw [numbered_append, distinctBy_append]
  rw [(declares_ofUnits sources units).symbols, (declares_ofUnits sources'
    (units ++ added)).symbols,
    ← List.map_congr_left hold, ← List.map_append, hdistinct]

theorem prefix_symbols : (ofUnits sources units).symbols.symbols <+:
    (ofUnits sources' (units ++ added)).symbols.symbols :=
  ⟨_, (symbols_append h).symm⟩

/-- A symbol that was not there is that of a declaration of the new units. -/
theorem of_new {id : SymbolId} {s : Symbol} (hnone : (ofUnits sources units).symbols.get? id = none)
    (hs : (ofUnits sources' (units ++ added)).symbols.get? id = some s) :
    units.length ≤ s.unit ∧ ∃ u ∈ added, ∃ d ∈ u.declarations, s.name = d.name ∧
      s.content = d.content := by
  rw [SymbolTable.get?_eq] at hnone hs
  have hle := List.getElem?_eq_none_iff.1 hnone
  have hsymbols : (ofUnits sources' (units ++ added)).symbols.symbols =
      (ofUnits sources units).symbols.symbols ++ _ := symbols_append h
  rw [hsymbols, List.getElem?_append_right hle] at hs
  obtain ⟨q, hq, rfl⟩ := List.mem_map.1 (List.mem_of_getElem? hs)
  obtain ⟨hunit, _, u, hu, hd⟩ :=
    of_mem_numberedFrom (mem_of_mem_distinctBy (List.mem_filter.1 hq).1)
  exact ⟨hunit, u, hu, q.2, hd, rfl, rfl⟩

/-- A name that the new units do not declare is found as before. -/
theorem find?_append {name : String} (hname : name ∉ declaredNames added) :
    (ofUnits sources' (units ++ added)).symbols.find? name =
      (ofUnits sources units).symbols.find? name := by
  cases hfind : (ofUnits sources units).symbols.find? name with
  | some id => exact SymbolTable.find?_of_grown (prefix_symbols h) hfind
  | none =>
    have hnot := (declares_ofUnits sources units).find?_eq_none_iff.1 hfind
    rw [(declares_ofUnits sources' (units ++ added)).find?_eq_none_iff, names_numbered]
    rw [names_numbered] at hnot
    unfold declaredNames at *
    rw [List.flatMap_append, List.mem_append]
    exact not_or.2 ⟨hnot, hname⟩

theorem prefix_modules : (ofUnits sources units).modules.modules <+:
    (ofUnits sources' (units ++ added)).modules.modules := by
  obtain ⟨later, hlater⟩ := (ModuleGraph.grows_append units added).modules
  have hmarks : ∀ m ∈ (ModuleGraph.ofUnits units).modules,
      ({ m with isUnresolved := decide (m.name ∈ (numbered (units ++ added)).map
        (·.2.name)) } : Module) =
        { m with isUnresolved := decide (m.name ∈ (numbered units).map (·.2.name)) } := by
    intro m hm
    have hmodule : m.name ∈ moduleNames units :=
      ModuleGraph.mem_names_ofUnits_iff.1 (List.mem_map_of_mem hm)
    have hnew : m.name ∉ (numberedFrom units.length added).map (·.2.name) := by
      intro hmem
      obtain ⟨q, hq, hname⟩ := List.mem_map.1 hmem
      obtain ⟨_, _, u, hu, hd⟩ := of_mem_numberedFrom hq
      exact h.modules _ (mem_declaredNames hu hd) (hname ▸ hmodule)
    have hiff : m.name ∈ (numbered (units ++ added)).map (·.2.name) ↔
        m.name ∈ (numbered units).map (·.2.name) := by
      rw [numbered_append, List.map_append, List.mem_append]
      exact or_iff_left hnew
    simp only [hiff]
  rw [(declares_ofUnits sources units).modules,
    (declares_ofUnits sources' (units ++ added)).modules,
    ← hlater, List.map_append, List.map_congr_left hmarks]
  exact List.prefix_append _ _

theorem conflict?_append (hsources : ∀ unit < units.length, ∀ span,
    sources'.locate unit span = sources.locate unit span) {p : Nat × Declaration}
    (hp : p ∈ numbered units) :
    conflict? (ModuleGraph.ofUnits (units ++ added)) sources' p.1 p.2 =
      conflict? (ModuleGraph.ofUnits units) sources p.1 p.2 := by
  obtain ⟨hunit, u, hu, hd⟩ := of_mem_numbered hp
  have hiff : p.2.name ∈ (ModuleGraph.ofUnits (units ++ added)).names ↔
      p.2.name ∈ (ModuleGraph.ofUnits units).names := by
    rw [(ModuleGraph.grows_append units added).mem]
    refine or_iff_left_of_imp fun hnew => ?_
    exact ModuleGraph.mem_names_ofUnits_iff.2 (h.entities _ hnew (mem_declaredNames hu hd))
  unfold conflict?
  rw [hsources p.1 hunit]
  simp only [hiff]

/-- The old declarations are reported as before. -/
theorem reports_old (hsources : ∀ unit < units.length, ∀ span,
    sources'.locate unit span = sources.locate unit span) (before more : List (Nat × Declaration))
    (hbefore : ∀ p ∈ before, p ∈ numbered units) (hmore : ∀ p ∈ more, p ∈ numbered units) :
    reports (ModuleGraph.ofUnits (units ++ added)) sources' before more =
      reports (ModuleGraph.ofUnits units) sources before more := by
  induction more generalizing before with
  | nil => rfl
  | cons p rest ih =>
    have hp : p ∈ numbered units := hmore p List.mem_cons_self
    have hreport : report? (ModuleGraph.ofUnits (units ++ added)) sources' before p.1 p.2 =
        report? (ModuleGraph.ofUnits units) sources before p.1 p.2 := by
      unfold report?
      cases hfirst : before.find? (·.2.name == p.2.name) with
      | none => exact conflict?_append h hsources hp
      | some first =>
        have hunit := (of_mem_numbered (hbefore first (List.mem_of_find?_eq_some hfirst))).1
        simp only [hsources first.1 hunit, hsources p.1 (of_mem_numbered hp).1]
    have hbefore' : ∀ q ∈ before ++ [p], q ∈ numbered units := by
      intro q hq
      rcases List.mem_append.1 hq with hold | hlast
      · exact hbefore q hold
      · exact List.mem_singleton.1 hlast ▸ hp
    rw [reports, reports, hreport, ih (before ++ [p]) hbefore' fun q hq =>
      hmore q (List.mem_cons_of_mem _ hq)]

omit h

/-- A declaration is reported in its own unit. -/
theorem exists_unit_of_mem_reports {g : ModuleGraph} {before more : List (Nat × Declaration)}
    {d : Diagnostic} (hd : d ∈ reports g sources before more) :
    ∃ p ∈ more, d.location.unit = p.1 := by
  induction more generalizing before with
  | nil => cases hd
  | cons p rest ih =>
    rcases List.mem_append.1 hd with hhere | hrest
    · refine ⟨p, List.mem_cons_self, ?_⟩
      have hreport := Option.mem_toList.1 hhere
      unfold report? at hreport
      split at hreport
      · cases hreport
        exact SourceMap.unit_locate ..
      · unfold conflict? at hreport
        split at hreport
        · cases hreport
          exact SourceMap.unit_locate ..
        · cases hreport
    · obtain ⟨q, hq, hunit⟩ := ih hrest
      exact ⟨q, List.mem_cons_of_mem _ hq, hunit⟩

include h

theorem below_append (hsources : ∀ unit < units.length, ∀ span,
    sources'.locate unit span = sources.locate unit span) :
    Diagnostic.below units.length (ofUnits sources' (units ++ added)).diagnostics =
      (ofUnits sources units).diagnostics := by
  have hold : ∀ d ∈ reports (ModuleGraph.ofUnits units) sources [] (numbered units),
      decide (d.location.unit < units.length) = true := by
    intro d hd
    obtain ⟨p, hp, hunit⟩ := exists_unit_of_mem_reports hd
    rw [hunit]
    exact decide_eq_true (of_mem_numbered hp).1
  have hnew : ∀ d ∈ reports (ModuleGraph.ofUnits (units ++ added)) sources' ([] ++ numbered units)
      (numberedFrom units.length added), ¬ decide (d.location.unit < units.length) = true := by
    intro d hd
    obtain ⟨p, hp, hunit⟩ := exists_unit_of_mem_reports hd
    rw [hunit]
    simpa using (of_mem_numberedFrom hp).1
  rw [(declares_ofUnits sources units).diagnostics,
    (declares_ofUnits sources' (units ++ added)).diagnostics, numbered_append, reports_append,
    reports_old h hsources [] (numbered units) (by simp) (fun _ hp => hp)]
  unfold Diagnostic.below
  rw [List.filter_append, List.filter_eq_self.2 hold, List.filter_eq_nil_iff.2 hnew,
    List.append_nil]

/-- What is collected from units when others are appended to them. -/
theorem extended_append (hsources : ∀ unit < units.length, ∀ span,
    sources'.locate unit span = sources.locate unit span)
    (htraits : ∀ u ∈ added, ∀ d ∈ u.declarations, d.content.kind = .trait →
      ∀ clause ∈ d.content.uses, (ofUnits sources units).symbols.useTarget? clause = none) :
    (ofUnits sources units).Extended units.length sources sources'
      (ofUnits sources' (units ++ added)) where
  symbols := prefix_symbols h
  modules := prefix_modules h
  homes := (sound_ofUnits sources units).homes
  below s hs := by
    rw [(declares_ofUnits sources units).symbols] at hs
    obtain ⟨p, hp, rfl⟩ := List.mem_map.1 hs
    exact (of_mem_numbered (mem_of_mem_distinctBy hp)).1
  beyond id s hnone hs := (of_new h hnone hs).1
  places := hsources
  clauses s hs clause hclause := by
    rw [(declares_ofUnits sources units).symbols] at hs
    obtain ⟨p, hp, rfl⟩ := List.mem_map.1 hs
    obtain ⟨_, u, hu, hd⟩ := of_mem_numbered (mem_of_mem_distinctBy hp)
    refine find?_append h fun hnew => h.lookedUp _ hnew ?_
    exact List.mem_flatMap.2 ⟨u, hu, List.mem_flatMap.2 ⟨p.2, hd,
      List.mem_append_left _ (List.mem_map_of_mem hclause)⟩⟩
  apart id s hnone hs hkind clause hclause := by
    obtain ⟨_, u, hu, d, hd, _, hcontent⟩ := of_new h hnone hs
    unfold Symbol.kind at hkind
    unfold Symbol.uses at hclause
    rw [hcontent] at hkind hclause
    exact htraits u hu d hd hkind clause hclause

end

end Collection
end ModuleVisibility
