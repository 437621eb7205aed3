import ModuleVisibility.Proofs.ErasedClause
import ModuleVisibility.Proofs.RewiredAnalysis

/-!
A use clause that names no trait is inert. It keeps its place among the clauses of its owner, so
that cycles are cut and members composed at the right clauses; without it there is one report less,
the one at the clause itself, and everything else is as before.
-/
namespace ModuleVisibility

namespace SymbolTable

/-- The symbols, one of them without one of its use clauses. -/
def eraseClause (t : SymbolTable) (gone : ClauseRef) : SymbolTable :=
  t.rewire gone.owner (·.eraseIdx gone.index)

variable {t : SymbolTable} {gone : ClauseRef} {owner : Symbol} {clause : UseClause}

theorem bare_eraseClause (t : SymbolTable) (gone : ClauseRef) :
    (t.eraseClause gone).bare = t.bare :=
  t.bare_rewire gone.owner

theorem useGraph_eraseClause (t : SymbolTable) (gone : ClauseRef) :
    (t.eraseClause gone).useGraph = t.useGraph.eraseClause gone := by
  have hbare := t.bare_eraseClause gone
  unfold useGraph UseGraph.eraseClause
  rw [ofKind_of_bare_eq hbare, useTarget?_of_bare_eq hbare, eraseClause,
    entries_rewire, List.map_map, List.map_map]
  refine congrArg _ (List.map_congr_left fun (id, s) _ => ?_)
  by_cases hid : id = gone.owner
  · have huses : (s.mapUses (·.eraseIdx gone.index)).uses = s.uses.eraseIdx gone.index :=
      s.uses_mapUses rfl
    simp only [Function.comp_apply, if_pos hid, huses, List.eraseIdx_map]
  · simp only [Function.comp_apply, if_neg hid]

/-- What is found at a clause of `owner` that names no trait. -/
inductive BadClause (t : SymbolTable) (owner : Symbol) (clause : UseClause) : Finding → Prop
  | unknown (h : ∀ s ∈ t.symbols, s.name ≠ clause.name) :
    BadClause t owner clause (.unknownTrait owner.name clause.name)
  | other (s : Symbol) (hs : s ∈ t.symbols) (hname : s.name = clause.name)
    (hkind : s.kind ≠ .trait) :
    BadClause t owner clause (.notATrait owner.name clause.name s.kind)

theorem BadClause.kind {finding : Finding} (h : t.BadClause owner clause finding) :
    finding.kind = .unknownTrait ∨ finding.kind = .notATrait := by
  cases h with
  | unknown => exact .inl rfl
  | other => exact .inr rfl

/-- A clause whose name is not that of a trait is found to be wrong and brings in nothing. -/
theorem exists_badClause (owner : Symbol)
    (hnone : ∀ s ∈ t.symbols, s.name = clause.name → s.kind ≠ .trait) :
    t.useTarget? clause = none ∧
      ∃ finding, t.useFinding? owner clause = some finding ∧ t.BadClause owner clause finding := by
  unfold useTarget? lookupKind? useFinding?
  cases hfind : t.find? clause.name with
  | none =>
    have hlookup : t.lookup? clause.name = none := by
      unfold lookup?
      rw [hfind]
      rfl
    rw [hlookup]
    exact ⟨rfl, _, rfl, .unknown (find?_eq_none_iff.1 hfind)⟩
  | some id =>
    obtain ⟨s, hs, hname⟩ := get?_of_find? hfind
    have hkind := hnone s (SymbolTable.mem_symbols_of_get? hs) hname
    rw [lookup?_eq_some_iff.2 ⟨hfind, hs⟩]
    exact ⟨by simp [hkind], _, if_neg hkind,
      .other s (SymbolTable.mem_symbols_of_get? hs) hname hkind⟩

/-- Without a clause that is found to be wrong there is one report less, the one at the clause. -/
theorem useDiagnostics_eraseClause (sources : SourceMap) (howner : t.get? gone.owner = some owner)
    (hclause : owner.uses[gone.index]? = some clause) {finding : Finding}
    (hfinding : t.useFinding? owner clause = some finding) :
    ∃ before after, t.useDiagnostics sources =
        before ++ finding.report (sources.locate owner.unit clause.span) :: after ∧
      (t.eraseClause gone).useDiagnostics sources = before ++ after := by
  have hsame : ∀ {s s' : Symbol}, s'.bare = s.bare →
      (t.eraseClause gone).useReport? sources s' = t.useReport? sources s :=
    fun h => useReport?_of_bare_eq (t.bare_eraseClause gone) sources h
  obtain ⟨hsymbols, hmodified⟩ := take_cons_drop ((t.get?_eq gone.owner).symm.trans howner)
  obtain ⟨huses, -⟩ := take_cons_drop hclause
  have hkept : (owner.mapUses (·.eraseIdx gone.index)).uses =
      owner.uses.take gone.index ++ owner.uses.drop (gone.index + 1) := by
    rw [owner.uses_mapUses rfl, List.eraseIdx_eq_take_drop_succ]
  have hsymbols' : (t.eraseClause gone).symbols = t.symbols.take gone.owner.index ++
      owner.mapUses (·.eraseIdx gone.index) :: t.symbols.drop (gone.owner.index + 1) :=
    (symbols_ofSymbols _).trans (hmodified _)
  have hreport : t.useReport? sources owner clause =
      some (finding.report (sources.locate owner.unit clause.span)) := by
    unfold useReport?
    rw [hfinding, Option.map_some]
  refine ⟨((t.symbols.take gone.owner.index).flatMap fun s =>
    s.uses.filterMap (t.useReport? sources s))
      ++ (owner.uses.take gone.index).filterMap (t.useReport? sources owner),
    (owner.uses.drop (gone.index + 1)).filterMap (t.useReport? sources owner)
      ++ (t.symbols.drop (gone.owner.index + 1)).flatMap fun s =>
        s.uses.filterMap (t.useReport? sources s), ?_, ?_⟩
  · rw [useDiagnostics_eq_flatMap]
    conv_lhs =>
      rw [hsymbols, List.flatMap_append, List.flatMap_cons, huses, List.filterMap_append,
        List.filterMap_cons_some hreport]
    simp only [List.append_assoc, List.cons_append]
  · rw [useDiagnostics_eq_flatMap, hsymbols', List.flatMap_append, List.flatMap_cons,
      hsame owner.bare_mapUses, hkept, List.filterMap_append]
    simp only [hsame rfl, List.append_assoc]

end SymbolTable

/-! Flattening without the clause. -/

namespace Flattening

variable {t : SymbolTable} (modules : ModuleGraph) (sources : SourceMap) {gone : ClauseRef}
  (hgone : (t.useGraph.uses gone.owner)[gone.index]? = some none)
include hgone

theorem not_mem_closing_of_uses : gone ∉ (CycleSearch.ofGraph t.useGraph).closing := by
  intro hmem
  obtain ⟨target, hread, _⟩ := CycleSearch.reaches_of_mem_closing t.closed_useGraph hmem
  rw [hgone] at hread
  cases hread

theorem uses_context_eraseClause (id : SymbolId) :
    (context (t.eraseClause gone) modules sources).uses.uses id =
      if id = gone.owner then ((context t modules sources).uses.uses id).eraseIdx gone.index
      else (context t modules sources).uses.uses id := by
  have huses := UseGraph.uses_drop_eraseClause (g := t.useGraph) (not_mem_closing_of_uses hgone) id
  simp only [context, t.useGraph_eraseClause, CycleSearch.ofGraph_eraseClause hgone]
  exact huses

theorem uses_context_gone :
    ((context t modules sources).uses.uses gone.owner)[gone.index]? = some none := by
  simp only [context, UseGraph.uses_drop, List.getElem?_mapIdx, hgone, Option.map_some, ite_self]

theorem sameBare_eraseClause : (context t modules sources).SameBare
    (context (t.eraseClause gone) modules sources) where
  symbols := t.bare_eraseClause gone
  modules := rfl
  sources := rfl
  cyclic := by
    simp only [context, t.useGraph_eraseClause, CycleSearch.ofGraph_eraseClause hgone]
    rfl

/-- Whatever is composed, the clause brings in nothing. -/
theorem composeUses_eraseClause {id : SymbolId} {owner owner' : Symbol}
    (howner : t.get? id = some owner) (howner' : (t.eraseClause gone).get? id = some owner')
    (through : Origin → Origin) (done : TraitTables) :
    (context (t.eraseClause gone) modules sources).composeUses id owner' through done =
      (context t modules sources).composeUses id owner through done := by
  obtain ⟨_, hget, hbare⟩ := SymbolTable.exists_get?_of_bare_eq (t.bare_eraseClause gone) howner
  cases hget.symm.trans howner'
  have hclause := fun c clause target =>
    (sameBare_eraseClause modules sources hgone).composeClause hbare through done c clause target
  unfold FlattenContext.composeUses
  simp only [hclause, uses_context_eraseClause modules sources hgone,
    SymbolTable.uses_of_get?_rewire rfl howner howner']
  by_cases hid : id = gone.owner
  · subst hid
    have hlength := (wellFormed_context t modules sources).length gone.owner owner howner
    have hlt : gone.index < owner.uses.length := by
      rw [← hlength]
      exact (List.getElem?_eq_some_iff.1 (uses_context_gone modules sources hgone)).1
    simp only [if_true, zip_eraseIdx]
    refine foldl_eraseIdx (a := (owner.uses[gone.index], none)) ?_ (fun c => ?_) _
    · exact List.getElem?_zip_eq_some.2
        ⟨List.getElem?_eq_getElem hlt, uses_context_gone modules sources hgone⟩
    · rfl
  · simp only [if_neg hid]

theorem rewired_eraseClause : (context t modules sources).Rewired
    (context (t.eraseClause gone) modules sources) where
  toSameBare := sameBare_eraseClause modules sources hgone
  levels := by
    have hx := wellFormed_context t modules sources
    refine UseGraph.levels_congr ?_ hx.nodup fun a b => ?_
    · exact SymbolTable.ofKind_of_bare_eq (t.bare_eraseClause gone) .trait
    · unfold UseGraph.Leads
      rw [uses_context_eraseClause modules sources hgone]
      split
      · next ha =>
        subst ha
        exact mem_eraseIdx_iff (uses_context_gone modules sources hgone) (Option.some_ne_none b)
      · exact Iff.rfl
  members _ _ _ howner howner' _ through := by
    rw [composeUses_eraseClause modules sources hgone howner howner']

/-- A search for a clause by the name of a trait passes the clause over. -/
theorem find?_uses_eraseClause (hnames : t.DistinctNames) {id target : SymbolId}
    {owner owner' : Symbol} (howner : t.get? id = some owner)
    (howner' : (t.eraseClause gone).get? id = some owner') (htarget : target ∈ t.ofKind .trait) :
    owner'.uses.find? (·.name == t.name target) = owner.uses.find? (·.name == t.name target) := by
  rw [SymbolTable.uses_of_get?_rewire rfl howner howner']
  split
  · next hid =>
    subst hid
    rw [SymbolTable.uses_useGraph howner, List.getElem?_map] at hgone
    obtain ⟨clause, hclause, hnone⟩ := Option.map_eq_some_iff.1 hgone
    refine find?_eraseIdx hclause fun hsame => ?_
    obtain ⟨s, hs, htrait⟩ := SymbolTable.mem_ofKind.1 htarget
    have hname : clause.name = s.name := by simpa [SymbolTable.name, hs] using hsame
    have hsome := SymbolTable.useTarget?_eq_some_iff.2 ⟨s, hname ▸ hnames.find? hs, hs, htrait⟩
    rw [hnone] at hsome
    cases hsome
  · rfl

/-- So a cycle is reported at the clause where it was. -/
theorem cycleReports_eraseClause (hnames : t.DistinctNames) :
    CycleReport.diagnostics (t.eraseClause gone) sources (CycleSearch.ofGraph t.useGraph).cycles =
      CycleReport.diagnostics t sources (CycleSearch.ofGraph t.useGraph).cycles := by
  have hname : (t.eraseClause gone).name = t.name :=
    funext (SymbolTable.name_of_bare_eq (t.bare_eraseClause gone))
  have hrotated : ∀ ids, (∀ id ∈ ids, id ∈ t.ofKind .trait) →
      CycleReport.ofRotated? (t.eraseClause gone) sources ids =
        CycleReport.ofRotated? t sources ids := by
    intro ids hids
    cases ids with
    | nil => rfl
    | cons first others =>
      have hnext : others.headD first ∈ t.ofKind .trait := by
        cases others with
        | nil => exact hids first List.mem_cons_self
        | cons next _ => exact hids next (by simp)
      obtain ⟨owner, howner, _⟩ := SymbolTable.mem_ofKind.1 (hids first List.mem_cons_self)
      obtain ⟨owner', howner', hbare⟩ :=
        SymbolTable.exists_get?_of_bare_eq (t.bare_eraseClause gone) howner
      have hunit : owner'.unit = owner.unit := Symbol.eq_of_bare_eq hbare fun _ => rfl
      have hplace : owner'.span = owner.span := Symbol.eq_of_bare_eq hbare fun _ => rfl
      unfold CycleReport.ofRotated? CycleReport.clauseSpan
      simp only [howner, howner', Option.map_some, hname, hunit, hplace,
        find?_uses_eraseClause hgone hnames howner howner' hnext]
  have hkeys : CycleReport.nameSet (t.eraseClause gone) = CycleReport.nameSet t := by
    unfold CycleReport.nameSet
    rw [hname]
  have hrotate : CycleReport.rotate (t.eraseClause gone) = CycleReport.rotate t := by
    unfold CycleReport.rotate
    rw [hname]
  unfold CycleReport.diagnostics
  rw [hkeys, hrotate]
  refine List.filterMap_congr fun cycle hcycle => hrotated _ fun id hid => ?_
  have hfound := (CycleSearch.valid_ofGraph t.closed_useGraph).cycles cycle
    (mem_of_mem_distinctBy hcycle)
  exact hfound id ((CycleReport.perm_rotate t cycle).mem_iff.1 hid)

variable (gone) in
theorem sameTables_eraseClause : (ofProgram t modules sources).SameTables
    (ofProgram (t.eraseClause gone) modules sources) where
  traits := traits_of_rewired (rewired_eraseClause modules sources hgone)
  classes := classes_of_rewired (rewired_eraseClause modules sources hgone)
    fun _ _ _ howner howner' _ through => by rw [composeUses_eraseClause modules sources
      hgone howner howner']
  cyclic := (sameBare_eraseClause modules sources hgone).cyclic

variable (gone) in
/-- Flattening reports one thing less, what is wrong with the clause. -/
theorem diagnostics_eraseClause (hnames : t.DistinctNames) {owner : Symbol} {clause : UseClause}
    {finding : Finding} (howner : t.get? gone.owner = some owner)
    (hclause : owner.uses[gone.index]? = some clause)
    (hfinding : t.useFinding? owner clause = some finding) :
    ∃ before after, (ofProgram t modules sources).diagnostics =
        before ++ finding.report (sources.locate owner.unit clause.span) :: after ∧
      (ofProgram (t.eraseClause gone) modules sources).diagnostics = before ++ after := by
  obtain ⟨before, after, hbefore, hafter⟩ :=
    t.useDiagnostics_eraseClause sources howner hclause hfinding
  have hcycles : (CycleSearch.ofGraph (t.eraseClause gone).useGraph).cycles =
      (CycleSearch.ofGraph t.useGraph).cycles := by
    rw [t.useGraph_eraseClause, CycleSearch.ofGraph_eraseClause hgone]
    rfl
  have hcollisions : (context (t.eraseClause gone) modules sources).collisionReports =
      (context t modules sources).collisionReports := by
    refine (rewired_eraseClause modules sources hgone).rel_collisionReports (wellFormed_context ..)
      (wellFormed_context ..) rfl (fun h h' => by rw [h, h']) fun _ _ _ howner howner' _ => ?_
    rw [composeUses_eraseClause modules sources hgone howner howner']
  refine ⟨before, after ++ CycleReport.diagnostics t sources (CycleSearch.ofGraph t.useGraph).cycles
    ++ (context t modules sources).collisionReports, ?_, ?_⟩
  · rw [diagnostics_ofProgram, hbefore]
    simp only [List.append_assoc, List.cons_append]
  · rw [diagnostics_ofProgram, hafter, hcycles, cycleReports_eraseClause sources hgone hnames,
      hcollisions]
    simp only [List.append_assoc]

end Flattening

/-- Settings leave some kinds alone, so a report of these is listed among what is listed without
it. -/
theorem Policy.exists_sort_apply (settings : DiagnosticSettings) {d : Diagnostic}
    (h : d.kind.isConfigurable = false) (front back : List Diagnostic) :
    ∃ before after,
      Diagnostic.sort ((ofSettings settings).apply (front ++ d :: back)) = before ++ d :: after ∧
        Diagnostic.sort ((ofSettings settings).apply (front ++ back)) = before ++ after := by
  have hfilter : (d :: back).filter (fun d => (ofSettings settings).isEnabled d.kind) =
      d :: back.filter fun d => (ofSettings settings).isEnabled d.kind :=
    List.filter_cons_of_pos (isEnabled_ofSettings h)
  unfold apply
  rw [List.filter_append, List.filter_append, hfilter, List.map_append, List.map_append,
    List.map_cons, regrade_ofSettings h]
  exact exists_mergeSort_append_cons Diagnostic.le_trans Diagnostic.le_total _ d _

/-! The analysis of a program without the clause. -/

namespace Analysis

variable {units : List ParsedUnit} {site : DeclarationSite} {id : SymbolId} {owner : Symbol}
  {index : Nat} {clause : UseClause}

/-- Without a clause whose name is not that of a trait nothing changes but that its report is
gone. -/
theorem inert_of_badClause (settings : DiagnosticSettings) (units : List ParsedUnit)
    (hsite : owner? site units = some id)
    (howner : (collected units).symbols.get? id = some owner)
    (hclause : owner.uses[index]? = some clause)
    (hnone : ∀ s ∈ (collected units).symbols.symbols, s.name = clause.name → s.kind ≠ .trait) :
    (ofUnits (.ofSettings settings) units).Rewired id (·.eraseIdx index)
        (ofUnits (.ofSettings settings) (site.rewire (·.eraseIdx index) units)) ∧
      ∃ finding before after, (collected units).symbols.BadClause owner clause finding ∧
        (ofUnits (.ofSettings settings) units).diagnostics =
          before ++ finding.report ((texts units).locate owner.unit clause.span) :: after ∧
        (ofUnits (.ofSettings settings) (site.rewire (·.eraseIdx index) units)).diagnostics =
          before ++ after := by
  obtain ⟨htarget, finding, hfinding, hbad⟩ :=
    SymbolTable.exists_badClause owner hnone
  have hgone : ((collected units).symbols.useGraph.uses id)[index]? = some none := by
    rw [SymbolTable.uses_useGraph howner, List.getElem?_map, hclause, Option.map_some, htarget]
  have htables := Flattening.sameTables_eraseClause (collected units).modules (texts units)
    ⟨id, index⟩ hgone
  have hnames : (collected units).symbols.DistinctNames := (Collection.sound_ofUnits _ _).names
  have hkind : finding.kind.isConfigurable = false := by
    rcases hbad.kind with hkind | hkind <;> rw [hkind] <;> rfl
  -- The report is lost in flattening, and with it one report of all that are found and listed.
  obtain ⟨before, after, hall, hless⟩ :=
    Flattening.diagnostics_eraseClause (collected units).modules
    (texts units) ⟨id, index⟩ hgone hnames howner hclause hfinding
  obtain ⟨front, back, hfound, hfound'⟩ := exists_found_rewire hsite htables
  obtain ⟨listed, rest, hlisted, hlisted'⟩ := Policy.exists_sort_apply settings
    (d := finding.report ((texts units).locate owner.unit clause.span)) hkind (front ++ before)
    (after ++ back)
  refine ⟨rewired_ofUnits hsite htables _, finding, listed, rest, hbad, ?_, ?_⟩
  · rw [diagnostics_ofUnits, ← hlisted, hfound, flattened, hall]
    simp only [List.append_assoc, List.cons_append]
  · have hflattened : (flattened units ((collected units).symbols.rewire id
        (·.eraseIdx index))).diagnostics = before ++ after := hless
    rw [diagnostics_ofUnits, ← hlisted', hfound', hflattened]
    simp only [List.append_assoc]

/-- A class that uses a function besides a trait. -/
def misused : List SourceFile :=
  [⟨"a.php", "<?hh\ntrait T \x7b function m(): void \x7b\x7d \x7d\n"
    ++ "function f(): void \x7b\x7d\nclass C \x7b use f, T; \x7d\n"⟩]

/-- Without the first clause nothing is reported, and the class inherits what it did. -/
theorem inert_misused :
    ∃ owner clause, owner? ⟨0, 2⟩ (parseProgram misused) = some ⟨2⟩ ∧
      (collected (parseProgram misused)).symbols.get? ⟨2⟩ = some owner ∧
      owner.uses[0]? = some clause ∧
      (∀ s ∈ (collected (parseProgram misused)).symbols.symbols,
        s.name = clause.name → s.kind ≠ .trait) ∧
      (ofFiles (.ofSettings .default) misused).flattening.classes.length = 1 ∧
      (ofFiles (.ofSettings .default) misused).diagnostics.length = 1 ∧
      (ofUnits (.ofSettings .default) (DeclarationSite.rewire ⟨0, 2⟩ (·.eraseIdx 0)
        (parseProgram misused))).diagnostics = [] ∧
      Rewired ⟨2⟩ (·.eraseIdx 0) (ofFiles (.ofSettings .default) misused)
        (ofUnits (.ofSettings .default) (DeclarationSite.rewire ⟨0, 2⟩ (·.eraseIdx 0)
          (parseProgram misused))) := by
  have hchecks : owner? ⟨0, 2⟩ (parseProgram misused) = some ⟨2⟩ ∧
      ((collected (parseProgram misused)).symbols.get? ⟨2⟩).any (fun owner =>
        owner.uses[0]?.any fun clause => (collected (parseProgram misused)).symbols.symbols.all
          fun s => s.name ≠ clause.name || s.kind ≠ .trait) = true ∧
      (ofFiles (.ofSettings .default) misused).flattening.classes.length = 1 ∧
      (ofFiles (.ofSettings .default) misused).diagnostics.length = 1 ∧
      (ofUnits (.ofSettings .default) (DeclarationSite.rewire ⟨0, 2⟩ (·.eraseIdx 0)
        (parseProgram misused))).diagnostics = [] := by
    decide +kernel
  obtain ⟨hsite, hclause, hclasses, hreported, hnothing⟩ := hchecks
  obtain ⟨owner, howner, hclause⟩ := (Option.any_eq_true _ _).1 hclause
  obtain ⟨clause, hclause, hnone⟩ := (Option.any_eq_true _ _).1 hclause
  have hnone : ∀ s ∈ (collected (parseProgram misused)).symbols.symbols,
      s.name = clause.name → s.kind ≠ .trait := by
    intro s hs hname
    simpa [hname] using List.all_eq_true.1 hnone s hs
  have hinert := inert_of_badClause .default (parseProgram misused) hsite howner hclause hnone
  exact ⟨owner, clause, hsite, howner, hclause, hnone, hclasses, hreported, hnothing, hinert.1⟩

end Analysis
end ModuleVisibility
