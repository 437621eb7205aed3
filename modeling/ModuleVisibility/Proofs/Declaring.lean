import Mathlib.Data.List.Basic
import Mathlib.Data.List.Induction
import Mathlib.Data.List.Nodup
import ModuleVisibility.Proofs.Collection
import ModuleVisibility.Proofs.Distinct

/-!
What collection makes of units whose declarations all have different names: one module for each
name that a definition or a directive mentions, one symbol for each declaration in the module that
the directive of its unit puts it into, and a report of each declaration with the name of a module.
-/
namespace ModuleVisibility

/-- The names of the modules that a unit mentions. -/
def CompilationUnit.mentions (u : CompilationUnit) : List String :=
  u.definitions.map ModuleMention.name ++ u.directive.toList.map ModuleMention.name

namespace ModuleGraph

variable {g g' g'' : ModuleGraph} {name : String} {id : ModuleId} {units : List CompilationUnit}

/-- The graph `g'` has the modules of `g` first and those of other names behind them. -/
structure Grows (g g' : ModuleGraph) (mentioned : List String) : Prop where
  modules : g.modules <+: g'.modules
  nodup : g.names.Nodup → g'.names.Nodup
  mem : ∀ name, name ∈ g'.names ↔ name ∈ g.names ∨ name ∈ mentioned

theorem Grows.refl (g : ModuleGraph) : Grows g g [] :=
  ⟨List.prefix_rfl, fun h => h, fun name => by simp⟩

theorem Grows.trans {first second : List String} (h : Grows g g' first) (h' : Grows g' g'' second) :
    Grows g g'' (first ++ second) where
  modules := h.modules.trans h'.modules
  nodup hnodup := h'.nodup (h.nodup hnodup)
  mem name := by rw [h'.mem, h.mem, List.mem_append, or_assoc]

theorem Grows.lookup? {mentioned : List String} (h : Grows g g' mentioned)
    (hid : g.lookup? name = some id) : g'.lookup? name = some id := by
  obtain ⟨later, hlater⟩ := h.modules
  rw [lookup?_eq] at hid
  obtain ⟨index, hindex, rfl⟩ := Option.map_eq_some_iff.1 hid
  rw [lookup?_eq, ← hlater, List.findIdx?_append, hindex]
  rfl

/-- What declaring does when no other declaration has taken the name. -/
theorem declare_of_not_mem (hfree : name ∉ g.entities) :
    ∃ g' id, g.declare name = (g', .ok id) ∧ g'.lookup? name = some id ∧ g'.entities = g.entities ∧
      g'.memberships = g.memberships ∧ Grows g g' [name] ∧
      ∀ m ∈ g'.modules, m ∈ g.modules ∨ m = ⟨name, false⟩ := by
  cases hlookup : g.lookup? name with
  | some id =>
    have hmem : name ∈ g.names := by
      by_contra hnot
      rw [lookup?_eq_none_iff.2 hnot] at hlookup
      cases hlookup
    refine ⟨g, id, declare_of_lookup?_eq_some hfree hlookup, hlookup, rfl, rfl,
      ⟨List.prefix_rfl, fun h => h, fun other => ?_⟩, fun m => .inl⟩
    rw [List.mem_singleton]
    constructor
    · exact .inl
    · rintro (hold | rfl)
      · exact hold
      · exact hmem
  | none =>
    have hnew : name ∉ g.names := lookup?_eq_none_iff.1 hlookup
    rw [declare_of_lookup?_eq_none hfree hlookup]
    generalize hadded : ofParts (g.modules ++ [⟨name, false⟩]) g.entities g.memberships = g'
    have hmodules : g'.modules = g.modules ++ [⟨name, false⟩] := hadded ▸ modules_ofParts ..
    have hnames : g'.names = g.names ++ [name] := by
      rw [names, names, hmodules, List.map_append]
      rfl
    refine ⟨g', _, rfl, ?_, hadded ▸ rfl, hadded ▸ rfl,
      ⟨hmodules ▸ List.prefix_append _ _, fun hnodup => ?_, fun other => ?_⟩, fun m hm => ?_⟩
    · rw [lookup?_eq, Option.map_eq_none_iff] at hlookup
      simp [lookup?_eq, hmodules, List.findIdx?_append, hlookup, List.findIdx?_cons]
    · rw [hnames]
      refine List.nodup_append.2 ⟨hnodup, List.nodup_singleton _, fun a ha b hb => ?_⟩
      rw [List.mem_singleton.1 hb]
      exact fun heq => hnew (heq ▸ ha)
    · rw [hnames, List.mem_append]
    · rw [hmodules] at hm
      exact (List.mem_append.1 hm).imp_right List.mem_singleton.1

/-- What declaring does before any symbol is there. -/
theorem declare_eq (hentities : g.entities = []) (name : String) :
    ∃ g' id, g.declare name = (g', .ok id) ∧ g'.lookup? name = some id ∧ g'.entities = [] ∧
      g'.memberships = g.memberships ∧ Grows g g' [name] := by
  obtain ⟨g', id, hdeclare, hlookup, hentities', hmemberships, hgrows, -⟩ :=
    declare_of_not_mem (show name ∉ g.entities by simp [hentities])
  exact ⟨g', id, hdeclare, hlookup, hentities'.trans hentities, hmemberships, hgrows⟩

theorem declareAll_eq (hentities : g.entities = []) (definitions : List ModuleMention) :
    ∃ g', definitions.foldl (fun g definition => (g.declare definition.name).1) g = g' ∧
      g'.entities = [] ∧ g'.memberships = g.memberships ∧
      Grows g g' (definitions.map ModuleMention.name) := by
  induction definitions generalizing g with
  | nil => exact ⟨g, rfl, hentities, rfl, Grows.refl g⟩
  | cons first rest ih =>
    obtain ⟨next, id, hdeclare, _, hentities', hmemberships, hgrows⟩ :=
      declare_eq hentities first.name
    obtain ⟨g', hrest, hentities'', hmemberships', hgrows'⟩ := ih hentities'
    refine ⟨g', ?_, hentities'', hmemberships'.trans hmemberships, hgrows.trans hgrows'⟩
    rw [List.foldl_cons, hdeclare]
    exact hrest

/-- The entry of a unit into the module that its directive names. -/
def membership? (g : ModuleGraph) (index : Nat) (unit : CompilationUnit) : Option Membership :=
  unit.directive.bind fun directive =>
    (g.lookup? directive.name).map fun id => ⟨index, id, directive.span.hi⟩

theorem addUnit_eq (hentities : g.entities = []) (index : Nat) (unit : CompilationUnit) :
    (g.addUnit index unit).entities = [] ∧ Grows g (g.addUnit index unit) unit.mentions ∧
      (g.addUnit index unit).memberships =
        ((g.addUnit index unit).membership? index unit).toList ++ g.memberships := by
  obtain ⟨g₁, hdefinitions, hentities₁, hmemberships₁, hgrows₁⟩ :=
    declareAll_eq hentities unit.definitions
  unfold addUnit membership? CompilationUnit.mentions
  rw [hdefinitions]
  cases unit.directive with
  | none => exact ⟨hentities₁, by simpa using hgrows₁, hmemberships₁⟩
  | some directive =>
    obtain ⟨g₂, id, hdeclare, hlookup, hentities₂, hmemberships₂, hgrows₂⟩ :=
      declare_eq hentities₁ directive.name
    have hentered : (g₂.enter index id directive.span.hi).lookup? directive.name = some id :=
      hlookup
    have hgrows := hgrows₁.trans hgrows₂
    simp only [hdeclare, Option.bind_some, hentered, Option.map_some, Option.toList_some]
    refine ⟨hentities₂, ⟨hgrows.modules, hgrows.nodup, hgrows.mem⟩, ?_⟩
    rw [← hmemberships₁, ← hmemberships₂]
    rfl

theorem ofUnits_append_singleton (units : List CompilationUnit) (u : CompilationUnit) :
    ofUnits (units ++ [u]) = (ofUnits units).addUnit units.length u := by
  simp [ofUnits, List.zipIdx_append]

theorem grows_ofUnits (units : List CompilationUnit) :
    Grows empty (ofUnits units) (units.flatMap CompilationUnit.mentions) := by
  induction units using List.reverseRecOn with
  | nil => exact Grows.refl empty
  | append_singleton units u ih =>
    have hadd := addUnit_eq (initial_ofUnits units).entities units.length u
    rw [ofUnits_append_singleton, List.flatMap_append]
    simpa using ih.trans hadd.2.1

theorem nodup_names_ofUnits (units : List CompilationUnit) : (ofUnits units).names.Nodup :=
  (grows_ofUnits units).nodup List.nodup_nil

theorem mem_names_ofUnits : name ∈ (ofUnits units).names ↔ ∃ u ∈ units, name ∈ u.mentions := by
  rw [(grows_ofUnits units).mem, List.mem_flatMap]
  exact or_iff_right (List.not_mem_nil)

/-- The entry of a unit is found under the number of the unit only. -/
theorem find?_membership? (g : ModuleGraph) (index other : Nat) (u : CompilationUnit) :
    (g.membership? index u).toList.find? (·.unit == other) =
      if index = other then g.membership? index u else none := by
  unfold membership?
  cases u.directive with
  | none => simp
  | some directive =>
    simp only [Option.bind_some]
    cases g.lookup? directive.name with
    | none => simp
    | some id => by_cases hsame : index = other <;> simp [hsame]

/-- Modules that come later do not change the entry of a unit. -/
theorem Grows.membership? {mentioned : List String} (h : Grows g g' mentioned)
    {u : CompilationUnit} (hu : ∀ name ∈ u.mentions, name ∈ g.names) (index : Nat) :
    g'.membership? index u = g.membership? index u := by
  unfold ModuleGraph.membership?
  cases hdirective : u.directive with
  | none => rfl
  | some directive =>
    have hknown : directive.name ∈ g.names := hu _ (by simp [CompilationUnit.mentions, hdirective])
    obtain ⟨id, hid⟩ := Option.isSome_iff_exists.1 (isSome_lookup? hknown)
    simp only [Option.bind_some, hid, h.lookup? hid]

/-- Each unit has entered the module that its directive names. -/
theorem find?_memberships_ofUnits (units : List CompilationUnit) (index : Nat) :
    (ofUnits units).memberships.find? (·.unit == index) =
      units[index]?.bind ((ofUnits units).membership? index) := by
  induction units using List.reverseRecOn with
  | nil => rfl
  | append_singleton units u ih =>
    obtain ⟨_, hgrows, hmemberships⟩ :=
      addUnit_eq (initial_ofUnits units).entities units.length u
    rw [ofUnits_append_singleton, hmemberships, List.find?_append, ih, find?_membership?]
    rcases Nat.lt_trichotomy index units.length with hlt | rfl | hgt
    · have hknown : ∀ name ∈ units[index].mentions, name ∈ (ofUnits units).names :=
        fun name hname =>
        mem_names_ofUnits.2 ⟨_, List.getElem_mem hlt, hname⟩
      rw [if_neg (by omega), Option.none_or, List.getElem?_append_left hlt,
        List.getElem?_eq_getElem hlt, Option.bind_some, Option.bind_some,
        hgrows.membership? hknown]
    · simp
    · have hnone : units[index]? = none := List.getElem?_eq_none (by omega)
      have hnone' : (units ++ [u])[index]? = none := List.getElem?_eq_none (by simp; omega)
      rw [if_neg (by omega), hnone, hnone']
      rfl

/-- The module of what stands at `position` in a unit. -/
def homeIn (g : ModuleGraph) (unit : CompilationUnit) (position : Nat) : ModuleId :=
  match unit.directive with
  | none => .global
  | some directive =>
    if directive.span.hi ≤ position then (g.lookup? directive.name).getD .global else .global

theorem moduleAt_ofUnits {index : Nat} {u : CompilationUnit} (hu : units[index]? = some u)
    (position : Nat) :
    (ofUnits units).moduleAt index position = (ofUnits units).homeIn u position := by
  unfold moduleAt homeIn
  rw [find?_memberships_ofUnits, hu, Option.bind_some, membership?]
  cases u.directive with
  | none => rfl
  | some directive =>
    simp only [Option.bind_some]
    cases (ofUnits units).lookup? directive.name <;> simp

end ModuleGraph

/-- The declarations of units, each with the number of its unit. -/
def numbered (units : List CompilationUnit) : List (Nat × Declaration) :=
  units.zipIdx.flatMap fun (u, index) => u.declarations.map (index, ·)

theorem exists_getElem?_of_mem_numbered {units : List CompilationUnit} {p : Nat × Declaration}
    (h : p ∈ numbered units) : ∃ u, units[p.1]? = some u ∧ p.2 ∈ u.declarations := by
  obtain ⟨⟨u, index⟩, hu, hp⟩ := List.mem_flatMap.1 h
  obtain ⟨d, hd, rfl⟩ := List.mem_map.1 hp
  exact ⟨u, List.mk_mem_zipIdx_iff_getElem?.1 hu, hd⟩

/-- The names that units declare. -/
def declaredNames (units : List CompilationUnit) : List String :=
  units.flatMap fun u => u.declarations.map Declaration.name

theorem names_numbered (units : List CompilationUnit) :
    (numbered units).map (·.2.name) = declaredNames units := by
  unfold numbered declaredNames
  rw [List.map_flatMap]
  simp only [List.map_map]
  conv_rhs => rw [← List.zipIdx_map_fst 0 units, List.flatMap_map]
  rfl

namespace Collection

variable {c : Collection} {g : ModuleGraph} {sources : SourceMap} {ds : List (Nat × Declaration)}

/-- The report of a declaration that has the name of a module. -/
def conflict? (g : ModuleGraph) (sources : SourceMap) (unit : Nat) (d : Declaration) :
    Option Diagnostic :=
  if d.name ∈ g.names then
    some ((Finding.moduleNameTaken d.content.kind d.name).report (sources.locate unit d.span))
  else none

/-- What declaring does to each part when the name is new. -/
theorem declare_of_new (sources : SourceMap) (unit : Nat) {d : Declaration}
    (hfind : c.symbols.find? d.name = none) :
    (c.declare sources unit d).symbols.symbols =
        c.symbols.symbols ++ [.ofDeclaration d (c.modules.moduleAt unit d.span.lo) unit] ∧
      (c.declare sources unit d).modules.modules = Module.markNamed c.modules.modules d.name ∧
      (c.declare sources unit d).modules.entities = d.name :: c.modules.entities ∧
      (c.declare sources unit d).modules.memberships = c.modules.memberships ∧
      (c.declare sources unit d).diagnostics =
        c.diagnostics ++ (conflict? c.modules sources unit d).toList := by
  have hdeclared : ∀ home, c.symbols.declare (Symbol.ofDeclaration d home unit) =
      (.ofSymbols (c.symbols.symbols ++ [.ofDeclaration d home unit]), .ok ⟨c.symbols.size⟩) :=
    fun _ => SymbolTable.declare_of_find?_eq_none hfind
  unfold Collection.declare conflict?
  simp only [hdeclared, ModuleGraph.registerEntity_eq]
  by_cases hmem : d.name ∈ c.modules.names
  · simp [hmem, Symbol.kind, Symbol.ofDeclaration]
  · simp [hmem]

/-- The report of a declaration that comes behind `before`. -/
def report? (g : ModuleGraph) (sources : SourceMap) (before : List (Nat × Declaration)) (unit : Nat)
    (d : Declaration) : Option Diagnostic :=
  match before.find? (·.2.name == d.name) with
  | some first =>
    some ((Finding.duplicate d.name first.2.content.kind
      (sources.locate first.1 first.2.span)).report (sources.locate unit d.span))
  | none => conflict? g sources unit d

/-- The reports of declarations that come behind `before`. -/
def reports (g : ModuleGraph) (sources : SourceMap) (before : List (Nat × Declaration)) :
    List (Nat × Declaration) → List Diagnostic
  | [] => []
  | p :: rest => (report? g sources before p.1 p.2).toList ++ reports g sources (before ++ [p]) rest

theorem reports_append (g : ModuleGraph) (sources : SourceMap)
    (before ds more : List (Nat × Declaration)) :
    reports g sources before (ds ++ more) =
      reports g sources before ds ++ reports g sources (before ++ ds) more := by
  induction ds generalizing before with
  | nil => simp [reports]
  | cons p rest ih =>
    have hassoc : before ++ [p] ++ rest = before ++ p :: rest := by simp
    rw [List.cons_append, reports, reports, ih, hassoc, List.append_assoc]

/-- The symbol of a declaration among others. -/
def symbolAmong (g : ModuleGraph) (ds : List (Nat × Declaration)) (p : Nat × Declaration) :
    Symbol :=
  { Symbol.ofDeclaration p.2 (g.moduleAt p.1 p.2.span.lo) p.1 with
    isUnresolved := 1 < ds.countP (·.2.name == p.2.name) }

/-- What declarations make of a graph of modules. -/
structure Declares (sources : SourceMap) (g : ModuleGraph) (ds : List (Nat × Declaration))
    (c : Collection) : Prop where
  nodup : g.names.Nodup
  symbols : c.symbols.symbols = (distinctBy (·.2.name) ds).map (symbolAmong g ds)
  modules : c.modules.modules =
    g.modules.map fun m => { m with isUnresolved := decide (m.name ∈ ds.map (·.2.name)) }
  entities : c.modules.entities = (distinctBy id (ds.map (·.2.name))).reverse
  memberships : c.modules.memberships = g.memberships
  diagnostics : c.diagnostics = reports g sources [] ds

theorem declares_start (sources : SourceMap) (hg : g.Initial) (hnodup : g.names.Nodup) :
    Declares sources g [] ⟨g, .empty, []⟩ where
  nodup := hnodup
  symbols := rfl
  modules := by
    have hresolved : ∀ m ∈ g.modules, { m with isUnresolved := false } = m := by
      intro m hm
      rw [← hg.resolved m hm]
    simp only [List.map_nil, List.not_mem_nil, decide_false]
    rw [List.map_congr_left hresolved, List.map_id']
  entities := hg.entities
  memberships := rfl
  diagnostics := rfl

namespace Declares

variable (h : Declares sources g ds c)
include h

theorem names : c.modules.names = g.names := by
  unfold ModuleGraph.names
  rw [h.modules, List.map_map]
  rfl

/-- The graph of modules that declarations leave. -/
theorem modules_eq : c.modules = .ofParts
    (g.modules.map fun m => { m with isUnresolved := decide (m.name ∈ ds.map (·.2.name)) })
    (distinctBy id (ds.map (·.2.name))).reverse g.memberships :=
  ModuleGraph.eq_of_parts (h.modules.trans (ModuleGraph.modules_ofParts ..).symm) h.entities
    h.memberships

theorem moduleAt (unit position : Nat) :
    c.modules.moduleAt unit position = g.moduleAt unit position := by
  unfold ModuleGraph.moduleAt
  rw [h.memberships]

theorem distinctNames : c.symbols.DistinctNames := by
  unfold SymbolTable.DistinctNames
  rw [h.symbols, List.map_map]
  exact nodup_distinctBy (·.2.name) ds

theorem find?_eq_none_iff {name : String} :
    c.symbols.find? name = none ↔ name ∉ ds.map (·.2.name) := by
  rw [SymbolTable.find?_eq_none_iff, h.symbols, List.forall_mem_map, ← key_mem_distinctBy_iff,
    List.mem_map]
  exact ⟨fun hall ⟨p, hp, hname⟩ => hall p hp hname, fun hnot p hp hname => hnot ⟨p, hp, hname⟩⟩

/-- The symbol of a name is that of its first declaration. -/
theorem symbol_of_find? {name : String} {id : SymbolId} (hfind : c.symbols.find? name = some id) :
    ∃ p, ds.find? (·.2.name == name) = some p ∧ c.symbols.get? id = some (symbolAmong g ds p) := by
  obtain ⟨s, hs, rfl⟩ := SymbolTable.get?_of_find? hfind
  have hmem : s ∈ c.symbols.symbols := SymbolTable.mem_symbols_of_get? hs
  obtain ⟨p, hp, rfl⟩ := List.mem_map.1 (h.symbols ▸ hmem)
  exact ⟨p, mem_distinctBy_iff_find?.1 hp, hs⟩

end Declares

/-- The symbols when one more declaration has a name that is new. -/
theorem symbols_of_new {unit : Nat} {d : Declaration} (hnew : d.name ∉ ds.map (·.2.name)) :
    (distinctBy (·.2.name) (ds ++ [(unit, d)])).map (symbolAmong g (ds ++ [(unit, d)])) =
      (distinctBy (·.2.name) ds).map (symbolAmong g ds) ++
        [.ofDeclaration d (g.moduleAt unit d.span.lo) unit] := by
  have hcount : ds.countP (·.2.name == d.name) = 0 := by
    rw [List.countP_eq_zero]
    intro p hp hname
    exact hnew (List.mem_map.2 ⟨p, hp, beq_iff_eq.1 hname⟩)
  rw [distinctBy_concat, if_neg hnew, List.map_append]
  congr 1
  · refine List.map_congr_left fun p hp => ?_
    have hother : (d.name == p.2.name) = false := by
      refine beq_eq_false_iff_ne.2 fun heq => hnew (List.mem_map.2 ⟨p, ?_, heq.symm⟩)
      exact mem_of_mem_distinctBy hp
    simp [symbolAmong, List.countP_append, hother]
  · simp [symbolAmong, List.countP_append, hcount, Symbol.ofDeclaration]

/-- The symbols when a name is declared again. -/
theorem symbols_of_known {unit : Nat} {d : Declaration} (hknown : d.name ∈ ds.map (·.2.name)) :
    (distinctBy (·.2.name) (ds ++ [(unit, d)])).map (symbolAmong g (ds ++ [(unit, d)])) =
      ((distinctBy (·.2.name) ds).map (symbolAmong g ds)).map fun s =>
        if s.name = d.name then { s with isUnresolved := true } else s := by
  have hcount : 0 < ds.countP (·.2.name == d.name) := by
    obtain ⟨p, hp, hname⟩ := List.mem_map.1 hknown
    exact List.countP_pos_iff.2 ⟨p, hp, beq_iff_eq.2 hname⟩
  rw [distinctBy_concat, if_pos hknown, List.append_nil, List.map_map]
  refine List.map_congr_left fun p _ => ?_
  rw [Function.comp_apply, show (symbolAmong g ds p).name = p.2.name from rfl]
  by_cases hsame : p.2.name = d.name
  · rw [if_pos hsame]
    simp [symbolAmong, Symbol.ofDeclaration, List.countP_append, hsame, hcount]
  · have hother : (d.name == p.2.name) = false := beq_eq_false_iff_ne.2 (Ne.symm hsame)
    rw [if_neg hsame]
    simp [symbolAmong, List.countP_append, hother]

theorem Declares.declare_of_find?_eq_none (h : Declares sources g ds c) (unit : Nat)
    {d : Declaration}
    (hfind : c.symbols.find? d.name = none) :
    Declares sources g (ds ++ [(unit, d)]) (c.declare sources unit d) := by
  have hnew : d.name ∉ ds.map (·.2.name) := h.find?_eq_none_iff.1 hfind
  have hfirst : ds.find? (·.2.name == d.name) = none := by
    refine List.find?_eq_none.2 fun p hp hname => hnew ?_
    exact List.mem_map.2 ⟨p, hp, beq_iff_eq.1 hname⟩
  obtain ⟨hsymbols, hmodules, hentities, hmemberships, hdiagnostics⟩ :=
    declare_of_new sources unit hfind
  refine ⟨h.nodup, ?_, ?_, ?_, hmemberships.trans h.memberships, ?_⟩
  · rw [hsymbols, h.symbols, h.moduleAt, symbols_of_new hnew]
  · have hnodup : (c.modules.modules.map Module.name).Nodup := by
      have hkept := h.nodup
      rwa [← h.names] at hkept
    rw [hmodules, Module.markNamed_of_nodup hnodup, h.modules, List.map_map]
    refine List.map_congr_left fun m _ => ?_
    by_cases hm : m.name = d.name <;> simp [hm, Module.markUnresolved]
  · have hnew' : id d.name ∉ (ds.map (·.2.name)).map id := by rwa [List.map_id]
    rw [hentities, h.entities, List.map_append, List.map_singleton, distinctBy_concat,
      if_neg hnew', List.reverse_append]
    rfl
  · have hconflict : conflict? c.modules sources unit d = conflict? g sources unit d := by
      unfold conflict?
      rw [h.names]
    rw [hdiagnostics, h.diagnostics, hconflict, reports_append]
    simp [reports, report?, hfirst]

theorem Declares.declare_of_find?_eq_some (h : Declares sources g ds c) (unit : Nat)
    {d : Declaration}
    {existing : SymbolId} (hfind : c.symbols.find? d.name = some existing) :
    Declares sources g (ds ++ [(unit, d)]) (c.declare sources unit d) := by
  have hknown : d.name ∈ ds.map (·.2.name) := by
    by_contra hnew
    rw [h.find?_eq_none_iff.2 hnew] at hfind
    cases hfind
  obtain ⟨first, hfirst, hget⟩ := h.symbol_of_find? hfind
  have hdeclared : c.declare sources unit d =
      ⟨c.modules, c.symbols.markUnresolved existing, c.diagnostics ++
        [(Finding.duplicate d.name first.2.content.kind
          (sources.locate first.1 first.2.span)).report (sources.locate unit d.span)]⟩ := by
    have hrefused : ∀ home, c.symbols.declare (.ofDeclaration d home unit) =
        (c.symbols, .error ⟨d.name, existing⟩) := fun _ =>
      SymbolTable.declare_of_find?_eq_some hfind
    unfold Collection.declare
    simp only [hrefused, hget]
    rfl
  rw [hdeclared]
  refine ⟨h.nodup, ?_, ?_, ?_, h.memberships, ?_⟩
  · rw [h.distinctNames.markUnresolved_find? hfind, h.symbols, symbols_of_known hknown]
  · have hnames : ∀ name, name ∈ (ds ++ [(unit, d)]).map (·.2.name) ↔ name ∈ ds.map (·.2.name) := by
      intro name
      rw [List.map_append, List.mem_append]
      refine or_iff_left_of_imp fun hlast => ?_
      rw [List.mem_singleton.1 hlast]
      exact hknown
    simp only [h.modules, hnames]
  · have hknown' : id d.name ∈ (ds.map (·.2.name)).map id := by rwa [List.map_id]
    rw [h.entities, List.map_append, List.map_singleton, distinctBy_concat, if_pos hknown',
      List.append_nil]
  · rw [h.diagnostics, reports_append]
    simp [reports, report?, hfirst]

theorem Declares.declare (h : Declares sources g ds c) (unit : Nat) (d : Declaration) :
    Declares sources g (ds ++ [(unit, d)]) (c.declare sources unit d) := by
  cases hfind : c.symbols.find? d.name with
  | none => exact h.declare_of_find?_eq_none unit hfind
  | some existing => exact h.declare_of_find?_eq_some unit hfind

/-- What there is when some declarations have been declared, one after the other. -/
def declareAll (sources : SourceMap) (c : Collection) (ds : List (Nat × Declaration)) :
    Collection :=
  ds.foldl (fun c p => c.declare sources p.1 p.2) c

theorem Declares.declareAll (h : Declares sources g ds c) (more : List (Nat × Declaration)) :
    Declares sources g (ds ++ more) (declareAll sources c more) := by
  induction more generalizing ds c with
  | nil => exact (List.append_nil ds).symm ▸ h
  | cons first rest ih =>
    have hsplit : ds ++ first :: rest = (ds ++ [first]) ++ rest := by simp
    rw [hsplit]
    exact ih (h.declare first.1 first.2)

theorem ofUnits_eq_declareAll (sources : SourceMap) (units : List CompilationUnit) :
    ofUnits sources units =
      declareAll sources ⟨ModuleGraph.ofUnits units, .empty, []⟩ (numbered units) := by
  unfold declareAll numbered
  rw [List.foldl_flatMap]
  simp only [List.foldl_map]
  rfl

/-- Collection declares all modules first, and then one declaration after the other. -/
theorem declares_ofUnits (sources : SourceMap) (units : List CompilationUnit) :
    Declares sources (ModuleGraph.ofUnits units) (numbered units) (ofUnits sources units) := by
  rw [ofUnits_eq_declareAll]
  have hstart := declares_start sources (ModuleGraph.initial_ofUnits units)
    (ModuleGraph.nodup_names_ofUnits units)
  exact hstart.declareAll (numbered units)

section

variable (h : Declares sources g ds c) (hnodup : (ds.map (·.2.name)).Nodup)
include h hnodup

/-- Where all names are different there is a symbol for each declaration. -/
theorem Declares.symbols_of_nodup : c.symbols.symbols =
    ds.map fun p => .ofDeclaration p.2 (g.moduleAt p.1 p.2.span.lo) p.1 := by
  rw [h.symbols, distinctBy_eq_self hnodup]
  refine List.map_congr_left fun p hp => ?_
  have hcount : ds.countP (·.2.name == p.2.name) = 1 := by
    have hone := List.count_eq_one_of_mem hnodup
      (List.mem_map_of_mem (f := fun p : Nat × Declaration => p.2.name) hp)
    rwa [List.count, List.countP_map] at hone
  simp [symbolAmong, hcount, Symbol.ofDeclaration]

/-- Then no declaration is reported but for the name of a module. -/
theorem Declares.diagnostics_of_nodup :
    c.diagnostics = ds.filterMap fun p => conflict? g sources p.1 p.2 := by
  have hreports : ∀ (more before : List (Nat × Declaration)),
      ((before ++ more).map (·.2.name)).Nodup →
        reports g sources before more = more.filterMap fun p => conflict? g sources p.1 p.2 := by
    intro more
    induction more with
    | nil => exact fun _ _ => rfl
    | cons p rest ih =>
      intro before hnodup
      have hfirst : before.find? (·.2.name == p.2.name) = none := by
        refine List.find?_eq_none.2 fun q hq hname => ?_
        rw [List.map_append] at hnodup
        exact (List.nodup_append.1 hnodup).2.2 _ (List.mem_map_of_mem hq) _
          (List.mem_map_of_mem List.mem_cons_self) (beq_iff_eq.1 hname)
      rw [reports, report?, hfirst, ih (before ++ [p]) (by simpa using hnodup)]
      cases hconflict : conflict? g sources p.1 p.2 <;> simp [hconflict]
  rw [h.diagnostics]
  exact hreports ds [] hnodup

end

end Collection
end ModuleVisibility
