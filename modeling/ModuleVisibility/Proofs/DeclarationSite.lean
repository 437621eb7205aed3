import ModuleVisibility.Proofs.ListEdit
import ModuleVisibility.Proofs.Opening
import ModuleVisibility.Proofs.Rewiring

/-!
Changing the use clauses of one declaration. A declaration of a name that is new becomes a symbol,
and the change is one of that symbol's clauses; a declaration that repeats a name is dropped with
all of its clauses, so there the change is lost. Nothing else about the collected program depends on
it.
-/
namespace ModuleVisibility

/-- A declaration of a program by its unit and its place there. -/
structure DeclarationSite where
  unit : Nat
  declaration : Nat

/-- The unit with other clauses for one of its declarations. -/
def CompilationUnit.rewire (declaration : Nat) (f : List UseClause → List UseClause)
    (u : CompilationUnit) : CompilationUnit :=
  { u with declarations := u.declarations.modify declaration (Declaration.mapUses f) }

namespace DeclarationSite

variable (site : DeclarationSite) (f : List UseClause → List UseClause)

/-- The declaration at the site. -/
def declaration? (units : List CompilationUnit) : Option Declaration :=
  units[site.unit]?.bind (·.declarations[site.declaration]?)

/-- The names that are declared before the site. -/
def namesBefore (units : List CompilationUnit) : List String :=
  declaredNames (units.take site.unit) ++
    (units[site.unit]?.toList.flatMap fun u =>
      (u.declarations.take site.declaration).map Declaration.name)

def rewireUnits (units : List CompilationUnit) : List CompilationUnit :=
  units.modify site.unit (CompilationUnit.rewire site.declaration f)

/-- The program with other clauses for the declaration at the site; a clause that moves keeps its
span. -/
def rewire (units : List ParsedUnit) : List ParsedUnit :=
  units.modify site.unit fun u => { u with unit := u.unit.rewire site.declaration f }

variable {site} {units : List CompilationUnit} {d : Declaration} {name : String}

/-- The declarations before and behind the site, and what a change does between them. -/
theorem exists_numbered (hd : site.declaration? units = some d) :
    ∃ before after, before.map (·.2.name) = site.namesBefore units ∧
      numbered units = before ++ (site.unit, d) :: after ∧
      ∀ f, numbered (site.rewireUnits f units) = before ++ (site.unit, d.mapUses f) :: after := by
  obtain ⟨u, hu, hd⟩ := Option.bind_eq_some_iff.1 hd
  have hfront : (units.take site.unit).length = site.unit :=
    List.length_take_of_le (Nat.le_of_lt (List.getElem?_eq_some_iff.1 hu).1)
  have hsplit : ∀ u', numbered (units.take site.unit ++ u' :: units.drop (site.unit + 1)) =
      numbered (units.take site.unit) ++ u'.declarations.map (site.unit, ·) ++
        ((units.drop (site.unit + 1)).zipIdx (site.unit + 1)).flatMap
          fun p => p.1.declarations.map (p.2, ·) := by
    intro u'
    simp only [numbered, List.zipIdx_append, List.zipIdx_cons, List.flatMap_append,
      List.flatMap_cons, hfront, Nat.zero_add, List.append_assoc]
  refine ⟨numbered (units.take site.unit) ++
      (u.declarations.take site.declaration).map (site.unit, ·),
    (u.declarations.drop (site.declaration + 1)).map (site.unit, ·) ++
      ((units.drop (site.unit + 1)).zipIdx (site.unit + 1)).flatMap
        fun p => p.1.declarations.map (p.2, ·), ?_, ?_, fun f => ?_⟩
  · rw [List.map_append, names_numbered, namesBefore, hu, Option.toList_some,
      List.flatMap_singleton, List.map_map]
    rfl
  · conv_lhs => rw [(take_cons_drop hu).1, hsplit, (take_cons_drop hd).1]
    simp only [List.map_append, List.map_cons, List.append_assoc, List.cons_append]
  · have hmodified : (u.rewire site.declaration f).declarations =
        u.declarations.take site.declaration ++
          d.mapUses f :: u.declarations.drop (site.declaration + 1) := (take_cons_drop hd).2 _
    rw [rewireUnits, (take_cons_drop hu).2, hsplit, hmodified]
    simp only [List.map_append, List.map_cons, List.append_assoc, List.cons_append]

end DeclarationSite

/-! Collection before and after the change. -/

namespace Collection

/-- The collection with other use clauses for one symbol. -/
def rewire (c : Collection) (id : SymbolId) (f : List UseClause → List UseClause) : Collection :=
  { c with symbols := c.symbols.rewire id f }

variable {f : List UseClause → List UseClause} {c : Collection} {id : SymbolId} {name : String}
  {unit : Nat} {d : Declaration}

/-- What is found when the name of a declaration is that of a module. -/
def conflicts (modules : ModuleGraph) (sources : SourceMap) (unit : Nat) (d : Declaration) :
    List Diagnostic :=
  match (modules.registerEntity d.name).2 with
  | .ok _ => []
  | .error e =>
    [(Finding.moduleNameTaken d.content.kind e.name).report (sources.locate unit d.span)]

theorem declare_eq_of_new (sources : SourceMap) (unit : Nat) (h : c.symbols.find? d.name = none) :
    c.declare sources unit d =
      ⟨(c.modules.registerEntity d.name).1,
        .ofSymbols (c.symbols.symbols ++
          [.ofDeclaration d (c.modules.moduleAt unit d.span.lo) unit]),
        c.diagnostics ++ conflicts c.modules sources unit d⟩ := by
  have hdeclared : ∀ home, c.symbols.declare (Symbol.ofDeclaration d home unit) =
      (.ofSymbols (c.symbols.symbols ++ [.ofDeclaration d home unit]), .ok ⟨c.symbols.size⟩) :=
    fun _ => SymbolTable.declare_of_find?_eq_none h
  unfold Collection.declare conflicts
  simp only [hdeclared]
  rcases hregister : c.modules.registerEntity d.name with ⟨modules, registered | e⟩
  · rfl
  · rw [List.append_nil]

theorem declare_eq_of_known (sources : SourceMap) (unit : Nat) {existing : SymbolId}
    {first : Symbol}
    (h : c.symbols.find? d.name = some existing) (hfirst : c.symbols.get? existing = some first) :
    c.declare sources unit d =
      ⟨c.modules, c.symbols.markUnresolved existing, c.diagnostics ++
        [(Finding.duplicate d.name first.kind (sources.locate first.unit first.span)).report
          (sources.locate unit d.span)]⟩ := by
  have hdeclared : ∀ home, c.symbols.declare (Symbol.ofDeclaration d home unit) =
      (c.symbols, .error ⟨d.name, existing⟩) :=
    fun _ => SymbolTable.declare_of_find?_eq_some h
  unfold Collection.declare
  simp only [hdeclared, hfirst]

/-- A name that is found stays with its symbol. -/
theorem find?_declare (h : c.symbols.find? name = some id) (sources : SourceMap) (unit : Nat)
    (d : Declaration) : (c.declare sources unit d).symbols.find? name = some id := by
  cases hfind : c.symbols.find? d.name with
  | none =>
    rw [SymbolTable.find?_eq] at h
    obtain ⟨index, hindex, rfl⟩ := Option.map_eq_some_iff.1 h
    rw [declare_eq_of_new sources unit hfind, SymbolTable.find?_eq, SymbolTable.symbols_ofSymbols,
      List.findIdx?_append, hindex]
    rfl
  | some existing =>
    obtain ⟨first, hfirst, _⟩ := SymbolTable.get?_of_find? hfind
    rw [declare_eq_of_known sources unit hfind hfirst]
    exact (SymbolTable.find?_eq_of_names (c.symbols.names_markUnresolved existing) name).trans h

/-- Declaring goes on alike when a symbol that is there has other clauses. -/
theorem declare_rewire (h : c.symbols.find? name = some id) (sources : SourceMap) (unit : Nat)
    (d : Declaration) :
    (c.rewire id f).declare sources unit d = (c.declare sources unit d).rewire id f := by
  have hsame : (c.rewire id f).symbols.find? d.name = c.symbols.find? d.name :=
    SymbolTable.find?_of_bare_eq (c.symbols.bare_rewire id) d.name
  cases hfind : c.symbols.find? d.name with
  | none =>
    rw [declare_eq_of_new sources unit hfind, declare_eq_of_new sources unit (hsame.trans hfind)]
    obtain ⟨s, hs, _⟩ := SymbolTable.get?_of_find? h
    rw [SymbolTable.get?_eq] at hs
    have hlt : id.index < c.symbols.symbols.length := (List.getElem?_eq_some_iff.1 hs).1
    unfold rewire SymbolTable.rewire
    rw [SymbolTable.symbols_ofSymbols, SymbolTable.symbols_ofSymbols, modify_append_left hlt]
  | some existing =>
    obtain ⟨first, hfirst, _⟩ := SymbolTable.get?_of_find? hfind
    have hfirst' := c.symbols.get?_rewire (f := f) id existing
    rw [hfirst, Option.map_some] at hfirst'
    rw [declare_eq_of_known sources unit hfind hfirst,
      declare_eq_of_known sources unit (hsame.trans hfind) hfirst']
    unfold rewire
    rw [← SymbolTable.markUnresolved_rewire]
    split
    · rw [Symbol.kind_mapUses]
      rfl
    · rfl

/-- The first declaration of a name with other clauses makes a symbol that has them. -/
theorem declare_mapUses_of_new (sources : SourceMap) (unit : Nat)
    (h : c.symbols.find? d.name = none) :
    ∃ id, (c.declare sources unit d).symbols.find? d.name = some id ∧
      c.declare sources unit (d.mapUses f) = (c.declare sources unit d).rewire id f := by
  have h' : c.symbols.find? (d.mapUses f).name = none := h
  have hindex : c.symbols.symbols.findIdx? (·.name == d.name) = none := by
    rwa [SymbolTable.find?_eq, Option.map_eq_none_iff] at h
  refine ⟨⟨c.symbols.symbols.length⟩, ?_, ?_⟩
  · rw [declare_eq_of_new sources unit h, SymbolTable.find?_eq, SymbolTable.symbols_ofSymbols]
    have hself : ∀ home, ((Symbol.ofDeclaration d home unit).name == d.name) = true :=
      fun _ => beq_self_eq_true d.name
    rw [List.findIdx?_append, hindex, Option.none_or, List.findIdx?_singleton, if_pos (hself _)]
    simp
  · rw [declare_eq_of_new sources unit h, declare_eq_of_new sources unit h']
    have hkind : (d.mapUses f).content.kind = d.content.kind := d.content.kind_mapUses f
    unfold rewire SymbolTable.rewire conflicts
    rw [SymbolTable.symbols_ofSymbols, modify_append_length, hkind]
    rfl

/-- A declaration that repeats a name is dropped whatever its clauses. -/
theorem declare_mapUses_of_known (sources : SourceMap) (unit : Nat) {existing : SymbolId}
    (h : c.symbols.find? d.name = some existing) :
    c.declare sources unit (d.mapUses f) = c.declare sources unit d := by
  obtain ⟨first, hfirst, _⟩ := SymbolTable.get?_of_find? h
  have h' : c.symbols.find? (d.mapUses f).name = some existing := h
  rw [declare_eq_of_known sources unit h hfirst, declare_eq_of_known sources unit h' hfirst]
  rfl

theorem declareAll_rewire (h : c.symbols.find? name = some id) (sources : SourceMap)
    (ds : List (Nat × Declaration)) :
    (declareAll sources c ds).symbols.find? name = some id ∧
      declareAll sources (c.rewire id f) ds = (declareAll sources c ds).rewire id f := by
  induction ds generalizing c with
  | nil => exact ⟨h, rfl⟩
  | cons p rest ih =>
    obtain ⟨hfound, hrewired⟩ := ih (find?_declare h sources p.1 p.2)
    refine ⟨hfound, ?_⟩
    unfold declareAll at hrewired ⊢
    rw [List.foldl_cons, List.foldl_cons, declare_rewire h]
    exact hrewired

end Collection

namespace DeclarationSite

variable (site : DeclarationSite) (f : List UseClause → List UseClause)

/-- The symbol that the declaration at the site makes, unless the name was declared before. -/
def owner? (sources : SourceMap) (units : List CompilationUnit) : Option SymbolId :=
  (site.declaration? units).bind fun d =>
    if d.name ∈ site.namesBefore units then none
    else (Collection.ofUnits sources units).symbols.find? d.name

theorem modules_rewireUnits (units : List CompilationUnit) :
    ModuleGraph.ofUnits (site.rewireUnits f units) = ModuleGraph.ofUnits units :=
  ModuleGraph.ofUnits_modify (CompilationUnit.rewire site.declaration f) (fun _ => rfl) units
    site.unit

variable {site f} {units : List CompilationUnit} {d : Declaration} {sources : SourceMap}
  {id : SymbolId}

/-- What is collected when the declaration at the site is reached, and how it goes on from there. -/
theorem exists_reached (sources : SourceMap) (hd : site.declaration? units = some d) :
    ∃ (c : Collection) (after : List (Nat × Declaration)),
      (c.symbols.find? d.name = none ↔ d.name ∉ site.namesBefore units) ∧
      Collection.ofUnits sources units =
        Collection.declareAll sources (c.declare sources site.unit d) after ∧
      ∀ f, Collection.ofUnits sources (site.rewireUnits f units) =
        Collection.declareAll sources (c.declare sources site.unit (d.mapUses f)) after := by
  obtain ⟨before, after, hbefore, hold, hnew⟩ := exists_numbered hd
  have hdeclares := (Collection.declares_start sources (ModuleGraph.initial_ofUnits units)
    (ModuleGraph.nodup_names_ofUnits units)).declareAll before
  refine ⟨_, after, hdeclares.find?_eq_none_iff.trans ?_, ?_, fun f => ?_⟩
  · rw [List.nil_append, hbefore]
  · rw [Collection.ofUnits_eq_declareAll, hold]
    unfold Collection.declareAll
    rw [List.foldl_append, List.foldl_cons]
  · rw [Collection.ofUnits_eq_declareAll, hnew, modules_rewireUnits]
    unfold Collection.declareAll
    rw [List.foldl_append, List.foldl_cons]

/-- The change is one of the symbol that the declaration makes; if it makes none, it is lost. -/
theorem ofUnits_rewireUnits (site : DeclarationSite) (f : List UseClause → List UseClause)
    (sources : SourceMap) (units : List CompilationUnit) :
    Collection.ofUnits sources (site.rewireUnits f units) =
      match site.owner? sources units with
      | some id => (Collection.ofUnits sources units).rewire id f
      | none => Collection.ofUnits sources units := by
  unfold owner?
  cases hd : site.declaration? units with
  | none =>
    have hsame : site.rewireUnits f units = units := by
      refine List.ext_getElem? fun index => ?_
      unfold declaration? at hd
      rw [rewireUnits, List.getElem?_modify]
      by_cases hunit : site.unit = index
      · subst hunit
        cases hu : units[site.unit]? with
        | none => rfl
        | some u =>
          rw [hu, Option.bind_some, List.getElem?_eq_none_iff] at hd
          simp [CompilationUnit.rewire, List.modify_eq_self hd]
      · simp [hunit]
    rw [hsame]
    rfl
  | some d =>
    obtain ⟨c, after, hnew, hunits, hunits'⟩ := exists_reached sources hd
    rw [Option.bind_some, hunits']
    by_cases hname : d.name ∈ site.namesBefore units
    · obtain ⟨existing, hexisting⟩ := Option.ne_none_iff_exists'.1 fun hnone => hnew.1 hnone hname
      simp only [if_pos hname, Collection.declare_mapUses_of_known sources site.unit
        hexisting, hunits]
    · obtain ⟨id, hid, hfirst⟩ := Collection.declare_mapUses_of_new (f := f) sources site.unit
        (hnew.2 hname)
      obtain ⟨hfound, hrewired⟩ := Collection.declareAll_rewire (f := f) hid sources after
      simp only [if_neg hname, hfirst, hrewired, hunits, hfound]

end DeclarationSite

namespace Analysis

variable (site : DeclarationSite) (f : List UseClause → List UseClause) (units : List ParsedUnit)

theorem texts_rewire : texts (site.rewire f units) = texts units := by
  unfold texts DeclarationSite.rewire
  exact congrArg SourceMap.mk (map_modify_of_eq _ (by intro u; rfl) units site.unit)

theorem syntaxDiagnostics_rewire (sources : SourceMap) :
    syntaxDiagnostics sources (site.rewire f units) = syntaxDiagnostics sources units := by
  have herrors : ∀ units : List ParsedUnit, syntaxDiagnostics sources units =
      (units.map (·.errors)).zipIdx.flatMap fun (errors, index) =>
        errors.map fun e => (Finding.malformed e.message).report (sources.locate index e.span) := by
    intro units
    unfold syntaxDiagnostics
    rw [List.zipIdx_map, List.flatMap_map]
    rfl
  have hsame : (site.rewire f units).map (·.errors) = units.map (·.errors) := by
    unfold DeclarationSite.rewire
    exact map_modify_of_eq _ (by intro u; rfl) units site.unit
  rw [herrors, herrors units, hsame]

/-- The symbol that the declaration at the site makes. -/
def owner? : Option SymbolId := site.owner? (texts units) (units.map (·.unit))

theorem collected_rewire :
    collected (site.rewire f units) =
      match owner? site units with
      | some id => (collected units).rewire id f
      | none => collected units := by
  have hunits : (site.rewire f units).map (·.unit) = site.rewireUnits f (units.map (·.unit)) := by
    unfold DeclarationSite.rewire DeclarationSite.rewireUnits
    exact map_modify _ _ (by intro u; rfl) units site.unit
  unfold collected
  rw [texts_rewire, hunits]
  exact DeclarationSite.ofUnits_rewireUnits site f (texts units) (units.map (·.unit))

end Analysis
end ModuleVisibility
