import ModuleVisibility.Program.Collection
import ModuleVisibility.Proofs.ModuleGraph
import ModuleVisibility.Proofs.SymbolTable

/-!
What holds of the modules and symbols of a program after each declaration: names are distinct,
every symbol is in a module of the graph, and whatever is unresolved has been reported.
-/
namespace ModuleVisibility

namespace ModuleGraph

variable {g : ModuleGraph} {id : ModuleId}

/-- The module is the global one or has been declared. -/
def Knows (g : ModuleGraph) : ModuleId → Prop
  | .global => True
  | .declared index => index < g.modules.length

theorem knows_of_lookup? {name : String} (h : g.lookup? name = some id) : g.Knows id := by
  rw [lookup?_eq] at h
  obtain ⟨index, hindex, rfl⟩ := Option.map_eq_some_iff.1 h
  exact (List.findIdx?_eq_some_iff_getElem.1 hindex).1

theorem Knows.of_length_le {g' : ModuleGraph} (h : g.Knows id)
    (hlength : g.modules.length ≤ g'.modules.length) : g'.Knows id := by
  cases id with
  | global => trivial
  | declared index => exact Nat.lt_of_lt_of_le h hlength

/-- Every place is in a module that is known. -/
theorem knows_moduleAt (h : ∀ m ∈ g.memberships, g.Knows m.joined) (unit position : Nat) :
    g.Knows (g.moduleAt unit position) := by
  unfold moduleAt
  split
  · next m hm =>
    split
    · exact h m (List.mem_of_find?_eq_some hm)
    · trivial
  · trivial

/-- Before any symbol is declared: every module is resolved, and no other name is taken. -/
structure Initial (g : ModuleGraph) : Prop where
  resolved : ∀ m ∈ g.modules, m.isUnresolved = false
  entities : g.entities = []
  memberships : ∀ m ∈ g.memberships, g.Knows m.joined

theorem Initial.declare (h : g.Initial) (name : String) :
    (g.declare name).1.Initial ∧
      ∀ id, (g.declare name).2 = .ok id → (g.declare name).1.Knows id := by
  have hfree : name ∉ g.entities := by simp [h.entities]
  cases hlookup : g.lookup? name with
  | some id =>
    rw [declare_of_lookup?_eq_some hfree hlookup]
    refine ⟨h, fun other hother => ?_⟩
    cases hother
    exact knows_of_lookup? hlookup
  | none =>
    rw [declare_of_lookup?_eq_none hfree hlookup]
    refine ⟨⟨fun m hm => ?_, h.entities, fun m hm => ?_⟩, fun other hother => ?_⟩
    · rw [modules_ofParts] at hm
      rcases List.mem_append.1 hm with hold | hnew
      · exact h.resolved m hold
      · rw [List.mem_singleton.1 hnew]
    · exact (h.memberships m hm).of_length_le (by simp)
    · cases hother
      simp [Knows]

theorem Initial.addUnit (h : g.Initial) (index : Nat) (unit : CompilationUnit) :
    (g.addUnit index unit).Initial := by
  have hdefinitions : (unit.definitions.foldl (fun g definition => (g.declare definition.name).1)
      g).Initial :=
    List.foldlRecOn (motive := Initial) _ _ h fun g hg _ _ => (hg.declare _).1
  unfold ModuleGraph.addUnit
  dsimp only
  split
  · exact hdefinitions
  · next directive _ =>
    have hdirective := hdefinitions.declare directive.name
    split
    · next g' id heq =>
      rw [heq] at hdirective
      obtain ⟨hinitial, hknows⟩ := hdirective
      refine ⟨hinitial.resolved, hinitial.entities, fun m hm => ?_⟩
      rcases List.mem_cons.1 hm with rfl | hm
      · exact hknows id rfl
      · exact hinitial.memberships m hm
    · next g' _ heq =>
      rw [heq] at hdirective
      exact hdirective.1

theorem initial_ofUnits (units : List CompilationUnit) : (ofUnits units).Initial := by
  have hempty : empty.Initial := ⟨nofun, rfl, nofun⟩
  exact List.foldlRecOn (motive := Initial) _ _ hempty fun g hg _ _ => hg.addUnit _ _

end ModuleGraph

namespace Collection

variable {c : Collection}

/-- Something in the list reports that a name is declared again. -/
def ReportsDuplicate (ds : List Diagnostic) (name : String) : Prop :=
  ∃ kind first place, (Finding.duplicate name kind first).report place ∈ ds

/-- Something in the list reports that a declaration has the name of a module. -/
def ReportsConflict (ds : List Diagnostic) (name : String) : Prop :=
  ∃ kind place, (Finding.moduleNameTaken kind name).report place ∈ ds

/-- The invariant of collection. -/
structure Sound (c : Collection) : Prop where
  names : c.symbols.DistinctNames
  homes : ∀ s ∈ c.symbols.symbols, c.modules.Knows s.home
  memberships : ∀ m ∈ c.modules.memberships, c.modules.Knows m.joined
  symbols : ∀ s ∈ c.symbols.symbols, s.isUnresolved = true → ReportsDuplicate c.diagnostics s.name
  modules : ∀ m ∈ c.modules.modules, m.isUnresolved = true → ReportsConflict c.diagnostics m.name
  kinds : ∀ d ∈ c.diagnostics, d.kind = .duplicateSymbol ∨ d.kind = .moduleRedeclarationConflict

theorem ReportsDuplicate.mono {ds ds' : List Diagnostic} {name : String}
    (h : ReportsDuplicate ds name) (hsub : ds ⊆ ds') : ReportsDuplicate ds' name := by
  obtain ⟨kind, first, place, hmem⟩ := h
  exact ⟨kind, first, place, hsub hmem⟩

theorem ReportsConflict.mono {ds ds' : List Diagnostic} {name : String}
    (h : ReportsConflict ds name) (hsub : ds ⊆ ds') : ReportsConflict ds' name := by
  obtain ⟨kind, place, hmem⟩ := h
  exact ⟨kind, place, hsub hmem⟩

/-- A declaration whose name is new. -/
theorem Sound.addSymbol (h : c.Sound) {s : Symbol} (hnew : c.symbols.find? s.name = none)
    (hhome : c.modules.Knows s.home) (hresolved : s.isUnresolved = false) :
    Sound { c with symbols := .ofSymbols (c.symbols.symbols ++ [s]) } where
  names := by
    have hdeclare := h.names.declare s
    rw [SymbolTable.declare_of_find?_eq_none hnew] at hdeclare
    exact hdeclare
  homes s' hs' := by
    rw [SymbolTable.symbols_ofSymbols] at hs'
    rcases List.mem_append.1 hs' with hold | hlast
    · exact h.homes s' hold
    · rw [List.mem_singleton.1 hlast]
      exact hhome
  memberships := h.memberships
  symbols s' hs' hunresolved := by
    rw [SymbolTable.symbols_ofSymbols] at hs'
    rcases List.mem_append.1 hs' with hold | hlast
    · exact h.symbols s' hold hunresolved
    · rw [List.mem_singleton.1 hlast, hresolved] at hunresolved
      cases hunresolved
  modules := h.modules
  kinds := h.kinds

/-- The name of a declaration is recorded, and what is reported tells if a module has it. -/
theorem Sound.addEntity (h : c.Sound) {name : String} {found : List Diagnostic}
    (hfound : ∀ m ∈ c.modules.modules, m.name = name → ReportsConflict found name)
    (hkinds : ∀ d ∈ found, d.kind = .moduleRedeclarationConflict) :
    Sound ⟨.ofParts (Module.markNamed c.modules.modules name) (name :: c.modules.entities)
      c.modules.memberships, c.symbols, c.diagnostics ++ found⟩ where
  names := h.names
  homes s hs := (h.homes s hs).of_length_le (by simp [Module.length_markNamed])
  memberships m hm := (h.memberships m hm).of_length_le (by simp [Module.length_markNamed])
  symbols s hs hunresolved := (h.symbols s hs hunresolved).mono (List.subset_append_left _ _)
  modules m hm hunresolved := by
    rw [ModuleGraph.modules_ofParts] at hm
    rcases Module.of_mem_markNamed hm with hold | ⟨old, hold, hname, rfl⟩
    · exact (h.modules m hold hunresolved).mono (List.subset_append_left _ _)
    · have hreported := (hfound old hold hname).mono (List.subset_append_right c.diagnostics found)
      rwa [← hname] at hreported
  kinds d hd := by
    rcases List.mem_append.1 hd with hold | hnew
    · exact h.kinds d hold
    · exact .inr (hkinds d hnew)

/-- The name of a symbol is declared again, and that is reported. -/
theorem Sound.markSymbol (h : c.Sound) {id : SymbolId} {s : Symbol}
    (hs : c.symbols.get? id = some s) (kind : SymbolKind) (first place : Location) :
    Sound ⟨c.modules, c.symbols.markUnresolved id,
      c.diagnostics ++ [(Finding.duplicate s.name kind first).report place]⟩ where
  names := h.names.markUnresolved id
  homes s' hs' := by
    rcases SymbolTable.of_mem_markUnresolved hs' with hold | ⟨old, hold, rfl⟩
    · exact h.homes s' hold
    · exact h.homes old (SymbolTable.mem_symbols_of_get? hold)
  memberships := h.memberships
  symbols s' hs' hunresolved := by
    rcases SymbolTable.of_mem_markUnresolved hs' with hold | ⟨old, hold, rfl⟩
    · exact (h.symbols s' hold hunresolved).mono (List.subset_append_left _ _)
    · cases hs.symm.trans hold
      exact ⟨kind, first, place, List.mem_append_right _ (List.mem_singleton_self _)⟩
  modules m hm hunresolved := (h.modules m hm hunresolved).mono (List.subset_append_left _ _)
  kinds d hd := by
    rcases List.mem_append.1 hd with hold | hlast
    · exact h.kinds d hold
    · rw [List.mem_singleton.1 hlast]
      exact .inl rfl

theorem Sound.declare (h : c.Sound) (sources : SourceMap) (unit : Nat) (d : Declaration) :
    (c.declare sources unit d).Sound := by
  have hhome : c.modules.Knows (c.modules.moduleAt unit d.span.lo) :=
    ModuleGraph.knows_moduleAt h.memberships unit d.span.lo
  unfold Collection.declare
  cases hfind : c.symbols.find? d.name with
  | none =>
    have hadded := h.addSymbol (s := .ofDeclaration d _ unit) hfind hhome rfl
    dsimp only
    rw [SymbolTable.declare_of_find?_eq_none hfind, ModuleGraph.registerEntity_eq]
    by_cases hmem : d.name ∈ c.modules.names
    · have hreported : ∀ place, ReportsConflict
          [(Finding.moduleNameTaken d.content.kind d.name).report place] d.name :=
        fun place => ⟨_, place, List.mem_singleton_self _⟩
      rw [if_pos hmem]
      exact hadded.addEntity (fun _ _ _ => hreported _) fun d hd => List.mem_singleton.1 hd ▸ rfl
    · have hfree : ∀ m ∈ c.modules.modules, m.name = d.name → ReportsConflict [] d.name :=
        fun m hm hname => absurd (hname ▸ List.mem_map_of_mem hm) hmem
      rw [if_neg hmem]
      have hrecorded := hadded.addEntity hfree nofun
      rwa [List.append_nil] at hrecorded
  | some existing =>
    obtain ⟨first, hfirst, hname⟩ := SymbolTable.get?_of_find? hfind
    have hmarked := h.markSymbol hfirst first.kind
      (sources.locate first.unit first.span) (sources.locate unit d.span)
    dsimp only
    rw [SymbolTable.declare_of_find?_eq_some hfind]
    simp only [Symbol.ofDeclaration, hfirst]
    rw [← hname]
    exact hmarked

theorem Sound.addUnit (h : c.Sound) (sources : SourceMap) (unit : Nat) (u : CompilationUnit) :
    (c.addUnit sources unit u).Sound :=
  List.foldlRecOn (motive := Sound) _ _ h fun _ hc d _ => hc.declare sources unit d

theorem sound_ofUnits (sources : SourceMap) (units : List CompilationUnit) :
    (ofUnits sources units).Sound := by
  have hmodules := ModuleGraph.initial_ofUnits units
  have hstart : Sound ⟨ModuleGraph.ofUnits units, .empty, []⟩ :=
    { names := List.nodup_nil
      homes := nofun
      memberships := hmodules.memberships
      symbols := nofun
      modules := fun m hm hunresolved => by simp [hmodules.resolved m hm] at hunresolved
      kinds := by simp }
  exact List.foldlRecOn (motive := Sound) _ _ hstart fun _ hc _ _ => hc.addUnit sources _ _

end Collection
end ModuleVisibility
