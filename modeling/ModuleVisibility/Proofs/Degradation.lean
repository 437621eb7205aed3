import ModuleVisibility.Proofs.Resolution

/-!
Nothing is opened up silently. Whatever the analysis treats as public although it is declared
internal comes with an error that names its cause; without errors every access is one that the
declarations permit.
-/
namespace ModuleVisibility

/-! Modules and symbols that are resolved. -/

theorem ModuleGraph.scopesInternal_of_knows {g : ModuleGraph} {index : Nat}
    (hknown : g.Knows (.declared index))
    (hresolved : ∀ m ∈ g.modules, m.isUnresolved = false) :
    g.scopesInternal (.declared index) = true := by
  have hlt : index < g.modules.length := hknown
  rw [scopesInternal_eq, get?_declared, List.getElem?_eq_getElem hlt, Option.any_some,
    hresolved _ (List.getElem_mem hlt)]
  rfl

/-- Where modules are resolved and nothing is degraded, permission follows the declaration. -/
theorem ModuleGraph.of_permits_effective {g : ModuleGraph} {v : Visibility}
    {home accessor : ModuleId} (hknown : g.Knows home)
    (hresolved : ∀ m ∈ g.modules, m.isUnresolved = false)
    (h : (g.effective v home false).permits accessor home = true) :
    v = .public ∨ home = .global ∨ home = accessor := by
  cases home with
  | global => exact .inr (.inl rfl)
  | declared index =>
    have heffective : g.effective v (.declared index) false = v := by
      simp [ModuleGraph.effective, ModuleGraph.scopesInternal_of_knows hknown hresolved]
    rw [heffective] at h
    cases v with
    | «public» => exact .inl rfl
    | internal => exact .inr (.inr (beq_iff_eq.1 h).symm)

theorem SymbolTable.knows_pinnedHome {t : SymbolTable} {g : ModuleGraph}
    (hhomes : ∀ s ∈ t.symbols, g.Knows s.home) {chain : List SymbolId} {home : ModuleId}
    (h : t.pinnedHome? chain = some home) : g.Knows home := by
  obtain ⟨d, s, hs, _, rfl⟩ := exists_of_pinnedHome? h
  exact hhomes s (SymbolTable.mem_symbols_of_get? hs)

namespace Flattening

variable {symbols : SymbolTable} {modules : ModuleGraph} {sources : SourceMap} {id : SymbolId}
  {key : MemberKey}

theorem isSome_of_mem_cyclic (h : id ∈ (ofProgram symbols modules sources).cyclic) :
    (symbols.get? id).isSome :=
  SymbolTable.isSome_of_mem_ofKind (List.mem_filter.1 h).1

/-- The traits on cycles are those of the cycles that are reported. -/
theorem reportsCycle_of_mem_cyclic (h : id ∈ (ofProgram symbols modules sources).cyclic) :
    CycleReport.ReportsCycle (ofProgram symbols modules sources).diagnostics (symbols.name id) := by
  have hvalid := CycleSearch.valid_ofGraph symbols.closed_useGraph
  obtain ⟨cycle, hcycle, hid⟩ := List.any_eq_true.1 (List.mem_filter.1 h).2
  obtain ⟨names, place, hname, hreport⟩ := CycleReport.reportsCycle_of_mem sources
    (fun cycle hcycle id hid =>
      SymbolTable.isSome_of_mem_ofKind (hvalid.cycles cycle hcycle id hid))
    hcycle (List.contains_iff_mem.1 hid)
  refine ⟨names, place, hname, ?_⟩
  simp only [ofProgram, List.mem_append]
  exact .inl (.inl (.inr hreport))

end Flattening

namespace Analysis

variable {settings : DiagnosticSettings} {units : List ParsedUnit}

theorem collected_subset (settings : DiagnosticSettings) (units : List ParsedUnit) :
    (collected units).diagnostics ⊆ (ofUnits (.ofSettings settings) units).diagnostics := by
  intro d hd
  have hfixed : d.kind.isConfigurable = false := by
    rcases (Collection.sound_ofUnits _ _).kinds d hd with hkind | hkind <;> rw [hkind] <;> rfl
  have hfound : d ∈ found units := by simp [found, hd]
  exact (mem_diagnostics_iff hfixed).2 hfound

theorem mem_diagnostics_of_flattening {d : Diagnostic}
    (h : d ∈ (checked units).flattening.diagnostics) (hfixed : d.kind.isConfigurable = false) :
    d ∈ (ofUnits (.ofSettings settings) units).diagnostics := by
  have hfound : d ∈ found units := by simp [found, h]
  exact (mem_diagnostics_iff hfixed).2 hfound

/-! What is unresolved is reported. -/

theorem reports_unresolved_symbol {id : SymbolId} {s : Symbol}
    (hs : (checked units).symbols.get? id = some s) (hunresolved : s.isUnresolved = true) :
    Collection.ReportsDuplicate (ofUnits (.ofSettings settings) units).diagnostics s.name ∨
      CycleReport.ReportsCycle (ofUnits (.ofSettings settings) units).diagnostics s.name := by
  obtain ⟨old, hold, rfl⟩ := of_get?_checked hs
  rcases Bool.or_eq_true_iff.1 hunresolved with hcyclic | hduplicate
  · obtain ⟨names, place, hname, hreport⟩ :=
      Flattening.reportsCycle_of_mem_cyclic (List.contains_iff_mem.1 hcyclic)
    have hnamed : (collected units).symbols.name id = old.name := by
      simp [SymbolTable.name, hold]
    rw [hnamed] at hname
    exact .inr ⟨names, place, hname, mem_diagnostics_of_flattening hreport rfl⟩
  · have hreported :=
      (Collection.sound_ofUnits _ _).symbols old (SymbolTable.mem_symbols_of_get? hold)
      hduplicate
    exact .inl (hreported.mono (collected_subset settings units))

theorem reports_unresolved_module {m : Module} (hm : m ∈ (checked units).modules.modules)
    (hunresolved : m.isUnresolved = true) :
    Collection.ReportsConflict (ofUnits (.ofSettings settings) units).diagnostics m.name :=
  ((Collection.sound_ofUnits _ _).modules m hm hunresolved).mono (collected_subset settings units)

/-! What is degraded has an unresolved symbol behind it. -/

theorem exists_unresolved_of_degrades {id : SymbolId}
    (h : Flattening.degrades (collected units).symbols (checked units).flattening id = true) :
    ∃ s ∈ (checked units).symbols.symbols, s.isUnresolved = true := by
  have hsome : ((collected units).symbols.get? id).isSome := by
    rcases Bool.or_eq_true_iff.1 h with hcyclic | hduplicate
    · exact Flattening.isSome_of_mem_cyclic (List.contains_iff_mem.1 hcyclic)
    · exact Option.isSome_of_any hduplicate
  obtain ⟨old, hold⟩ := Option.isSome_iff_exists.1 hsome
  have hs := get?_checked units id
  rw [hold, Option.map_some] at hs
  refine ⟨_, SymbolTable.mem_symbols_of_get? hs, ?_⟩
  simpa [Flattening.degrades, hold] using h

theorem exists_unresolved_of_entry {id : SymbolId} {key : MemberKey} {m : FlatMember}
    (h : (checked units).flattening.traitMember? id key = some m)
    (hdegraded : m.isDegraded = true) :
    ∃ s ∈ (checked units).symbols.symbols, s.isUnresolved = true := by
  obtain ⟨rest, hrest⟩ := Flattening.exists_delivers h
  have hany := hrest.degraded
  rw [hdegraded, Bool.true_or] at hany
  obtain ⟨d, _, hdegrades⟩ := List.any_eq_true.1 hany.symm
  exact exists_unresolved_of_degrades hdegrades

theorem exists_unresolved_of_inherited {id : SymbolId} {owner : Symbol} {key : MemberKey}
    {r : InheritedMember} (howner : (collected units).symbols.get? id = some owner)
    (hclass : owner.kind = .class)
    (h : (checked units).flattening.inheritedMember? id key = some r)
    (hdegraded : r.isDegraded = true) :
    ∃ s ∈ (checked units).symbols.symbols, s.isUnresolved = true := by
  obtain ⟨chain, hchain⟩ := Flattening.exists_inheritsOver howner hclass h
  obtain ⟨d, _, ⟨s, hs, hunresolved⟩ | hcyclic⟩ := hchain.degraded.1 hdegraded
  · have hdegrades : Flattening.degrades (collected units).symbols (checked units).flattening d =
        true := by
      simp [Flattening.degrades, hs, hunresolved]
    exact exists_unresolved_of_degrades hdegrades
  · exact exists_unresolved_of_degrades
      (Bool.or_eq_true_iff.2 (.inl (List.contains_iff_mem.2 hcyclic)))

/-! Every module that a use is checked against is known. -/

theorem knows_home {id : SymbolId} {s : Symbol} (hs : (checked units).symbols.get? id = some s) :
    (checked units).modules.Knows s.home := by
  obtain ⟨old, hold, rfl⟩ := of_get?_checked hs
  exact (Collection.sound_ofUnits _ _).homes old (SymbolTable.mem_symbols_of_get? hold)

theorem knows_pinnedHome {chain : List SymbolId} {home : ModuleId}
    (h : (collected units).symbols.pinnedHome? chain = some home) :
    (checked units).modules.Knows home :=
  SymbolTable.knows_pinnedHome (Collection.sound_ofUnits _ _).homes h

theorem knows_origin {id : SymbolId} {key : MemberKey} {m : FlatMember} {home : ModuleId}
    (h : (checked units).flattening.traitMember? id key = some m)
    (hhome : (checked units).modules.Knows home) :
    (checked units).modules.Knows (m.origin.resolve home) := by
  obtain ⟨rest, hrest⟩ := Flattening.exists_delivers h
  rw [hrest.origin]
  cases hpinned : (collected units).symbols.pinnedHome? (id :: rest) with
  | none => exact hhome
  | some pinned => exact knows_pinnedHome hpinned

theorem knows_inherited {id : SymbolId} {owner : Symbol} {key : MemberKey} {r : InheritedMember}
    (howner : (collected units).symbols.get? id = some owner) (hclass : owner.kind = .class)
    (h : (checked units).flattening.inheritedMember? id key = some r) :
    (checked units).modules.Knows r.home := by
  obtain ⟨chain, hchain⟩ := Flattening.exists_inheritsOver howner hclass h
  rw [hchain.home]
  cases hpinned : (collected units).symbols.pinnedHome? chain with
  | none =>
    exact (Collection.sound_ofUnits _ _).homes owner (SymbolTable.mem_symbols_of_get? howner)
  | some pinned => exact knows_pinnedHome hpinned

theorem knows_of_resolveMember? {id : SymbolId} {key : MemberKey} {m : ResolvedMember}
    (h : (checked units).flattening.resolveMember? (checked units).symbols id key = some m) :
    (checked units).modules.Knows m.home := by
  cases Flattening.resolveMember?_eq_some_iff.1 h with
  | own howner => exact knows_home howner
  | inherited howner _ hclass hr =>
    obtain ⟨old, hold, rfl⟩ := of_get?_checked howner
    exact knows_inherited hold hclass hr
  | held howner _ _ hm => exact knows_origin hm (knows_home howner)

/-- Where every symbol is resolved, a member that is found is not degraded. -/
theorem isDegraded_of_resolveMember?
    (hresolved : ∀ s ∈ (checked units).symbols.symbols, s.isUnresolved = false) {id : SymbolId}
    {key : MemberKey} {m : ResolvedMember}
    (h : (checked units).flattening.resolveMember? (checked units).symbols id key = some m) :
    m.isDegraded = false := by
  have hnone : ¬ ∃ s ∈ (checked units).symbols.symbols, s.isUnresolved = true := by
    rintro ⟨s, hs, hunresolved⟩
    rw [hresolved s hs] at hunresolved
    cases hunresolved
  have hown : ∀ {owner : Symbol}, (checked units).symbols.get? id = some owner →
      owner.isUnresolved = false := fun howner =>
      hresolved _ (SymbolTable.mem_symbols_of_get? howner)
  cases Flattening.resolveMember?_eq_some_iff.1 h with
  | own howner => exact hown howner
  | inherited howner _ hclass hr =>
    obtain ⟨old, hold, rfl⟩ := of_get?_checked howner
    refine Bool.or_eq_false_iff.2 ⟨Bool.eq_false_iff.2 fun hdegraded => ?_, hown howner⟩
    exact hnone (exists_unresolved_of_inherited hold hclass hr hdegraded)
  | held howner _ _ hm =>
    refine Bool.or_eq_false_iff.2 ⟨Bool.eq_false_iff.2 fun hdegraded => ?_, hown howner⟩
    exact hnone (exists_unresolved_of_entry hm hdegraded)

/-! Without errors the declarations are enforced. -/

theorem severity_of_hasErrors_eq_false {a : Analysis} (h : a.hasErrors = false) {d : Diagnostic}
    (hd : d ∈ a.diagnostics) : d.severity ≠ .error := by
  have hcount : Diagnostic.countAt a.diagnostics .error = 0 :=
    Nat.eq_zero_of_not_pos (of_decide_eq_false h)
  have hall := List.countP_eq_zero.1 hcount d hd
  simpa using hall

theorem resolved_symbols (h : (ofUnits (.ofSettings settings) units).hasErrors = false) :
    ∀ s ∈ (checked units).symbols.symbols, s.isUnresolved = false := by
  intro s hs
  obtain ⟨id, hget⟩ := SymbolTable.exists_get?_of_mem hs
  refine Bool.eq_false_iff.2 fun hunresolved => ?_
  rcases reports_unresolved_symbol hget hunresolved with ⟨_, _, _, hd⟩ | ⟨_, _, _, hd⟩
  · exact severity_of_hasErrors_eq_false h hd rfl
  · exact severity_of_hasErrors_eq_false h hd rfl

theorem resolved_modules (h : (ofUnits (.ofSettings settings) units).hasErrors = false) :
    ∀ m ∈ (checked units).modules.modules, m.isUnresolved = false := by
  intro m hm
  refine Bool.eq_false_iff.2 fun hunresolved => ?_
  obtain ⟨_, _, hd⟩ := reports_unresolved_module hm hunresolved
  exact severity_of_hasErrors_eq_false h hd rfl

theorem not_isDenial (h : (ofUnits (.ofSettings settings) units).hasErrors = false)
    (d : Diagnostic) : ¬ (ofUnits (.ofSettings settings) units).IsDenial d := by
  intro hdenial
  obtain ⟨reported, hreported, hkind, _⟩ := exists_reported hdenial
  obtain ⟨e, r, t, _, _, _, _, rfl⟩ := isDenial_of_mem hreported hkind
  exact severity_of_hasErrors_eq_false h hreported rfl

theorem Resolves.get? {a : Analysis} {current : Option SymbolId} {kind : ReferenceKind}
    {id : SymbolId} {s : Symbol} (h : a.Resolves current kind (.symbol id s)) :
    a.symbols.get? id = some s := by
  cases h with
  | call h => exact h.get?
  | constant h => exact h.get?
  | new h => exact h.1
  | owner h => exact h.get?

theorem Resolves.resolveMember? {a : Analysis} (hnames : a.symbols.DistinctNames)
    {current : Option SymbolId} {kind : ReferenceKind} {owner : Symbol} {key : MemberKey}
    {m : ResolvedMember} (h : a.Resolves current kind (.member owner key m)) :
    ∃ id, a.flattening.resolveMember? a.symbols id key = some m := by
  cases h with
  | memberOf h hm =>
    rw [resolveMember?_name hnames h.get?] at hm
    exact ⟨_, hm⟩
  | memberOfCurrent _ h hm =>
    rw [resolveMember?_name hnames h] at hm
    exact ⟨_, hm⟩

/-- Without errors, whatever a reference resolves to is public, is in the global module or is used
in its own module. -/
theorem enforced_of_hasErrors_eq_false
    (h : (ofUnits (.ofSettings settings) units).hasErrors = false) {e : Execution} {r : Reference}
    {t : Target} (he : (ofUnits (.ofSettings settings) units).Runs e) (hr : r ∈ e.body)
    (ht : (ofUnits (.ofSettings settings) units).Resolves e.current r.kind t) :
    t.visibility = .public ∨ t.home = .global ∨ t.home = e.accessor := by
  have hallowed : ¬ (ofUnits (.ofSettings settings) units).Denies e.accessor t :=
    fun hdenied => not_isDenial h _ ⟨e, r, t, he, hr, ht, hdenied, rfl⟩
  have hsymbols := resolved_symbols h
  have hmodules := resolved_modules h
  cases t with
  | symbol id s =>
    have hs : (checked units).symbols.get? id = some s := ht.get?
    have haccess : s.isAccessible (checked units).modules e.accessor = true := by
      by_contra hnot
      exact hallowed ((congrArg (Option.map _) hs).trans (congrArg some (Bool.eq_false_iff.2 hnot)))
    unfold Symbol.isAccessible at haccess
    rw [hsymbols s (SymbolTable.mem_symbols_of_get? hs)] at haccess
    exact ModuleGraph.of_permits_effective (knows_home hs) hmodules haccess
  | member owner key m =>
    obtain ⟨id, hm⟩ := ht.resolveMember? (distinctNames_ofUnits _ units)
    have haccess : m.isAccessible (checked units).modules e.accessor = true := by
      by_contra hnot
      exact hallowed (Bool.eq_false_iff.2 hnot)
    unfold ResolvedMember.isAccessible at haccess
    rw [isDegraded_of_resolveMember? hsymbols hm] at haccess
    exact ModuleGraph.of_permits_effective (knows_of_resolveMember? hm) hmodules haccess

/-- Whatever is unresolved is reported, whatever is degraded has an unresolved symbol behind it,
and without errors every reference is permitted by the declaration of what it resolves to. -/
structure NoSilentDegradation (a : Analysis) : Prop where
  symbols : ∀ s ∈ a.symbols.symbols, s.isUnresolved = true →
    Collection.ReportsDuplicate a.diagnostics s.name ∨ CycleReport.ReportsCycle a.diagnostics s.name
  modules : ∀ m ∈ a.modules.modules, m.isUnresolved = true →
    Collection.ReportsConflict a.diagnostics m.name
  traits : ∀ id key m, a.flattening.Holds id key m → m.isDegraded = true →
    ∃ s ∈ a.symbols.symbols, s.isUnresolved = true
  classes : ∀ id key r, a.flattening.Inherits id key r → r.isDegraded = true →
    ∃ s ∈ a.symbols.symbols, s.isUnresolved = true
  enforced : a.hasErrors = false → ∀ e r t, a.Runs e → r ∈ e.body → a.Resolves e.current r.kind t →
    t.visibility = .public ∨ t.home = .global ∨ t.home = e.accessor

/-- Whatever the settings, nothing is opened up without an error. -/
theorem no_silent_degradation (settings : DiagnosticSettings) (units : List ParsedUnit) :
    (ofUnits (.ofSettings settings) units).NoSilentDegradation where
  symbols s hs hunresolved := by
    obtain ⟨id, hget⟩ := SymbolTable.exists_get?_of_mem hs
    exact reports_unresolved_symbol hget hunresolved
  modules m hm hunresolved := reports_unresolved_module hm hunresolved
  traits id key m hm hdegraded :=
    exists_unresolved_of_entry (Flattening.traitMember?_of_holds hm) hdegraded
  classes id key r hr hdegraded := by
    obtain ⟨table, htable, hmem⟩ := hr
    obtain ⟨owner, howner, hclass, hentry⟩ := Flattening.of_mem_inherited htable hmem
    exact exists_unresolved_of_inherited howner hclass hentry hdegraded
  enforced h _ _ _ he hr ht := enforced_of_hasErrors_eq_false h he hr ht

end Analysis
end ModuleVisibility
