import ModuleVisibility.Proofs.Access

/-!
The runs of a program. The check goes through them symbol by symbol and leaves out none.
-/
namespace ModuleVisibility

theorem Symbol.kind_of_isModuleLevelTrait {s : Symbol} (h : s.isModuleLevelTrait = true) :
    s.kind = .trait := by
  unfold Symbol.isModuleLevelTrait DeclarationContent.isModuleLevelTrait at h
  split at h
  · next hcontent => simp [Symbol.kind, DeclarationContent.kind, hcontent]
  · cases h

namespace CheckedProgram

variable {p : CheckedProgram} {id : SymbolId}

theorem declared?_eq_some_iff {index unit : Nat} {m : Member} :
    p.declared? id index = some (unit, m) ↔
      ∃ s, p.symbols.get? id = some s ∧ s.members[index]? = some m ∧ s.unit = unit := by
  simp only [declared?, bind, Option.bind_eq_some_iff, pure, Option.some.injEq, Prod.mk.injEq]
  constructor
  · rintro ⟨s, hs, _, hm, hunit, rfl⟩
    exact ⟨s, hs, hm, hunit⟩
  · rintro ⟨s, hs, hm, hunit⟩
    exact ⟨s, hs, m, hm, hunit, rfl⟩

theorem mem_inheritedBy {r : InheritedMember} :
    r ∈ p.inheritedBy id ↔ ∃ key, p.flattening.Inherits id key r := by
  unfold inheritedBy Flattening.Inherits
  cases p.flattening.inherited? id <;> simp

theorem mem_composedBy {m : FlatMember} :
    m ∈ p.composedBy id ↔ (∃ key, p.flattening.Holds id key m) ∧ m.source ≠ id := by
  unfold composedBy Flattening.Holds
  cases p.flattening.traitMembers? id <;> simp

end CheckedProgram

namespace Analysis

variable {a : Analysis} {e : Execution} {id : SymbolId} {s : Symbol}

/-- A module-level trait has pinned whatever it composes. -/
def Pinned (a : Analysis) : Prop :=
  ∀ ⦃id s key m⦄, a.symbols.get? id = some s → s.isModuleLevelTrait = true →
    a.flattening.Holds id key m → ∃ home, m.origin = .pinned home

theorem mem_relocated (hs : a.symbols.get? id = some s) (hordinary : s.isModuleLevelTrait = false)
    {index : Nat} : (id, index) ∈ a.program.relocated ↔ a.Relocated id index := by
  unfold CheckedProgram.relocated Relocated
  simp only [List.mem_append, List.mem_flatMap, List.mem_map, Prod.mk.injEq]
  refine or_congr ⟨?_, ?_⟩ ⟨?_, ?_⟩
  · rintro ⟨owner, howner, r, hr, hsource, hindex⟩
    obtain ⟨t, ht, hclass⟩ := SymbolTable.mem_ofKind.1 howner
    obtain ⟨key, hkey⟩ := CheckedProgram.mem_inheritedBy.1 hr
    exact ⟨owner, t, key, r, ht, hclass, hkey, hsource, hindex⟩
  · rintro ⟨owner, t, key, r, ht, hclass, hkey, hsource, hindex⟩
    exact ⟨owner, SymbolTable.mem_ofKind.2 ⟨t, ht, hclass⟩, r,
      CheckedProgram.mem_inheritedBy.2 ⟨key, hkey⟩, hsource, hindex⟩
  · rintro ⟨⟨owner, t⟩, howner, m, hm, hsource, hindex⟩
    obtain ⟨ht, hlevel⟩ := List.mem_filter.1 howner
    obtain ⟨⟨key, hkey⟩, _⟩ := CheckedProgram.mem_composedBy.1 hm
    exact ⟨owner, t, key, m, SymbolTable.mem_entries.1 ht, hlevel, hkey, hsource, hindex⟩
  · rintro ⟨owner, t, key, m, ht, hlevel, hkey, rfl, hindex⟩
    -- The member is none of the owner's own, for the owner is module-level and its source is not.
    have hother : m.source ≠ owner := by
      rintro rfl
      cases hs.symm.trans ht
      rw [hlevel] at hordinary
      cases hordinary
    exact ⟨(owner, t), List.mem_filter.2 ⟨SymbolTable.mem_entries.2 ht, hlevel⟩, m,
      CheckedProgram.mem_composedBy.2 ⟨⟨key, hkey⟩, hother⟩, rfl, hindex⟩

/-- What the check runs for a symbol runs in the program. -/
theorem runs_of_mem_symbolExecutions (hpinned : a.Pinned) (hs : a.symbols.get? id = some s)
    (h : e ∈ a.program.symbolExecutions id s) : a.Runs e := by
  unfold CheckedProgram.symbolExecutions at h
  split at h
  · next hkind =>
    rw [List.mem_singleton.1 h]
    exact .function hs hkind
  · next hkind =>
    rcases List.mem_append.1 h with hown | hinherited
    · obtain ⟨m, hm, rfl⟩ := List.mem_map.1 hown
      exact .classMember hs hkind hm
    · obtain ⟨r, hr, hrun⟩ := List.mem_filterMap.1 hinherited
      obtain ⟨key, hkey⟩ := CheckedProgram.mem_inheritedBy.1 hr
      obtain ⟨⟨unit, m⟩, hdeclared, rfl⟩ := Option.map_eq_some_iff.1 hrun
      obtain ⟨source, hsource, hm, rfl⟩ := CheckedProgram.declared?_eq_some_iff.1 hdeclared
      exact .inherited hs hkind hkey hsource hm
  · next hkind =>
    rcases List.mem_append.1 h with hown | hcomposed
    · obtain ⟨⟨m, index⟩, hmember, rfl⟩ := List.mem_map.1 hown
      obtain ⟨hm, hhere⟩ := List.mem_filter.1 hmember
      refine .traitMember hs hkind (List.mem_zipIdx_iff_getElem?.1 hm) ?_
      cases hlevel : s.isModuleLevelTrait with
      | true => exact .inl rfl
      | false =>
        exact .inr fun hrelocated => by simp [hlevel, mem_relocated hs, hrelocated] at hhere
    · split at hcomposed
      · next hlevel =>
        obtain ⟨r, hr, hrun⟩ := List.mem_filterMap.1 hcomposed
        obtain ⟨⟨key, hkey⟩, hother⟩ := CheckedProgram.mem_composedBy.1 hr
        obtain ⟨⟨unit, m⟩, hdeclared, rfl⟩ := Option.map_eq_some_iff.1 hrun
        obtain ⟨source, hsource, hm, rfl⟩ := CheckedProgram.declared?_eq_some_iff.1 hdeclared
        obtain ⟨home, horigin⟩ := hpinned hs hlevel hkey
        rw [horigin]
        exact .composed hs hlevel hkey hother horigin hsource hm
      · cases hcomposed
  · cases h

/-- What runs in the program is run by the check for some symbol. -/
theorem Runs.exists_mem_symbolExecutions (h : a.Runs e) :
    ∃ id s, a.symbols.get? id = some s ∧ e ∈ a.program.symbolExecutions id s := by
  cases h with
  | @function id s hs hkind =>
    refine ⟨id, s, hs, ?_⟩
    simp [CheckedProgram.symbolExecutions, hkind]
  | @classMember id s m hs hkind hm =>
    refine ⟨id, s, hs, ?_⟩
    simp only [CheckedProgram.symbolExecutions, hkind]
    exact List.mem_append_left _ (List.mem_map.2 ⟨m, hm, rfl⟩)
  | @inherited id s key r source m hs hkind hr hsource hm =>
    refine ⟨id, s, hs, ?_⟩
    simp only [CheckedProgram.symbolExecutions, hkind]
    have hdeclared : a.program.declared? r.source r.index = some (source.unit, m) :=
      CheckedProgram.declared?_eq_some_iff.2 ⟨source, hsource, hm, rfl⟩
    refine List.mem_append_right _ (List.mem_filterMap.2 ⟨r, CheckedProgram.mem_inheritedBy.2
      ⟨key, hr⟩, ?_⟩)
    rw [hdeclared]
    rfl
  | @traitMember id s index m hs hkind hm hhere =>
    refine ⟨id, s, hs, ?_⟩
    simp only [CheckedProgram.symbolExecutions, hkind]
    refine List.mem_append_left _ (List.mem_map.2 ⟨(m, index), List.mem_filter.2
      ⟨List.mem_zipIdx_iff_getElem?.2 hm, ?_⟩, rfl⟩)
    cases hlevel : s.isModuleLevelTrait with
    | true => rfl
    | false =>
      have hstays : ¬ a.Relocated id index := hhere.resolve_left (by simp [hlevel])
      simpa [mem_relocated hs hlevel] using hstays
  | @composed id s key r source home m hs hlevel hr hother horigin hsource hm =>
    refine ⟨id, s, hs, ?_⟩
    simp only [CheckedProgram.symbolExecutions, Symbol.kind_of_isModuleLevelTrait hlevel, hlevel,
      if_true]
    have hdeclared : a.program.declared? r.source r.index = some (source.unit, m) :=
      CheckedProgram.declared?_eq_some_iff.2 ⟨source, hsource, hm, rfl⟩
    refine List.mem_append_right _ (List.mem_filterMap.2 ⟨r, CheckedProgram.mem_composedBy.2
      ⟨⟨key, hr⟩, hother⟩, ?_⟩)
    rw [hdeclared, horigin]
    rfl

/-- The check goes through exactly the runs of the program. -/
theorem mem_executions_iff (hpinned : a.Pinned) : e ∈ a.program.executions ↔ a.Runs e := by
  unfold CheckedProgram.executions
  rw [List.mem_flatMap]
  constructor
  · rintro ⟨⟨id, s⟩, hs, he⟩
    exact runs_of_mem_symbolExecutions hpinned (SymbolTable.mem_entries.1 hs) he
  · intro hruns
    obtain ⟨id, s, hs, he⟩ := hruns.exists_mem_symbolExecutions
    exact ⟨(id, s), SymbolTable.mem_entries.2 hs, he⟩

end Analysis
end ModuleVisibility
