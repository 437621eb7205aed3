import ModuleVisibility.Composition.CycleReport
import ModuleVisibility.Proofs.Distinct

/-!
Every cycle is reported by name. Cycles of the same traits share a report, and it names each trait
of all of them.
-/
namespace ModuleVisibility
namespace CycleReport

variable {t : SymbolTable} {sources : SourceMap} {cycle : List SymbolId}
  {cycles : List (List SymbolId)}

/-- Something in the list reports a cycle of traits of which one has the name. -/
def ReportsCycle (ds : List Diagnostic) (name : String) : Prop :=
  ∃ names place, name ∈ names ∧ (Finding.compositionCycle names).report place ∈ ds

theorem perm_rotate (t : SymbolTable) (cycle : List SymbolId) : (rotate t cycle).Perm cycle := by
  unfold rotate
  refine List.perm_append_comm.trans ?_
  rw [List.takeWhile_append_dropWhile]

theorem perm_of_nameSet_eq {other : List SymbolId} (h : nameSet t cycle = nameSet t other) :
    (cycle.map t.name).Perm (other.map t.name) := by
  have hcycle := List.mergeSort_perm (cycle.map t.name) nameLe
  have hother := List.mergeSort_perm (other.map t.name) nameLe
  unfold nameSet at h
  rw [h] at hcycle
  exact hcycle.symm.trans hother

theorem ofRotated?_eq_some (sources : SourceMap) {ids : List SymbolId} {first : SymbolId}
    {others : List SymbolId} (hids : ids = first :: others) (hfirst : (t.get? first).isSome) :
    ∃ place, ofRotated? t sources ids =
      some ((Finding.compositionCycle (ids.map t.name)).report place) := by
  obtain ⟨head, hhead⟩ := Option.isSome_iff_exists.1 hfirst
  rw [hids]
  simp only [ofRotated?, hhead, Option.map_some]
  exact ⟨_, rfl⟩

/-- A cycle that was found has a report which names each of its traits. -/
theorem reportsCycle_of_mem (sources : SourceMap)
    (hknown : ∀ cycle ∈ cycles, ∀ id ∈ cycle, (t.get? id).isSome) (hcycle : cycle ∈ cycles)
    {id : SymbolId} (hid : id ∈ cycle) :
    ReportsCycle (diagnostics t sources cycles) (t.name id) := by
  obtain ⟨kept, hkept, hnames⟩ := exists_mem_distinctBy (nameSet t) hcycle
  have hperm : ((rotate t kept).map t.name).Perm (cycle.map t.name) :=
    ((perm_rotate t kept).map t.name).trans (perm_of_nameSet_eq hnames)
  have hname : t.name id ∈ (rotate t kept).map t.name :=
    hperm.mem_iff.2 (List.mem_map_of_mem hid)
  cases hrotated : rotate t kept with
  | nil =>
    rw [hrotated] at hname
    cases hname
  | cons first others =>
    have hfirst : first ∈ kept := by
      rw [← (perm_rotate t kept).mem_iff, hrotated]
      exact List.mem_cons_self
    obtain ⟨place, hreport⟩ := ofRotated?_eq_some sources hrotated
      (hknown kept (mem_of_mem_distinctBy hkept) first hfirst)
    exact ⟨_, place, hname, List.mem_filterMap.2 ⟨kept, hkept, hreport⟩⟩

theorem kind_of_mem_diagnostics {d : Diagnostic} (h : d ∈ diagnostics t sources cycles) :
    d.kind = .cyclicTraitComposition := by
  obtain ⟨kept, _, hreport⟩ := List.mem_filterMap.1 h
  unfold ofRotated? at hreport
  split at hreport
  · cases hreport
  · obtain ⟨head, _, rfl⟩ := Option.map_eq_some_iff.1 hreport
    rfl

end CycleReport
end ModuleVisibility
