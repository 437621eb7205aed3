import Mathlib.Data.List.Forall2
import Mathlib.Data.Prod.Lex
import ModuleVisibility.Proofs.Analysis

/-!
Grading and sorting. Settings decide by the kind of a diagnostic alone whether it is listed and how
severe it is, and the order goes by the place alone. So neither bears on the other: the report under
some settings is the one under none, without what they disable and with the severities that they ask
for.
-/
namespace ModuleVisibility

namespace DiagnosticKind

/-- An identifier names a kind by its code or by its name. -/
def IsNamed (k : DiagnosticKind) (id : String) : Prop := k.code = id ∨ k.name = id

instance (k : DiagnosticKind) (id : String) : Decidable (k.IsNamed id) :=
  inferInstanceAs (Decidable (_ ∨ _))

theorem ofId?_code (k : DiagnosticKind) : ofId? k.code = some k := by
  cases k <;> decide

theorem ofId?_name (k : DiagnosticKind) : ofId? k.name = some k := by
  cases k <;> decide

/-- Codes and names are told apart, so an identifier names one kind at most. -/
theorem ofId?_eq_some_iff {id : String} {k : DiagnosticKind} :
    ofId? id = some k ↔ k.IsNamed id := by
  constructor
  · intro h
    simpa [IsNamed] using List.find?_some h
  · rintro (rfl | rfl)
    · exact k.ofId?_code
    · exact k.ofId?_name

end DiagnosticKind

namespace DiagnosticSettings

/-- Settings disable a kind that they name, unless it is an error by itself. -/
def Disables (s : DiagnosticSettings) (k : DiagnosticKind) : Prop :=
  k.entry.severity ≠ .error ∧ ∃ id ∈ s.disabled, k.IsNamed id

instance (s : DiagnosticSettings) (k : DiagnosticKind) : Decidable (s.Disables k) :=
  inferInstanceAs (Decidable (_ ∧ _))

/-- Settings ask for a severity for a kind that they name, unless it is an error by itself. -/
def Regrades (s : DiagnosticSettings) (k : DiagnosticKind) (severity : Severity) : Prop :=
  k.entry.severity ≠ .error ∧ ∃ id, (id, severity) ∈ s.severity ∧ k.IsNamed id

/-- A diagnostic and what settings make of it: nothing changes but the severity, and this only for
one asked for. -/
structure Graded (s : DiagnosticSettings) (d graded : Diagnostic) : Prop where
  same : { graded with severity := d.severity } = d
  severity : s.Regrades d.kind graded.severity ∨
    (graded.severity = d.severity ∧ ∀ severity, ¬ s.Regrades d.kind severity)

end DiagnosticSettings

namespace Policy

variable {s : DiagnosticSettings} {k : DiagnosticKind} {severity : Severity}

theorem configurable?_eq_some_iff {id : String} :
    configurable? id = some k ↔ k.IsNamed id ∧ k.entry.severity ≠ .error := by
  rw [configurable?, Option.filter_eq_some_iff, DiagnosticKind.ofId?_eq_some_iff,
    DiagnosticKind.isConfigurable, bne_iff_ne]

theorem isEnabled_iff : (ofSettings s).isEnabled k = true ↔ ¬ s.Disables k := by
  have hmem : k ∈ (ofSettings s).disabled ↔ s.Disables k := by
    unfold ofSettings DiagnosticSettings.Disables
    simp only [List.mem_filterMap, configurable?_eq_some_iff]
    constructor
    · rintro ⟨id, hid, hnamed, herror⟩
      exact ⟨herror, id, hid, hnamed⟩
    · rintro ⟨herror, id, hid, hnamed⟩
      exact ⟨id, hid, hnamed, herror⟩
  rw [isEnabled, Bool.not_eq_true', List.contains_eq_mem, decide_eq_false_iff_not, hmem]

theorem mem_overrides : (k, severity) ∈ (ofSettings s).overrides ↔ s.Regrades k severity := by
  simp only [ofSettings, List.mem_reverse, List.mem_filterMap, Option.map_eq_some_iff,
    configurable?_eq_some_iff]
  constructor
  · rintro ⟨⟨id, _⟩, hid, _, ⟨hnamed, herror⟩, heq⟩
    cases heq
    exact ⟨herror, id, hid, hnamed⟩
  · rintro ⟨herror, id, hid, hnamed⟩
    exact ⟨(id, severity), hid, k, ⟨hnamed, herror⟩, rfl⟩

theorem regrades_of_severityOverride? (h : (ofSettings s).severityOverride? k = some severity) :
    s.Regrades k severity :=
  mem_overrides.1 (mem_of_lookup_eq_some h)

theorem not_regrades_of_severityOverride? (h : (ofSettings s).severityOverride? k = none) :
    ¬ s.Regrades k severity := by
  intro hregrades
  have hne := List.lookup_eq_none_iff.1 h _ (mem_overrides.2 hregrades)
  simp at hne

theorem graded_regrade (s : DiagnosticSettings) (d : Diagnostic) :
    s.Graded d ((ofSettings s).regrade d) := by
  unfold regrade
  cases h : (ofSettings s).severityOverride? d.kind with
  | none => exact ⟨rfl, .inr ⟨rfl, fun _ => not_regrades_of_severityOverride? h⟩⟩
  | some severity => exact ⟨rfl, .inl (regrades_of_severityOverride? h)⟩

/-- What is listed are the diagnostics that are not disabled, each as it is graded. -/
theorem forall₂_apply (s : DiagnosticSettings) (ds : List Diagnostic) :
    List.Forall₂ s.Graded (ds.filter fun d => ¬ s.Disables d.kind) ((ofSettings s).apply ds) := by
  have hkept : (ds.filter fun d => ¬ s.Disables d.kind) = ds.filter fun d =>
      (ofSettings s).isEnabled d.kind := by
    apply List.filter_congr
    intro d _
    rw [Bool.eq_iff_iff, isEnabled_iff, decide_eq_true_iff]
  rw [hkept, apply, List.forall₂_map_right_iff, List.forall₂_same]
  intro d _
  exact graded_regrade s d

/-! Grading once more changes nothing. -/

variable (p : Policy)

theorem regrade_regrade (d : Diagnostic) : p.regrade (p.regrade d) = p.regrade d := by
  rw [regrade, kind_regrade]
  cases h : p.severityOverride? d.kind with
  | none => rfl
  | some severity =>
    rw [regrade, h]

theorem apply_apply (ds : List Diagnostic) : p.apply (p.apply ds) = p.apply ds := by
  have henabled : (p.apply ds).filter (fun d => p.isEnabled d.kind) = p.apply ds := by
    apply List.filter_eq_self.2
    intro d hd
    obtain ⟨d, hmem, rfl⟩ := List.mem_map.1 hd
    rw [kind_regrade]
    exact (List.mem_filter.1 hmem).2
  rw [apply, henabled, apply, List.map_map]
  apply List.map_congr_left
  intro d _
  exact p.regrade_regrade d

end Policy

namespace Diagnostic

/-- What diagnostics are listed by: the unit, then the start and the end of the range in it. -/
def key (d : Diagnostic) : ℕ ×ₗ ℕ ×ₗ ℕ :=
  toLex (d.location.unit, toLex (d.location.span.lo, d.location.span.hi))

theorem le_iff_key_le {a b : Diagnostic} : a.le b = true ↔ a.key ≤ b.key := by
  rw [le_iff, Span.le_iff]
  simp [key, Prod.Lex.toLex_le_toLex]

theorem pairwise_sort (ds : List Diagnostic) : (sort ds).Pairwise fun a b => a.key ≤ b.key := by
  apply (List.pairwise_mergeSort le_trans le_total ds).imp
  intro a b h
  exact le_iff_key_le.1 h

theorem sort_of_pairwise {ds : List Diagnostic} (h : ds.Pairwise fun a b => a.key ≤ b.key) :
    sort ds = ds :=
  List.mergeSort_of_pairwise (h.imp le_iff_key_le.2)

theorem sort_sort (ds : List Diagnostic) : sort (sort ds) = sort ds :=
  sort_of_pairwise (pairwise_sort ds)

/-- Those of one key stand as they stood. -/
theorem filter_key_sort (ds : List Diagnostic) (k : ℕ ×ₗ ℕ ×ₗ ℕ) :
    (sort ds).filter (·.key = k) = ds.filter (·.key = k) := by
  have hfilter : (sort ds).filter (·.key = k) = sort (ds.filter (·.key = k)) :=
    filter_mergeSort le_trans le_total _ ds
  have hequal : ∀ d ∈ ds.filter (·.key = k), d.key = k := fun d hd =>
    of_decide_eq_true (List.mem_filter.1 hd).2
  rw [hfilter]
  apply sort_of_pairwise
  apply List.pairwise_of_forall_mem_list
  intro a ha b hb
  rw [hequal a ha, hequal b hb]

/-- A change that leaves places alone can be made before or after. -/
theorem map_sort {f : Diagnostic → Diagnostic} (hf : ∀ d, (f d).location = d.location)
      (ds : List Diagnostic) :
    (sort ds).map f = sort (ds.map f) := by
  apply List.map_mergeSort
  intro a _ b _
  rw [le, le, hf, hf]

end Diagnostic

namespace Policy

theorem apply_sort (p : Policy) (ds : List Diagnostic) :
    p.apply (Diagnostic.sort ds) = Diagnostic.sort (p.apply ds) := by
  have hfilter : (Diagnostic.sort ds).filter (fun d => p.isEnabled d.kind) =
      Diagnostic.sort (ds.filter fun d => p.isEnabled d.kind) :=
    filter_mergeSort Diagnostic.le_trans Diagnostic.le_total _ ds
  rw [apply, hfilter, Diagnostic.map_sort p.location_regrade, apply]

/-- What settings and the order make of some diagnostics. -/
structure GradesAndSorts (s : DiagnosticSettings) (ds : List Diagnostic) : Prop where
  either : Diagnostic.sort ((ofSettings s).apply ds) = (ofSettings s).apply (Diagnostic.sort ds)
  gradedOnce : (ofSettings s).apply ((ofSettings s).apply ds) = (ofSettings s).apply ds
  sortedOnce : Diagnostic.sort (Diagnostic.sort ds) = Diagnostic.sort ds
  sorted : (Diagnostic.sort ((ofSettings s).apply ds)).Pairwise fun a b => a.key ≤ b.key
  stable : ∀ k, (Diagnostic.sort ((ofSettings s).apply ds)).filter (·.key = k) =
    ((ofSettings s).apply ds).filter (·.key = k)
  /-- Before it is sorted, the list is the one given without what is disabled, and each is graded
  where it stands. -/
  graded : List.Forall₂ s.Graded (ds.filter fun d => ¬ s.Disables d.kind) ((ofSettings s).apply ds)
  perm : (Diagnostic.sort ((ofSettings s).apply ds)).Perm ((ofSettings s).apply ds)

theorem gradesAndSorts_ofSettings (s : DiagnosticSettings) (ds : List Diagnostic) :
    GradesAndSorts s ds where
  either := ((ofSettings s).apply_sort ds).symm
  gradedOnce := (ofSettings s).apply_apply ds
  sortedOnce := Diagnostic.sort_sort ds
  sorted := Diagnostic.pairwise_sort _
  stable k := Diagnostic.filter_key_sort _ k
  graded := forall₂_apply s ds
  perm := Diagnostic.perm_sort _

end Policy
end ModuleVisibility
