import ModuleVisibility.Diagnostic.Policy

/-!
What becomes of findings on the way to the reader. A policy leaves alone whatever is an error by
itself, sorting loses nothing, and neither lets the findings in some units bear on those in others.
-/
namespace ModuleVisibility

namespace Policy

variable {settings : DiagnosticSettings} {kind : DiagnosticKind}

theorem isConfigurable_of_configurable? {id : String} (h : configurable? id = some kind) :
    kind.isConfigurable = true :=
  (Option.filter_eq_some_iff.1 h).2

theorem isEnabled_ofSettings (h : kind.isConfigurable = false) :
    (ofSettings settings).isEnabled kind = true := by
  have hnot : kind ∉ (ofSettings settings).disabled := by
    intro hmem
    obtain ⟨id, _, hid⟩ := List.mem_filterMap.1 hmem
    rw [isConfigurable_of_configurable? hid] at h
    cases h
  simpa [isEnabled] using hnot

theorem severityOverride?_ofSettings (h : kind.isConfigurable = false) :
    (ofSettings settings).severityOverride? kind = none := by
  refine List.lookup_eq_none_iff.2 fun ⟨other, severity⟩ hmem => bne_iff_ne.2 ?_
  obtain ⟨⟨id, _⟩, _, hid⟩ := List.mem_filterMap.1 (List.mem_reverse.1 hmem)
  obtain ⟨found, hfound, heq⟩ := Option.map_eq_some_iff.1 hid
  cases heq
  rintro rfl
  rw [isConfigurable_of_configurable? hfound] at h
  cases h

theorem kind_regrade (p : Policy) (d : Diagnostic) : (p.regrade d).kind = d.kind := by
  unfold regrade
  split <;> rfl

theorem regrade_ofSettings {d : Diagnostic} (h : d.kind.isConfigurable = false) :
    (ofSettings settings).regrade d = d := by
  unfold regrade
  rw [severityOverride?_ofSettings h]

/-- A choice among kinds that settings cannot touch gets the diagnostics just as they were found. -/
theorem filter_apply_ofSettings {p : DiagnosticKind → Bool}
    (hp : ∀ kind, p kind = true → kind.isConfigurable = false) (ds : List Diagnostic) :
    ((ofSettings settings).apply ds).filter (p ·.kind) = ds.filter (p ·.kind) := by
  have henabled : ds.filter (fun d => p d.kind && (ofSettings settings).isEnabled d.kind) =
      ds.filter (p ·.kind) := by
    refine List.filter_congr fun d _ => ?_
    cases hd : p d.kind with
    | false => rfl
    | true => rw [isEnabled_ofSettings (hp d.kind hd), Bool.and_true]
  have hregrade : ∀ d ∈ ds.filter (p ·.kind), (ofSettings settings).regrade d = d :=
    fun d hd => regrade_ofSettings (hp d.kind (List.mem_filter.1 hd).2)
  unfold apply
  rw [List.filter_map]
  simp only [Function.comp_def, kind_regrade]
  rw [List.filter_filter, henabled]
  calc (ds.filter (p ·.kind)).map (ofSettings settings).regrade
      = (ds.filter (p ·.kind)).map id := List.map_congr_left hregrade
    _ = ds.filter (p ·.kind) := List.map_id _

end Policy

namespace SourceMap

variable (sources : SourceMap) (unit : Nat) (span : Span)

@[simp] theorem unit_locate : (sources.locate unit span).unit = unit := by
  unfold locate
  split <;> rfl

@[simp] theorem span_locate : (sources.locate unit span).span = span := by
  unfold locate
  split <;> rfl

end SourceMap

/-! Sorting. -/

section

variable {α : Type} {le : α → α → Bool} (htrans : ∀ a b c, le a b → le b c → le a c)
  (htotal : ∀ a b, le a b || le b a)

/-- A sorted list is cut in one place only by an element that what is before it is not above. -/
theorem append_inj_of_le {a : α} {l₁ l₂ k₁ k₂ : List α} (h : l₁ ++ l₂ = k₁ ++ k₂)
    (hl₁ : ∀ b ∈ l₁, le a b = false) (hl₂ : ∀ b ∈ l₂, le a b = true)
    (hk₁ : ∀ b ∈ k₁, le a b = false) (hk₂ : ∀ b ∈ k₂, le a b = true) : l₁ = k₁ ∧ l₂ = k₂ := by
  have hnone : ∀ middle : List α, (∀ b ∈ middle, le a b = false) → (∀ b ∈ middle, le a b = true) →
      middle = [] := by
    intro middle hbefore hbehind
    refine List.eq_nil_iff_forall_not_mem.2 fun b hb => ?_
    exact Bool.false_ne_true ((hbefore b hb).symm.trans (hbehind b hb))
  rcases List.append_eq_append_iff.1 h with ⟨middle, rfl, rfl⟩ | ⟨middle, rfl, rfl⟩
  · cases hnone middle (fun b hb => hk₁ b (List.mem_append_right _ hb))
      fun b hb => hl₂ b (List.mem_append_left _ hb)
    simp
  · cases hnone middle (fun b hb => hl₁ b (List.mem_append_right _ hb))
      fun b hb => hk₂ b (List.mem_append_left _ hb)
    simp

include htrans htotal

/-- The first element is put between those that it does not come before and those that it does. -/
theorem exists_mergeSort_cons (a : α) (l : List α) :
    ∃ l₁ l₂, (a :: l).mergeSort le = l₁ ++ a :: l₂ ∧ l.mergeSort le = l₁ ++ l₂ ∧
      (∀ b ∈ l₁, le a b = false) ∧ ∀ b ∈ l₂, le a b = true := by
  obtain ⟨l₁, l₂, hsorted, hrest, hbefore⟩ := List.mergeSort_cons htrans htotal a l
  have hpairs := List.pairwise_mergeSort htrans htotal (a :: l)
  rw [hsorted] at hpairs
  exact ⟨l₁, l₂, hsorted, hrest, fun b hb => by simpa using hbefore b hb,
    (List.pairwise_cons.1 (List.pairwise_append.1 hpairs).2.1).1⟩

/-- Sorting keeps what is equal in its order, so that it may be done after leaving something out. -/
theorem filter_mergeSort (p : α → Bool) (l : List α) :
    (l.mergeSort le).filter p = (l.filter p).mergeSort le := by
  induction l with
  | nil => simp
  | cons a rest ih =>
    obtain ⟨l₁, l₂, hsorted, hrest, hbefore, hbehind⟩ := exists_mergeSort_cons htrans htotal a rest
    rw [hsorted, List.filter_append]
    cases ha : p a with
    | false =>
      have hsome : ¬ p a = true := by simp [ha]
      rw [List.filter_cons_of_neg hsome, List.filter_cons_of_neg hsome, ← ih, hrest,
        List.filter_append]
    | true =>
      obtain ⟨k₁, k₂, hsorted', hrest', hbefore', hbehind'⟩ :=
        exists_mergeSort_cons htrans htotal a (rest.filter p)
      have hsame : l₁.filter p ++ l₂.filter p = k₁ ++ k₂ := by
        rw [← List.filter_append, ← hrest, ih, hrest']
      obtain ⟨h₁, h₂⟩ := append_inj_of_le hsame
        (fun b hb => hbefore b (List.mem_filter.1 hb).1)
        (fun b hb => hbehind b (List.mem_filter.1 hb).1) hbefore' hbehind'
      rw [List.filter_cons_of_pos ha, List.filter_cons_of_pos ha, hsorted', h₁, h₂]

/-- Without one of the elements the others are sorted as before. -/
theorem exists_mergeSort_append_cons (l : List α) (b : α) (l' : List α) :
    ∃ before after, (l ++ b :: l').mergeSort le = before ++ b :: after ∧
      (l ++ l').mergeSort le = before ++ after := by
  induction l with
  | nil =>
    obtain ⟨before, after, hsorted, hrest, _⟩ := exists_mergeSort_cons htrans htotal b l'
    exact ⟨before, after, hsorted, hrest⟩
  | cons a rest ih =>
    obtain ⟨before, after, hwith, hwithout⟩ := ih
    obtain ⟨l₁, l₂, hsorted, hsplit, hbefore, hbehind⟩ :=
      exists_mergeSort_cons htrans htotal a (rest ++ b :: l')
    obtain ⟨k₁, k₂, hsorted', hsplit', hbefore', hbehind'⟩ :=
      exists_mergeSort_cons htrans htotal a (rest ++ l')
    rw [List.cons_append, List.cons_append, hsorted, hsorted']
    have hcut : (∃ middle, before = l₁ ++ middle ∧ l₂ = middle ++ b :: after) ∨
        ∃ middle, l₁ = before ++ b :: middle ∧ after = middle ++ l₂ := by
      rcases List.append_eq_append_iff.1 (hsplit.symm.trans hwith) with
        ⟨middle, hmiddle⟩ | ⟨middle, rfl, hafter⟩
      · exact .inl ⟨middle, hmiddle⟩
      · rcases List.cons_eq_append_iff.1 hafter with ⟨rfl, hl₂⟩ | ⟨middle, rfl, hrest⟩
        · exact .inl ⟨[], by simp, hl₂⟩
        · exact .inr ⟨middle, rfl, hrest⟩
    rcases hcut with ⟨middle, rfl, rfl⟩ | ⟨middle, rfl, rfl⟩
    · have hsame : l₁ ++ (middle ++ after) = k₁ ++ k₂ := by
        rw [← List.append_assoc, ← hwithout, hsplit']
      have hrest : ∀ c ∈ middle ++ after, le a c = true := fun c hc =>
        hbehind c ((List.sublist_cons_self b after).append_left middle |>.subset hc)
      obtain ⟨h₁, h₂⟩ := append_inj_of_le hsame hbefore hrest hbefore' hbehind'
      exact ⟨l₁ ++ a :: middle, after, by simp, by simp [← h₁, ← h₂]⟩
    · have hsame : (before ++ middle) ++ l₂ = k₁ ++ k₂ := by
        rw [List.append_assoc, ← hwithout, hsplit']
      have hrest : ∀ c ∈ before ++ middle, le a c = false := fun c hc =>
        hbefore c ((List.sublist_cons_self b middle).append_left before |>.subset hc)
      obtain ⟨h₁, h₂⟩ := append_inj_of_le hsame hrest hbehind hbefore' hbehind'
      exact ⟨before, middle ++ a :: l₂, by simp, by simp [← h₁, ← h₂]⟩

end

theorem Span.le_iff {a b : Span} : a.le b = true ↔ a.lo < b.lo ∨ a.lo = b.lo ∧ a.hi ≤ b.hi := by
  simp [le]

namespace Diagnostic

/-- Sorting keeps every diagnostic. -/
theorem perm_sort (ds : List Diagnostic) : (Diagnostic.sort ds).Perm ds :=
  List.mergeSort_perm ds Diagnostic.le

theorem le_iff {a b : Diagnostic} : a.le b = true ↔ a.location.unit < b.location.unit ∨
    a.location.unit = b.location.unit ∧ a.location.span.le b.location.span = true := by
  simp [le]

theorem le_trans (a b c : Diagnostic) (hab : a.le b = true) (hbc : b.le c = true) :
    a.le c = true := by
  rw [le_iff, Span.le_iff] at *
  omega

theorem le_total (a b : Diagnostic) : (a.le b || b.le a) = true := by
  rw [Bool.or_eq_true, le_iff, le_iff, Span.le_iff, Span.le_iff]
  omega

/-! The reports of a kind. -/

theorem filter_kind_eq_nil {ds : List Diagnostic} {kind : DiagnosticKind}
    (h : ∀ d ∈ ds, d.kind ≠ kind) : ds.filter (·.kind = kind) = [] :=
  List.filter_eq_nil_iff.2 fun d hd => by simp [h d hd]

theorem filter_kind_eq_self {ds : List Diagnostic} {kind : DiagnosticKind}
    (h : ∀ d ∈ ds, d.kind = kind) : ds.filter (·.kind = kind) = ds :=
  List.filter_eq_self.2 fun d hd => by simp [h d hd]

/-! The reports in some of the units. -/

/-- The reports in units below number `n`. -/
def below (n : Nat) (ds : List Diagnostic) : List Diagnostic := ds.filter (·.location.unit < n)

theorem below_append (n : Nat) (ds ds' : List Diagnostic) :
    below n (ds ++ ds') = below n ds ++ below n ds' := List.filter_append ..

theorem below_sort (n : Nat) (ds : List Diagnostic) : below n (sort ds) = sort (below n ds) :=
  filter_mergeSort le_trans le_total _ ds

end Diagnostic

namespace Policy

theorem location_regrade (p : Policy) (d : Diagnostic) : (p.regrade d).location = d.location := by
  unfold regrade
  split <;> rfl

/-- Where severities do not matter, a choice can be made before the policy has its say. -/
theorem filter_apply (policy : Policy) {p : Diagnostic → Bool}
    (hp : ∀ d, p (policy.regrade d) = p d) (ds : List Diagnostic) :
    (policy.apply ds).filter p = policy.apply (ds.filter p) := by
  unfold apply
  rw [List.filter_map, List.filter_filter, List.filter_filter]
  simp only [Function.comp_def, hp, Bool.and_comm]

theorem below_apply (policy : Policy) (n : Nat) (ds : List Diagnostic) :
    Diagnostic.below n (policy.apply ds) = policy.apply (Diagnostic.below n ds) :=
  policy.filter_apply (fun d => by rw [location_regrade]) ds

end Policy
end ModuleVisibility
