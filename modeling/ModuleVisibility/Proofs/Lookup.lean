/-!
Association lists. Tables of symbols, use clauses and members are lists of pairs, and a lookup finds
the first pair of its key; where every key comes once it finds all there is.
-/
namespace ModuleVisibility

variable {α β γ : Type} [DecidableEq α]

theorem mem_of_lookup_eq_some {l : List (α × β)} {k : α} {v : β} (h : l.lookup k = some v) :
    (k, v) ∈ l := by
  obtain ⟨before, after, rfl, _⟩ := List.lookup_eq_some_iff.1 h
  simp

/-- Where keys are distinct, lookups find every pair. -/
theorem lookup_eq_some_iff_mem {l : List (α × β)} (h : (l.map Prod.fst).Nodup) {k : α} {v : β} :
    l.lookup k = some v ↔ (k, v) ∈ l := by
  induction l with
  | nil => simp
  | cons head rest ih =>
    obtain ⟨other, b⟩ := head
    obtain ⟨hhead, hrest⟩ := List.nodup_cons.1 h
    by_cases he : k = other
    · subst he
      have habsent : (k, v) ∉ rest := fun hmem => hhead (List.mem_map.2 ⟨(k, v), hmem, rfl⟩)
      simp [habsent, eq_comm]
    · rw [List.lookup_cons, beq_eq_false_iff_ne.2 he]
      simp [he, ih hrest]

/-- Rewriting the values, each by its key, rewrites what is found. -/
theorem lookup_map_value (f : α → β → γ) (l : List (α × β)) (k : α) :
    (l.map fun (other, b) => (other, f other b)).lookup k = (l.lookup k).map (f k) := by
  induction l with
  | nil => rfl
  | cons head rest ih =>
    obtain ⟨other, b⟩ := head
    rw [List.map_cons, List.lookup_cons, List.lookup_cons, ih]
    by_cases he : k = other
    · subst he
      simp
    · simp [beq_eq_false_iff_ne.2 he]

/-- A table made for some keys finds the value of each of these keys. -/
theorem lookup_filterMap_key (f : α → Option β) (keys : List α) (k : α) :
    (keys.filterMap fun key => (f key).map (key, ·)).lookup k = if k ∈ keys then f k else none := by
  induction keys with
  | nil => rfl
  | cons key rest ih =>
    cases hf : f key with
    | none =>
      rw [List.filterMap_cons_none (by simp [hf]), ih]
      by_cases he : k = key
      · subst he
        simp [hf]
      · simp [he]
    | some v =>
      rw [List.filterMap_cons_some (by simp [hf]; rfl), List.lookup_cons, ih]
      by_cases he : k = key
      · subst he
        simp [hf]
      · simp [he, beq_eq_false_iff_ne.2 he]

end ModuleVisibility
