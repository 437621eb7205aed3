import ModuleVisibility.Composition.MemberTable
import ModuleVisibility.Proofs.Lookup

/-!
Tables in the order of their keys. Insertion, erasure and mapping keep the order, so a key has at
most one entry and walking a table meets exactly what lookups find.
-/
namespace ModuleVisibility

namespace MemberKey

theorem lt_iff (a b : MemberKey) :
    a.lt b = true ↔ a.kind.rank < b.kind.rank ∨ a.kind.rank = b.kind.rank ∧ a.name < b.name := by
  simp [lt]

theorem rank_injective {a b : MemberKind} (h : a.rank = b.rank) : a = b := by
  cases a <;> cases b <;> first | rfl | exact absurd h (by decide)

theorem not_lt_self (a : MemberKey) : ¬ a.lt a = true := by
  rw [lt_iff]
  rintro (h | ⟨_, h⟩)
  · exact Nat.lt_irrefl _ h
  · exact String.lt_irrefl _ h

theorem lt_trans {a b c : MemberKey} (hab : a.lt b = true) (hbc : b.lt c = true) :
    a.lt c = true := by
  rw [lt_iff] at *
  rcases hab with hab | ⟨hab, hname⟩
  · exact .inl (by omega)
  · rcases hbc with hbc | ⟨hbc, hname'⟩
    · exact .inl (by omega)
    · exact .inr ⟨hab.trans hbc, String.lt_trans hname hname'⟩

theorem lt_of_not_lt {a b : MemberKey} (hne : a ≠ b) (h : ¬ a.lt b = true) : b.lt a = true := by
  rw [lt_iff] at *
  rcases Nat.lt_trichotomy a.kind.rank b.kind.rank with hrank | hrank | hrank
  · exact absurd (.inl hrank) h
  · refine .inr ⟨hrank.symm, ?_⟩
    have hle : b.name ≤ a.name := String.not_lt.1 fun hlt => h (.inr ⟨hrank, hlt⟩)
    rcases Decidable.em (b.name < a.name) with hlt | hlt
    · exact hlt
    · obtain ⟨kind, name⟩ := a
      obtain ⟨kind', name'⟩ := b
      cases rank_injective hrank
      cases String.le_antisymm hle (String.not_lt.1 hlt)
      exact absurd rfl hne
  · exact .inl hrank

end MemberKey

namespace MemberTable

variable {α β γ : Type}

/-- The keys come in order, each once. -/
def Sorted (t : MemberTable α) : Prop := t.entries.Pairwise fun a b => a.1.lt b.1 = true

theorem sorted_empty : (empty : MemberTable α).Sorted := List.Pairwise.nil

theorem mem_insertEntry {key : MemberKey} {a : α} {entries : List (MemberKey × α)}
    {e : MemberKey × α} (h : e ∈ insertEntry key a entries) : e = (key, a) ∨ e ∈ entries := by
  induction entries with
  | nil => exact .inl (by simpa [insertEntry] using h)
  | cons head rest ih =>
    obtain ⟨other, b⟩ := head
    simp only [insertEntry] at h
    split at h
    · rcases List.mem_cons.1 h with h | h
      · exact .inl h
      · exact .inr (List.mem_cons_of_mem _ h)
    · split at h
      · rcases List.mem_cons.1 h with h | h
        · exact .inl h
        · exact .inr h
      · rcases List.mem_cons.1 h with h | h
        · exact .inr (h ▸ List.mem_cons_self)
        · exact (ih h).imp_right (List.mem_cons_of_mem _)

theorem sorted_insert {t : MemberTable α} (h : t.Sorted) (key : MemberKey) (a : α) :
    (t.insert key a).Sorted := by
  obtain ⟨entries⟩ := t
  simp only [Sorted, insert] at h ⊢
  induction entries with
  | nil => exact List.pairwise_singleton _ _
  | cons head rest ih =>
    obtain ⟨other, b⟩ := head
    obtain ⟨hhead, hrest⟩ := List.pairwise_cons.1 h
    simp only [insertEntry]
    split
    · next he =>
      subst he
      exact List.pairwise_cons.2 ⟨hhead, hrest⟩
    · split
      · next hlt =>
        refine List.pairwise_cons.2 ⟨fun e he => ?_, h⟩
        rcases List.mem_cons.1 he with rfl | he
        · exact hlt
        · exact MemberKey.lt_trans hlt (hhead e he)
      · next hne hlt =>
        refine List.pairwise_cons.2 ⟨fun e he => ?_, ih hrest⟩
        rcases mem_insertEntry he with rfl | he
        · exact MemberKey.lt_of_not_lt hne hlt
        · exact hhead e he

theorem sorted_erase {t : MemberTable α} (h : t.Sorted) (key : MemberKey) :
    (t.erase key).Sorted :=
  List.Pairwise.filter _ h

theorem sorted_map {t : MemberTable α} (h : t.Sorted) (f : α → β) : (t.map f).Sorted :=
  List.pairwise_map.2 h

theorem Sorted.nodup_keys {t : MemberTable α} (h : t.Sorted) : (t.entries.map Prod.fst).Nodup := by
  refine List.pairwise_map.2 (h.imp fun {a b} hlt heq => ?_)
  rw [heq] at hlt
  exact MemberKey.not_lt_self _ hlt

/-- In a sorted table the entries are what lookups find. -/
theorem mem_entries_iff {t : MemberTable α} (h : t.Sorted) {key : MemberKey} {a : α} :
    (key, a) ∈ t.entries ↔ t.get? key = some a :=
  (lookup_eq_some_iff_mem h.nodup_keys).symm

theorem get?_erase (t : MemberTable α) (key other : MemberKey) :
    (t.erase key).get? other = if other = key then none else t.get? other := by
  obtain ⟨entries⟩ := t
  simp only [erase, get?]
  induction entries with
  | nil => simp
  | cons head rest ih =>
    obtain ⟨k, b⟩ := head
    by_cases hk : k = key
    · subst hk
      rw [List.filter_cons_of_neg (by simp), ih]
      by_cases ho : other = k
      · simp [ho]
      · simp [ho, List.lookup_cons, beq_eq_false_iff_ne.2 ho]
    · rw [List.filter_cons_of_pos (by simpa using hk), List.lookup_cons, List.lookup_cons, ih]
      by_cases ho : other = k
      · subst ho
        simp [hk]
      · simp [beq_eq_false_iff_ne.2 ho]

@[simp] theorem get?_map (t : MemberTable α) (f : α → β) (key : MemberKey) :
    (t.map f).get? key = (t.get? key).map f :=
  lookup_map_value (fun _ => f) t.entries key

theorem map_map (f : α → β) (g : β → γ) (t : MemberTable α) :
    (t.map f).map g = t.map (g ∘ f) := by
  simp only [map, List.map_map, Function.comp_def]

theorem map_insert (f : α → β) (t : MemberTable α) (key : MemberKey) (a : α) :
    (t.insert key a).map f = (t.map f).insert key (f a) := by
  obtain ⟨entries⟩ := t
  simp only [insert, map]
  congr 1
  induction entries with
  | nil => rfl
  | cons head rest ih =>
    simp only [insertEntry, List.map_cons]
    split
    · rfl
    · split
      · rfl
      · rw [List.map_cons, ih]

theorem map_erase (f : α → β) (t : MemberTable α) (key : MemberKey) :
    (t.erase key).map f = (t.map f).erase key := by
  simp only [erase, map, List.filter_map]
  rfl

end MemberTable
end ModuleVisibility
