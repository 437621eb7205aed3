import Mathlib.Data.List.Nodup
import Mathlib.Data.List.Perm.Basic
import ModuleVisibility.Program.Distinct

/-!
Lists without repetitions have the same keys as before, each once.
-/
namespace ModuleVisibility

variable {α β : Type} [DecidableEq β] {key : α → β}

theorem mem_of_mem_distinctBy {l : List α} {a : α} (h : a ∈ distinctBy key l) : a ∈ l := by
  induction l with
  | nil => cases h
  | cons head rest ih =>
    rcases List.mem_cons.1 h with rfl | hrest
    · exact List.mem_cons_self
    · exact List.mem_cons_of_mem _ (ih (List.mem_filter.1 hrest).1)

theorem exists_mem_distinctBy (key : α → β) {l : List α} {a : α} (h : a ∈ l) :
    ∃ b ∈ distinctBy key l, key b = key a := by
  induction l with
  | nil => cases h
  | cons head rest ih =>
    by_cases hkey : key head = key a
    · exact ⟨head, List.mem_cons_self, hkey⟩
    · rcases List.mem_cons.1 h with rfl | hrest
      · exact absurd rfl hkey
      · obtain ⟨b, hb, hba⟩ := ih hrest
        have hne : key b ≠ key head := fun heq => hkey (heq.symm.trans hba)
        exact ⟨b, List.mem_cons_of_mem _ (List.mem_filter.2 ⟨hb, decide_eq_true hne⟩), hba⟩

theorem nodup_distinctBy (key : α → β) (l : List α) : ((distinctBy key l).map key).Nodup := by
  induction l with
  | nil => exact List.nodup_nil
  | cons head rest ih =>
    refine List.nodup_cons.2 ⟨fun hmem => ?_, ih.sublist (List.filter_sublist.map _)⟩
    obtain ⟨b, hb, hkey⟩ := List.mem_map.1 hmem
    exact of_decide_eq_true (List.mem_filter.1 hb).2 hkey

theorem key_mem_distinctBy_iff {l : List α} {k : β} :
    k ∈ (distinctBy key l).map key ↔ k ∈ l.map key := by
  simp only [List.mem_map]
  constructor
  · rintro ⟨a, ha, rfl⟩
    exact ⟨a, mem_of_mem_distinctBy ha, rfl⟩
  · rintro ⟨a, ha, rfl⟩
    exact exists_mem_distinctBy key ha

/-- Of what comes behind a list, only new keys are kept. -/
theorem distinctBy_append (key : α → β) (l l' : List α) :
    distinctBy key (l ++ l') =
      distinctBy key l ++ (distinctBy key l').filter fun a => key a ∉ l.map key := by
  induction l with
  | nil => simp [distinctBy]
  | cons head rest ih =>
    simp only [List.cons_append, distinctBy, ih, List.filter_append, List.filter_filter]
    congr 2
    refine List.filter_congr fun a _ => ?_
    simp [not_or]

/-- What comes behind a list does not bear on what is kept, as far as its keys are known. -/
theorem filter_distinctBy_append_known {p : α → Bool} {l l' : List α}
    (hknown : ∀ a ∈ l', p a = true → key a ∈ l.map key) :
    (distinctBy key (l ++ l')).filter p = (distinctBy key l).filter p := by
  have hleft : ∀ a ∈ (distinctBy key l').filter fun a => key a ∉ l.map key, ¬ p a = true := by
    intro a ha hp
    obtain ⟨hmem, hnew⟩ := List.mem_filter.1 ha
    exact of_decide_eq_true hnew (hknown a (mem_of_mem_distinctBy hmem) hp)
  rw [distinctBy_append, List.filter_append, List.filter_eq_nil_iff.2 hleft, List.append_nil]

theorem filter_distinctBy_append {p : α → Bool} {l l' : List α} (hl : ∀ a ∈ l, p a = true)
    (hl' : ∀ a ∈ l', ¬ p a = true) : (distinctBy key (l ++ l')).filter p = distinctBy key l := by
  rw [filter_distinctBy_append_known fun a ha hp => absurd hp (hl' a ha)]
  exact List.filter_eq_self.2 fun a ha => hl a (mem_of_mem_distinctBy ha)

theorem distinctBy_concat (key : α → β) (l : List α) (a : α) :
    distinctBy key (l ++ [a]) =
      distinctBy key l ++ if key a ∈ l.map key then [] else [a] := by
  rw [distinctBy_append]
  congr 1
  by_cases h : key a ∈ l.map key
  · rw [if_pos h, List.filter_eq_nil_iff]
    intro b hb
    rw [List.mem_singleton.1 (mem_of_mem_distinctBy hb)]
    simpa using h
  · rw [if_neg h]
    exact List.filter_cons_of_pos (decide_eq_true h)

theorem distinctBy_eq_self {l : List α} (h : (l.map key).Nodup) : distinctBy key l = l := by
  induction l with
  | nil => rfl
  | cons head rest ih =>
    obtain ⟨hhead, hrest⟩ := List.nodup_cons.1 h
    rw [distinctBy, ih hrest, List.filter_eq_self.2]
    intro a ha
    exact decide_eq_true fun heq => hhead (heq ▸ List.mem_map_of_mem ha)

/-- What is kept under a key is the first element of that key. -/
theorem mem_distinctBy_iff_find? {l : List α} {a : α} :
    a ∈ distinctBy key l ↔ l.find? (key · == key a) = some a := by
  induction l with
  | nil => simp [distinctBy]
  | cons head rest ih =>
    rw [distinctBy, List.mem_cons, List.mem_filter, ih, List.find?_cons]
    by_cases h : key head = key a
    · simp [h, eq_comm]
    · have hne : a ≠ head := fun heq => h (congrArg key heq.symm)
      simp [beq_eq_false_iff_ne.2 h, hne, Ne.symm h]

/-- A change that keeps keys apart commutes with dropping repetitions. -/
theorem distinctBy_map {γ δ : Type} [DecidableEq δ] {key' : γ → δ} (f : α → γ) {l : List α}
    (hkey : ∀ a ∈ l, ∀ b ∈ l, key' (f a) = key' (f b) ↔ key a = key b) :
    distinctBy key' (l.map f) = (distinctBy key l).map f := by
  induction l with
  | nil => rfl
  | cons head rest ih =>
    have hrest : ∀ a ∈ rest, ∀ b ∈ rest, key' (f a) = key' (f b) ↔ key a = key b :=
      fun a ha b hb => hkey a (List.mem_cons_of_mem _ ha) b (List.mem_cons_of_mem _ hb)
    rw [List.map_cons, distinctBy, distinctBy, List.map_cons, ih hrest, List.filter_map]
    congr 2
    refine List.filter_congr fun a ha => ?_
    have hiff := hkey a (List.mem_cons_of_mem _ (mem_of_mem_distinctBy ha)) head List.mem_cons_self
    simp only [Function.comp_apply, ne_eq, hiff]

theorem distinctBy_congr {δ : Type} [DecidableEq δ] {key' : α → δ} {l : List α}
    (hkey : ∀ a ∈ l, ∀ b ∈ l, key' a = key' b ↔ key a = key b) :
    distinctBy key' l = distinctBy key l := by
  have hmap := distinctBy_map id hkey
  rwa [List.map_id, List.map_id] at hmap

/-- Where no two elements have the same key, all of them are kept. -/
theorem mem_distinctBy_iff {l : List α} (hkey : ∀ a ∈ l, ∀ b ∈ l, key a = key b → a = b) {a : α} :
    a ∈ distinctBy key l ↔ a ∈ l := by
  refine ⟨mem_of_mem_distinctBy, fun h => ?_⟩
  obtain ⟨b, hb, hsame⟩ := exists_mem_distinctBy key h
  rwa [← hkey b (mem_of_mem_distinctBy hb) a h hsame]

/-- Then another order, after a change of the elements that keeps keys apart, makes no
difference. -/
theorem perm_distinctBy {f : α → α} (hf : Function.Injective f)
    (hkeys : ∀ a b, key (f a) = key (f b) → key a = key b) {l l' : List α}
    (hperm : l'.Perm (l.map f)) (hkey : ∀ a ∈ l, ∀ b ∈ l, key a = key b → a = b) :
    (distinctBy key l').Perm ((distinctBy key l).map f) := by
  have hkey' : ∀ a ∈ l', ∀ b ∈ l', key a = key b → a = b := by
    intro a' ha' b' hb' hsame
    obtain ⟨a, ha, rfl⟩ := List.mem_map.1 (hperm.mem_iff.1 ha')
    obtain ⟨b, hb, rfl⟩ := List.mem_map.1 (hperm.mem_iff.1 hb')
    rw [hkey a ha b hb (hkeys a b hsame)]
  refine (List.perm_ext_iff_of_nodup (nodup_distinctBy key l').of_map
    ((nodup_distinctBy key l).of_map.map hf)).2 fun a' => ?_
  rw [mem_distinctBy_iff hkey', hperm.mem_iff, List.mem_map, List.mem_map]
  simp only [mem_distinctBy_iff hkey]

end ModuleVisibility
