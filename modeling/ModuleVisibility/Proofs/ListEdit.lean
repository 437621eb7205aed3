import Mathlib.Data.List.Basic
import ModuleVisibility.Program.NameMap

/-!
Lists in which one element is changed, left out or moved.
-/
namespace ModuleVisibility

variable {α β : Type} {l : List α} {index : Nat} {a : α}

/-! Changing one element. -/

theorem take_cons_drop (h : l[index]? = some a) :
    l = l.take index ++ a :: l.drop (index + 1) ∧
      ∀ f, l.modify index f = l.take index ++ f a :: l.drop (index + 1) := by
  obtain ⟨hlt, rfl⟩ := List.getElem?_eq_some_iff.1 h
  exact ⟨by simp, fun f => List.modify_eq_take_cons_drop hlt⟩

theorem zipIdx_modify (f : α → α) (l : List α) (index : Nat) :
    (l.modify index f).zipIdx = l.zipIdx.modify index fun (a, i) => (f a, i) := by
  refine List.ext_getElem? fun i => ?_
  rw [List.getElem?_zipIdx, List.getElem?_modify, List.getElem?_modify, List.getElem?_zipIdx]
  cases l[i]? with
  | none => rfl
  | some a => by_cases hi : index = i <;> simp [hi]

theorem modify_append_left (h : index < l.length) (f : α → α) (l' : List α) :
    (l ++ l').modify index f = l.modify index f ++ l' := by
  induction l generalizing index with
  | nil => cases h
  | cons a rest ih =>
    cases index with
    | zero => rfl
    | succ index => exact congrArg (a :: ·) (ih (Nat.lt_of_succ_lt_succ h))

theorem modify_append_length (l : List α) (f : α → α) (a : α) :
    (l ++ [a]).modify l.length f = l ++ [f a] := by
  induction l with
  | nil => rfl
  | cons b rest ih => exact congrArg (b :: ·) ih

/-! Leaving one element out. -/

theorem zip_eraseIdx (l : List α) (l' : List β) (index : Nat) :
    (l.eraseIdx index).zip (l'.eraseIdx index) = (l.zip l').eraseIdx index := by
  induction l generalizing l' index with
  | nil => simp
  | cons a rest ih =>
    cases l' with
    | nil => cases index <;> simp
    | cons b rest' =>
      cases index with
      | zero => rfl
      | succ index => exact congrArg ((a, b) :: ·) (ih rest' index)

/-- An element that a fold passes over may be left out. -/
theorem foldl_eraseIdx {f : β → α → β} (h : l[index]? = some a) (ha : ∀ b, f b a = b) (b : β) :
    (l.eraseIdx index).foldl f b = l.foldl f b := by
  rw [List.eraseIdx_eq_take_drop_succ]
  conv_rhs => rw [(take_cons_drop h).1]
  rw [List.foldl_append, List.foldl_append, List.foldl_cons, ha]

theorem mem_eraseIdx_iff {b : α} (h : l[index]? = some a) (hb : b ≠ a) :
    b ∈ l.eraseIdx index ↔ b ∈ l := by
  rw [List.eraseIdx_eq_take_drop_succ]
  conv_rhs => rw [(take_cons_drop h).1]
  simp [hb]

theorem find?_eraseIdx {p : α → Bool} (h : l[index]? = some a) (ha : ¬ p a = true) :
    (l.eraseIdx index).find? p = l.find? p := by
  rw [List.eraseIdx_eq_take_drop_succ]
  conv_rhs => rw [(take_cons_drop h).1]
  rw [List.find?_append, List.find?_append, List.find?_cons_of_neg ha]

/-! Exchanging two elements. -/

/-- The list with the elements at two places exchanged; if one of them is missing, the list
itself. -/
def swapAt (i j : Nat) (l : List α) : List α :=
  match l[i]?, l[j]? with
  | some a, some b => (l.set i b).set j a
  | _, _ => l

theorem perm_swapAt (i j : Nat) (l : List α) : (swapAt i j l).Perm l := by
  unfold swapAt
  split
  · next a b ha hb =>
    obtain ⟨hi, rfl⟩ := List.getElem?_eq_some_iff.1 ha
    obtain ⟨hj, rfl⟩ := List.getElem?_eq_some_iff.1 hb
    exact List.set_set_perm hi hj
  · exact .refl l

theorem swapAt_append (front middle back : List α) (a b : α) :
    swapAt front.length (front.length + (middle.length + 1)) (front ++ a :: (middle ++ b :: back)) =
      front ++ b :: (middle ++ a :: back) := by
  have ha : (front ++ a :: (middle ++ b :: back))[front.length]? = some a := by simp
  have hb : (front ++ a :: (middle ++ b :: back))[front.length + (middle.length + 1)]? =
      some b := by
    simp
  unfold swapAt
  rw [ha, hb]
  simp

/-- What stands before, between and behind the two places. -/
theorem exists_swapAt {i j : Nat} {a b : α} (ha : l[i]? = some a)
    (hb : l[j]? = some b) (hij : i < j) :
    ∃ front middle back, front.length = i ∧ j = i + (middle.length + 1) ∧
      l = front ++ a :: (middle ++ b :: back) ∧
        swapAt i j l = front ++ b :: (middle ++ a :: back) := by
  obtain ⟨n, rfl⟩ : ∃ n, j = i + (n + 1) := ⟨j - i - 1, by omega⟩
  have hi := (List.getElem?_eq_some_iff.1 ha).1
  have hj := (List.getElem?_eq_some_iff.1 hb).1
  have hrest : (l.drop (i + 1))[n]? = some b := by
    rw [List.getElem?_drop, ← hb]
    congr 1
    omega
  have hfront : (l.take i).length = i := List.length_take_of_le (Nat.le_of_lt hi)
  have hmiddle : ((l.drop (i + 1)).take n).length = n :=
    List.length_take_of_le (by rw [List.length_drop]; omega)
  have hl :
      l = l.take i ++ a :: ((l.drop (i + 1)).take n ++ b :: (l.drop (i + 1)).drop (n + 1)) := by
    rw [← (take_cons_drop hrest).1]
    exact (take_cons_drop ha).1
  have hswapped := swapAt_append (l.take i) ((l.drop (i + 1)).take n)
    ((l.drop (i + 1)).drop (n + 1)) a b
  rw [hfront, hmiddle, ← hl] at hswapped
  exact ⟨_, _, _, hfront, by rw [hmiddle], hl, hswapped⟩

/-- Where all other elements are left out, exchanging the two leaves them in the other order. -/
theorem filterMap_swapAt {i j : Nat} {a b : α} {f : α → Option β} {fa fb : β}
    (ha : l[i]? = some a) (hb : l[j]? = some b) (hij : i < j) (hfa : f a = some fa)
    (hfb : f b = some fb) (hothers : ∀ k e, l[k]? = some e → k ≠ i → k ≠ j → f e = none) :
    l.filterMap f = [fa, fb] ∧ (swapAt i j l).filterMap f = [fb, fa] := by
  obtain ⟨front, middle, back, rfl, rfl, hl, hswapped⟩ := exists_swapAt ha hb hij
  have hnone : ∀ (part : List α) (start : Nat),
      (∀ k e, part[k]? = some e → l[start + k]? = some e ∧ start + k ≠ front.length ∧
        start + k ≠ front.length + (middle.length + 1)) → part.filterMap f = [] := by
    intro part start hpart
    refine List.filterMap_eq_nil_iff.2 fun e he => ?_
    obtain ⟨k, hk⟩ := List.mem_iff_getElem?.1 he
    obtain ⟨hget, hi, hj⟩ := hpart k e hk
    exact hothers _ e hget hi hj
  have hfront := hnone front 0 fun k e hk => by
    have hlt := (List.getElem?_eq_some_iff.1 hk).1
    rw [Nat.zero_add, hl, List.getElem?_append_left hlt]
    exact ⟨hk, by omega, by omega⟩
  have hmiddle := hnone middle (front.length + 1) fun k e hk => by
    have hlt := (List.getElem?_eq_some_iff.1 hk).1
    rw [hl, Nat.add_assoc, List.getElem?_append_right (by omega), Nat.add_sub_cancel_left,
      Nat.add_comm 1, List.getElem?_cons_succ, List.getElem?_append_left hlt]
    exact ⟨hk, by omega, by omega⟩
  have hback := hnone back (front.length + (middle.length + 2)) fun k e hk => by
    rw [hl, Nat.add_assoc, List.getElem?_append_right (by omega), Nat.add_sub_cancel_left,
      show middle.length + 2 + k = middle.length + (k + 1) + 1 by omega, List.getElem?_cons_succ,
      List.getElem?_append_right (by omega), Nat.add_sub_cancel_left, List.getElem?_cons_succ]
    exact ⟨hk, by omega, by omega⟩
  have hpieces : ∀ a b fa fb, f a = some fa → f b = some fb →
      (front ++ a :: (middle ++ b :: back)).filterMap f = [fa, fb] := by
    intro a b fa fb hfa hfb
    rw [List.filterMap_append, hfront, List.nil_append, List.filterMap_cons_some hfa,
      List.filterMap_append, hmiddle, List.nil_append, List.filterMap_cons_some hfb, hback]
  exact ⟨(congrArg _ hl).trans (hpieces a b fa fb hfa hfb),
    (congrArg _ hswapped).trans (hpieces b a fb fa hfb hfa)⟩

end ModuleVisibility
