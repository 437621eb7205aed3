import ModuleVisibility.Proofs.Balance

/-!
Braces around a token. Most of what a unit consists of closes the braces that it opens: balanced
tokens do, and so does what is passed over, whatever is in it. An attribute list, type arguments and
a class whose body is given up may leave braces open.
-/
namespace ModuleVisibility

/-- The braces open behind the tokens, innermost first, where those of `stack` are open before. -/
def openBraces (stack : List Token) : List Token → List Token
  | [] => stack
  | t :: ts =>
    if t.isPunct '\x7b' then openBraces (t :: stack) ts
    else if t.isPunct '\x7d' then openBraces stack.tail ts
    else openBraces stack ts

section

variable {stack below ts : List Token} {t : Token}

theorem openBraces_append (stack as bs : List Token) :
    openBraces stack (as ++ bs) = openBraces (openBraces stack as) bs := by
  induction as generalizing stack with
  | nil => rfl
  | cons a as ih =>
    simp only [List.cons_append, openBraces]
    split
    · exact ih _
    split
    · exact ih _
    · exact ih _

theorem openBraces_open (h : t.isPunct '\x7b' = true) (stack ts : List Token) :
    openBraces stack (t :: ts) = openBraces (t :: stack) ts := by
  rw [openBraces, if_pos h]

theorem openBraces_close (h : t.isPunct '\x7d' = true) (stack ts : List Token) :
    openBraces stack (t :: ts) = openBraces stack.tail ts := by
  have hopen : ¬ t.isPunct '\x7b' = true := by
    simp_all [Token.isPunct]
  rw [openBraces, if_neg hopen, if_pos h]

theorem openBraces_other (hopen : ¬ t.isPunct '\x7b' = true) (hclose : ¬ t.isPunct '\x7d' = true)
    (stack ts : List Token) : openBraces stack (t :: ts) = openBraces stack ts := by
  rw [openBraces, if_neg hopen, if_neg hclose]

theorem openBraces_ident {t : Token} {name : String} (h : t.ident? = some name)
    (stack ts : List Token) :
    openBraces stack (t :: ts) = openBraces stack ts :=
  openBraces_other (Token.not_isPunct_of_ident? h _) (Token.not_isPunct_of_ident? h _) stack ts

/-- What is open before does not matter for what is opened later. -/
theorem exists_openBraces_append (stack below ts : List Token) :
    ∃ left, left <:+ below ∧ openBraces (stack ++ below) ts = openBraces stack ts ++ left := by
  induction ts generalizing stack below with
  | nil => exact ⟨below, List.suffix_rfl, rfl⟩
  | cons t ts ih =>
    unfold openBraces
    split
    · exact ih (t :: stack) below
    split
    · cases stack with
      | nil =>
        obtain ⟨left, hleft, heq⟩ := ih [] below.tail
        exact ⟨left, hleft.trans (List.tail_suffix below), heq⟩
      | cons b stack => exact ih stack below
    · exact ih stack below

theorem mem_openBraces {brace : Token} (h : brace ∈ openBraces stack ts) :
    brace ∈ openBraces [] ts ∨ brace ∈ stack := by
  obtain ⟨left, hleft, heq⟩ := exists_openBraces_append [] stack ts
  rw [List.nil_append] at heq
  rw [heq, List.mem_append] at h
  exact h.imp_right (hleft.subset ·)

theorem mem_of_mem_openBraces {brace : Token} (h : brace ∈ openBraces stack ts) :
    brace ∈ stack ∨ brace ∈ ts := by
  induction ts generalizing stack with
  | nil => exact .inl h
  | cons t ts ih =>
    unfold openBraces at h
    split at h
    · rcases ih h with hstack | hts
      · rcases List.mem_cons.1 hstack with rfl | hstack
        · exact .inr List.mem_cons_self
        · exact .inl hstack
      · exact .inr (List.mem_cons_of_mem _ hts)
    split at h
    · exact (ih h).imp List.mem_of_mem_tail (List.mem_cons_of_mem _)
    · exact (ih h).imp_right (List.mem_cons_of_mem _)

theorem openBraces_eq_nil_append {as bs : List Token} (ha : openBraces [] as = [])
    (hb : openBraces [] bs = []) : openBraces [] (as ++ bs) = [] := by
  rw [openBraces_append, ha, hb]

theorem openBraces_flatten {tss : List (List Token)} (h : ∀ ts ∈ tss, openBraces [] ts = []) :
    openBraces [] tss.flatten = [] := by
  induction tss with
  | nil => rfl
  | cons ts tss ih =>
    obtain ⟨hts, htss⟩ := List.forall_mem_cons.1 h
    exact openBraces_eq_nil_append hts (ih htss)

/-- Behind balanced tokens no brace is open. -/
theorem openBraces_eq_nil_of_balanced {d : Nat} (h : balanced d ts = true)
    (hstack : stack.length = d) :
    openBraces stack ts = [] := by
  induction ts generalizing d stack with
  | nil =>
    obtain rfl : d = 0 := beq_iff_eq.1 h
    exact List.length_eq_zero_iff.1 hstack
  | cons t ts ih =>
    by_cases hopen : t.isPunct '\x7b' = true
    · rw [balanced_open hopen] at h
      rw [openBraces_open hopen]
      exact ih h (by rw [List.length_cons, hstack])
    by_cases hclose : t.isPunct '\x7d' = true
    · rw [balanced_close hclose, Bool.and_eq_true] at h
      rw [openBraces_close hclose]
      exact ih h.2 (by rw [List.length_tail, hstack])
    · rw [balanced_other hopen hclose] at h
      rw [openBraces_other hopen hclose]
      exact ih h hstack

theorem openBraces_eq_nil_of_forall {ts : List Token} (h : ∀ t ∈ ts, ¬ t.isPunct '\x7b' = true) :
    openBraces [] ts = [] := by
  induction ts with
  | nil => rfl
  | cons t ts ih =>
    obtain ⟨ht, hts⟩ := List.forall_mem_cons.1 h
    rw [openBraces, if_neg ht, List.tail_nil, ite_self, ih hts]

end

/-! What is passed over. -/

/-- The tokens before `rest` close the braces that they open. -/
def Passes (ts rest : List Token) : Prop := ∃ taken, ts = taken ++ rest ∧ openBraces [] taken = []

/-- So do they, unless nothing is left. -/
def Clears (ts rest : List Token) : Prop := rest = [] ∨ Passes ts rest

section

variable {a b c ts : List Token} {t : Token}

theorem Passes.rfl : Passes ts ts := ⟨[], .refl _, .refl _⟩

theorem Passes.trans (hab : Passes a b) (hbc : Passes b c) : Passes a c := by
  obtain ⟨front, rfl, hfront⟩ := hab
  obtain ⟨back, rfl, hback⟩ := hbc
  exact ⟨front ++ back, (List.append_assoc ..).symm, openBraces_eq_nil_append hfront hback⟩

theorem Passes.cons (ht : ¬ t.isPunct '\x7b' = true) : Passes (t :: ts) ts := by
  refine ⟨[t], .refl _, ?_⟩
  simp [openBraces, ht]

theorem Balances.passes (h : Balances a b) : Passes a b := by
  obtain ⟨taken, hts, hbalanced⟩ := h
  exact ⟨taken, hts, openBraces_eq_nil_of_balanced hbalanced (.refl _)⟩

theorem Passes.clears (h : Passes a b) : Clears a b := .inr h

theorem Passes.openBraces_eq_nil {rest taken : List Token} (h : Passes ts rest)
    (hts : ts = taken ++ rest) : openBraces [] taken = [] := by
  obtain ⟨passed, hpassed, hclosed⟩ := h
  rwa [List.append_cancel_right (hpassed.symm.trans hts)] at hclosed

theorem Clears.trans (hab : Clears a b) (hbc : Clears b c) : Clears a c := by
  rcases hbc with hnone | hbc
  · exact .inl hnone
  rcases hab with rfl | hab
  · obtain ⟨taken, hb, _⟩ := hbc
    exact .inl (List.append_eq_nil_iff.1 hb.symm).2
  · exact .inr (hab.trans hbc)

end

namespace Reading

/-- Only a reading that runs out of tokens may leave a brace open. -/
theorem ReadsBalanced.clears {α : Type} {ts : List Token} {r : Reading α} (h : ReadsBalanced ts r) :
    Clears ts r.rest :=
  h.symm.imp (·.2) Balances.passes

variable (stop : Span) (ts : List Token)

theorem clears_skipStatement : Clears ts (skipStatement ts).rest := by
  fun_induction skipStatement ts with
  | case1 => exact .inl rfl
  | case2 t ts h => exact (Passes.cons (Token.not_isPunct_of_isPunct h (by decide))).clears
  | case3 t ts _ h => exact (readsBalanced_block ts h).clears
  | case4 t ts _ h ih => exact (Passes.cons h).clears.trans ih

/-- Where reading goes on, every brace opened since is closed. -/
theorem clears_resume : Clears ts (resume 0 ts) := by
  have hstack : ∀ (depth : Nat) (stack : List Token), stack.length = depth → resume depth ts = [] ∨
      ∃ taken, ts = taken ++ resume depth ts ∧ openBraces stack taken = [] := by
    intro depth stack hlength
    fun_induction resume depth ts generalizing stack with
    | case1 => exact .inl rfl
    | case2 depth t ts h ih =>
      refine (ih (t :: stack) (by rw [List.length_cons, hlength])).imp_right ?_
      rintro ⟨taken, hts, hclosed⟩
      exact ⟨t :: taken, by rw [List.cons_append, ← hts], by rwa [openBraces_open h]⟩
    | case3 depth t ts _ h ih =>
      refine (ih stack.tail (by rw [List.length_tail, hlength])).imp_right ?_
      rintro ⟨taken, hts, hclosed⟩
      exact ⟨t :: taken, by rw [List.cons_append, ← hts], by rwa [openBraces_close h]⟩
    | case4 depth t ts _ _ h =>
      have hdepth : depth = 0 := by simp_all
      exact .inr ⟨[], rfl, List.length_eq_zero_iff.1 (hlength.trans hdepth)⟩
    | case5 depth t ts hopen hclose _ ih =>
      refine (ih stack hlength).imp_right ?_
      rintro ⟨taken, hts, hclosed⟩
      exact ⟨t :: taken, by rw [List.cons_append, ← hts], by rwa [openBraces_other hopen hclose]⟩
  exact hstack 0 [] rfl

/-! Items of a class body. -/

/-- The item leaves a brace open: it is an attribute list, a `use` with type arguments, or its
brackets do not nest. -/
def LeaksItem (item : List Token) : Prop :=
  openBraces [] item ≠ [] ∧ ((∃ t later, item = t :: later ∧ (t.kind = .attrOpen ∨
    t.isWord "use" = true ∧ ∃ u ∈ later, u.isPunct '<' = true)) ∨ nests [] item = false)

/-- Some part of the tokens is an item that leaves a brace open. -/
def HasLeak (ts : List Token) : Prop :=
  ∃ front item back, ts = front ++ item ++ back ∧ LeaksItem item

theorem HasLeak.append {ts : List Token} (h : HasLeak ts) (front back : List Token) :
    HasLeak (front ++ ts ++ back) := by
  obtain ⟨before, item, behind, rfl, hitem⟩ := h
  exact ⟨front ++ before, item, behind ++ back, by simp, hitem⟩

/-- A block whose inside closes what it opens does, too. -/
theorem openBraces_enclosed {brace close : Token} {inside : List Token}
    (hbrace : brace.isPunct '\x7b' = true) (hclose : close.isPunct '\x7d' = true)
    (h : openBraces [] inside = []) : openBraces [] ([brace] ++ inside ++ [close]) = [] := by
  obtain ⟨left, hleft, heq⟩ := exists_openBraces_append [] [brace] inside
  rw [List.append_assoc, List.singleton_append, openBraces_open hbrace, openBraces_append,
    openBraces_close hclose]
  rw [h, List.nil_append, List.nil_append] at heq
  rw [heq, openBraces]
  rw [List.length_eq_zero_iff.symm, List.length_tail, Nat.sub_eq_zero_iff_le]
  exact hleft.length_le

theorem BreaksItem.leaksItem {item : List Token} (h : BreaksItem item)
    (hopen : openBraces [] item ≠ []) :
    LeaksItem item :=
  ⟨hopen, h.2⟩

theorem ClassCut.openBraces_tokens {cut : ClassCut}
    (h : ∀ item ∈ cut.items, openBraces [] item = []) :
    openBraces [] cut.tokens = [] := by
  have hheader : openBraces [] cut.header = [] := openBraces_eq_nil_of_forall fun t ht =>
    (cut.plain t ht).1
  rw [tokens, openBraces_append, hheader]
  exact openBraces_enclosed cut.opens cut.closes (openBraces_flatten h)

theorem ClassCut.openBraces_or_hasLeak (cut : ClassCut) :
    openBraces [] cut.tokens = [] ∨ HasLeak cut.tokens := by
  by_cases h : ∀ item ∈ cut.items, openBraces [] item = []
  · exact .inl (openBraces_tokens h)
  push Not at h
  obtain ⟨item, hmem, hitem⟩ := h
  obtain ⟨front, back, htokens⟩ := exists_append_of_mem hmem
  have hbreaks : BreaksItem item :=
    (cut.kept item hmem).resolve_left fun hbalanced =>
      hitem (openBraces_eq_nil_of_balanced hbalanced rfl)
  exact .inr ⟨front, item, back, htokens, hbreaks.leaksItem hitem⟩

end Reading

end ModuleVisibility
