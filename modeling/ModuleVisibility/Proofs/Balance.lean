import ModuleVisibility.Proofs.Reading

/-!
Braces in what a construct takes. If the construct can be read, its tokens close the braces that
they open and no others. Signatures and member statements do so if their brackets nest. An attribute
list and type arguments may hold any braces, so may a statement that is passed over, or one of
constants, whose end is missing.
-/
namespace ModuleVisibility

/-- Whether every brace is closed, where `depth` are open, and no other is. -/
def balanced (depth : Nat) : List Token → Bool
  | [] => depth == 0
  | t :: ts =>
    if t.isPunct '\x7b' then balanced (depth + 1) ts
    else if t.isPunct '\x7d' then depth != 0 && balanced (depth - 1) ts
    else balanced depth ts

/-- Whether no bracket is closed by one of another kind, braces apart from all others. The brackets
open before are told by `stack`, innermost first: true for a brace. -/
def nests : List Bool → List Token → Bool
  | _, [] => true
  | stack, t :: ts =>
    if Reading.opensBracket t then nests (false :: stack) ts
    else if t.isPunct '\x7b' then nests (true :: stack) ts
    else if Reading.closesBracket t then stack.head? != some true && nests stack.tail ts
    else if t.isPunct '\x7d' then stack.head? != some false && nests stack.tail ts
    else nests stack ts

theorem Token.not_isPunct_of_ident? {t : Token} {name : String}
    (h : t.ident? = some name) (c : Char) :
    ¬ t.isPunct c = true := by
  intro hpunct
  rw [Token.isPunct, beq_iff_eq] at hpunct
  rw [Token.ident?, hpunct] at h
  cases h

theorem Token.not_isPunct_of_isPunct {t : Token} {c d : Char}
    (h : t.isPunct c = true) (hne : c ≠ d) :
    ¬ t.isPunct d = true := by
  rw [Token.isPunct, beq_iff_eq] at h ⊢
  rw [h]
  simpa using hne

section

variable {as bs ts inside behind : List Token} {t : Token} {d e : Nat}

theorem balanced_open (h : t.isPunct '\x7b' = true) (d : Nat) (ts : List Token) :
    balanced d (t :: ts) = balanced (d + 1) ts := by
  rw [balanced, if_pos h]

theorem balanced_close (h : t.isPunct '\x7d' = true) (d : Nat) (ts : List Token) :
    balanced d (t :: ts) = (d != 0 && balanced (d - 1) ts) := by
  rw [balanced, if_neg (Token.not_isPunct_of_isPunct h (by decide)), if_pos h]

theorem balanced_other (hopen : ¬ t.isPunct '\x7b' = true)
    (hclose : ¬ t.isPunct '\x7d' = true) (d : Nat)
    (ts : List Token) : balanced d (t :: ts) = balanced d ts := by
  rw [balanced, if_neg hopen, if_neg hclose]

theorem balanced_ident {name : String} (h : t.ident? = some name) (d : Nat) (ts : List Token) :
    balanced d (t :: ts) = balanced d ts :=
  balanced_other (Token.not_isPunct_of_ident? h _) (Token.not_isPunct_of_ident? h _) d ts

/-- Behind balanced tokens, what was open before them is open. -/
theorem balanced_append (h : balanced e as = true) (d : Nat) (bs : List Token) :
    balanced (d + e) (as ++ bs) = balanced d bs := by
  induction as generalizing e with
  | nil =>
    obtain rfl : e = 0 := beq_iff_eq.1 h
    rfl
  | cons a as ih =>
    rw [List.cons_append]
    by_cases hopen : a.isPunct '\x7b' = true
    · rw [balanced_open hopen] at h ⊢
      exact ih h
    by_cases hclose : a.isPunct '\x7d' = true
    · rw [balanced_close hclose, Bool.and_eq_true, bne_iff_ne] at h
      obtain ⟨e, rfl⟩ := Nat.exists_eq_succ_of_ne_zero h.1
      rw [balanced_close hclose]
      exact (Bool.true_and _).trans (ih h.2)
    · rw [balanced_other hopen hclose] at h ⊢
      exact ih h

theorem balanced_flatten {tss : List (List Token)} (h : ∀ ts ∈ tss, balanced 0 ts = true) :
    balanced 0 tss.flatten = true := by
  induction tss with
  | nil => rfl
  | cons ts tss ih =>
    obtain ⟨hts, htss⟩ := List.forall_mem_cons.1 h
    exact (balanced_append hts 0 tss.flatten).trans (ih htss)

theorem balanced_plain (h : ∀ t ∈ as, (¬ t.isPunct '\x7b' = true) ∧
      ¬ t.isPunct '\x7d' = true) (d : Nat)
    (bs : List Token) : balanced d (as ++ bs) = balanced d bs := by
  induction as with
  | nil => rfl
  | cons a as ih =>
    obtain ⟨⟨hopen, hclose⟩, has⟩ := List.forall_mem_cons.1 h
    rw [List.cons_append, balanced_other hopen hclose, ih has]

/-- Tokens that reach past the end of a block close a brace that they did not open. -/
theorem balanced_past (h : balanced d inside = true)
    (hclose : t.isPunct '\x7d' = true) (hle : e ≤ d)
    (more : List Token) : balanced e (inside ++ t :: more) = false := by
  induction inside generalizing d e with
  | nil =>
    obtain rfl : d = 0 := beq_iff_eq.1 h
    obtain rfl : e = 0 := Nat.le_zero.1 hle
    rw [List.nil_append, balanced_close hclose]
    rfl
  | cons a inside ih =>
    rw [List.cons_append]
    by_cases hopen : a.isPunct '\x7b' = true
    · rw [balanced_open hopen] at h ⊢
      exact ih h (Nat.succ_le_succ hle)
    by_cases hback : a.isPunct '\x7d' = true
    · rw [balanced_close hback, Bool.and_eq_true] at h
      rw [balanced_close hback, ih h.2 (Nat.sub_le_sub_right hle 1), Bool.and_false]
    · rw [balanced_other hopen hback] at h ⊢
      exact ih h hle

/-- What does not reach past the end of a block ends inside it. -/
theorem exists_of_append_cons {taken rest : List Token}
    (hts : inside ++ t :: behind = taken ++ rest)
    (hends : ∀ more, taken ≠ inside ++ t :: more) :
    ∃ later, inside = taken ++ later ∧ rest = later ++ t :: behind := by
  rcases List.append_eq_append_iff.1 hts with ⟨more, rfl, hrest⟩ | ⟨later, rfl, hrest⟩
  · cases more with
    | nil => exact ⟨[], by simp, hrest.symm⟩
    | cons first more =>
      obtain ⟨rfl, -⟩ := List.cons.inj hrest
      exact absurd rfl (hends more)
  · exact ⟨later, rfl, hrest⟩

/-- Balanced tokens in a block end inside it. -/
theorem exists_of_balanced (hinside : balanced d inside = true) (hclose : t.isPunct '\x7d' = true)
    {taken rest : List Token} (hts : inside ++ t :: behind = taken ++ rest)
    (htaken : balanced 0 taken = true) :
    ∃ later, inside = taken ++ later ∧ rest = later ++ t :: behind ∧ balanced d later = true := by
  obtain ⟨later, rfl, hrest⟩ := exists_of_append_cons hts fun more heq => by
    rw [heq, balanced_past hinside hclose (Nat.zero_le d) more] at htaken
    cases htaken
  exact ⟨later, rfl, hrest, (balanced_append htaken d later).symm.trans hinside⟩

end

/-- The tokens before `rest` are balanced. -/
def Balances (ts rest : List Token) : Prop := ∃ taken, ts = taken ++ rest ∧ balanced 0 taken = true

section

variable {a b c ts : List Token} {t : Token}

theorem Balances.rfl : Balances ts ts := ⟨[], .refl _, .refl _⟩

theorem Balances.trans (hab : Balances a b) (hbc : Balances b c) : Balances a c := by
  obtain ⟨front, rfl, hfront⟩ := hab
  obtain ⟨back, rfl, hback⟩ := hbc
  exact ⟨front ++ back, (List.append_assoc ..).symm, by rw [← hback,
    ← balanced_append hfront 0 back]⟩

theorem Balances.cons (hopen : ¬ t.isPunct '\x7b' = true) (hclose : ¬ t.isPunct '\x7d' = true) :
    Balances (t :: ts) ts :=
  ⟨[t], .refl _, balanced_other hopen hclose 0 []⟩

theorem Balances.ident {name : String} (h : t.ident? = some name) : Balances (t :: ts) ts :=
  .cons (Token.not_isPunct_of_ident? h _) (Token.not_isPunct_of_ident? h _)

theorem Balances.punct {c : Char} (h : t.isPunct c = true) (hopen : c ≠ '\x7b')
    (hclose : c ≠ '\x7d') :
    Balances (t :: ts) ts :=
  .cons (Token.not_isPunct_of_isPunct h hopen) (Token.not_isPunct_of_isPunct h hclose)

theorem Balances.balanced {rest taken : List Token} (h : Balances ts rest)
    (hts : ts = taken ++ rest) :
    balanced 0 taken = true := by
  obtain ⟨passed, hpassed, hclosed⟩ := h
  rwa [List.append_cancel_right (hpassed.symm.trans hts)] at hclosed

end

/-! Nested brackets. -/

theorem nests_of_append {stack : List Bool} {as bs : List Token}
    (h : nests stack (as ++ bs) = true) :
    nests stack as = true := by
  induction as generalizing stack with
  | nil => rfl
  | cons a as ih =>
    rw [List.cons_append] at h
    unfold nests at h ⊢
    split
    · exact ih (by simpa [*] using h)
    split
    · exact ih (by simpa [*] using h)
    split
    · simp_all
    split
    · simp_all
    · exact ih (by simpa [*] using h)

namespace Reading

theorem nests_ident {t : Token} {name : String} (h : t.ident? = some name) (kinds : List Bool)
    (ts : List Token) : nests kinds (t :: ts) = nests kinds ts := by
  have hne : ∀ c, ¬ t.isPunct c = true := Token.not_isPunct_of_ident? h
  simp [nests, opensBracket, closesBracket, hne]

theorem exists_cons_of_append {t : Token} {ts taken rest : List Token} (h : t :: ts = taken ++ rest)
    (hle : rest.length ≤ ts.length) : ∃ later, taken = t :: later ∧ ts = later ++ rest := by
  rcases List.cons_eq_append_iff.1 h with ⟨rfl, rfl⟩ | ⟨later, htaken, hts⟩
  · exact absurd hle (by simp)
  · exact ⟨later, htaken, hts⟩

theorem opensBracket_ne {t : Token} (h : opensBracket t = true) :
    (¬ t.isPunct '\x7b' = true) ∧ ¬ t.isPunct '\x7d' = true := by
  rcases Bool.or_eq_true_iff.1 h with h | h <;>
    exact ⟨Token.not_isPunct_of_isPunct h (by decide), Token.not_isPunct_of_isPunct h (by decide)⟩

theorem closesBracket_ne {t : Token} (h : closesBracket t = true) :
    (¬ t.isPunct '\x7b' = true) ∧ ¬ t.isPunct '\x7d' = true := by
  rcases Bool.or_eq_true_iff.1 h with h | h <;>
    exact ⟨Token.not_isPunct_of_isPunct h (by decide), Token.not_isPunct_of_isPunct h (by decide)⟩

/-- The outermost bracket, if any, is no brace. -/
def Grounded (kinds : List Bool) : Prop := kinds = [] ∨ ∃ inner, kinds = inner ++ [false]

theorem Grounded.cons {kinds : List Bool} {kind : Bool} (h : Grounded kinds)
    (hkind : kinds = [] → kind = false) : Grounded (kind :: kinds) := by
  rcases h with rfl | ⟨inner, rfl⟩
  · exact .inr ⟨[], by rw [hkind rfl]; rfl⟩
  · exact .inr ⟨kind :: inner, rfl⟩

theorem Grounded.tail {kinds : List Bool} (h : Grounded kinds) : Grounded kinds.tail := by
  rcases h with rfl | ⟨_ | ⟨kind, inner⟩, rfl⟩
  · exact .inl rfl
  · exact .inl rfl
  · exact .inr ⟨inner, rfl⟩

theorem Grounded.eq_nil {kinds : List Bool} (h : Grounded kinds) (hcount : kinds.count false = 0) :
    kinds = [] := by
  rcases h with rfl | ⟨inner, rfl⟩
  · rfl
  · simp at hcount

theorem count_tail {kinds : List Bool} (kind : Bool) (h : kinds.head? ≠ some (!kind)) :
    kinds.tail.count kind = kinds.count kind - 1 ∧
      kinds.tail.count (!kind) = kinds.count (!kind) := by
  cases kinds with
  | nil => exact ⟨rfl, rfl⟩
  | cons k kinds =>
    have hk : k = kind := by simpa using h
    subst hk
    simp

/-- The brackets that are open behind a token, innermost first. -/
def openBehind (kinds : List Bool) (t : Token) : List Bool :=
  if opensBracket t then false :: kinds
  else if t.isPunct '\x7b' then true :: kinds
  else if closesBracket t || t.isPunct '\x7d' then kinds.tail
  else kinds

section

variable {kinds : List Bool} {t : Token} {ts : List Token}

theorem openBehind_of_opensBracket (h : opensBracket t = true) :
    openBehind kinds t = false :: kinds := if_pos h

theorem openBehind_of_open (h : t.isPunct '\x7b' = true) : openBehind kinds t = true :: kinds := by
  have hbracket : ¬ opensBracket t = true := fun hopens => (opensBracket_ne hopens).1 h
  rw [openBehind, if_neg hbracket, if_pos h]

theorem openBehind_of_closesBracket (hopens : ¬ opensBracket t = true)
    (h : closesBracket t = true) : openBehind kinds t = kinds.tail := by
  rw [openBehind, if_neg hopens, if_neg (closesBracket_ne h).1, h, Bool.true_or, if_pos rfl]

theorem openBehind_of_close (hopens : ¬ opensBracket t = true) (h : t.isPunct '\x7d' = true) :
    openBehind kinds t = kinds.tail := by
  have hopen : ¬ t.isPunct '\x7b' = true := Token.not_isPunct_of_isPunct h (by decide)
  rw [openBehind, if_neg hopens, if_neg hopen, h, Bool.or_true, if_pos rfl]

theorem openBehind_of_other (hopens : ¬ opensBracket t = true) (hopen : ¬ t.isPunct '\x7b' = true)
    (hcloses : ¬ closesBracket t = true) (hclose : ¬ t.isPunct '\x7d' = true) :
    openBehind kinds t = kinds := by
  have hneither : ¬ (closesBracket t || t.isPunct '\x7d') = true := by
    rw [Bool.or_eq_true, not_or]
    exact ⟨hcloses, hclose⟩
  rw [openBehind, if_neg hopens, if_neg hopen, if_neg hneither]

/-- A bracket closes one of its own kind. -/
theorem head?_of_closesBracket (hnests : nests kinds (t :: ts) = true)
    (hopens : ¬ opensBracket t = true) (h : closesBracket t = true) :
    kinds.head? ≠ some true := by
  rw [nests, if_neg hopens, if_neg (closesBracket_ne h).1, if_pos h, Bool.and_eq_true,
    bne_iff_ne] at hnests
  exact hnests.1

theorem head?_of_close (hnests : nests kinds (t :: ts) = true) (hopens : ¬ opensBracket t = true)
    (h : t.isPunct '\x7d' = true) : kinds.head? ≠ some false := by
  have hopen : ¬ t.isPunct '\x7b' = true := Token.not_isPunct_of_isPunct h (by decide)
  have hcloses : ¬ closesBracket t = true := fun hcloses => (closesBracket_ne hcloses).2 h
  rw [nests, if_neg hopens, if_neg hopen, if_neg hcloses, if_pos h, Bool.and_eq_true,
    bne_iff_ne] at hnests
  exact hnests.1

theorem nests_openBehind (h : nests kinds (t :: ts) = true) :
    nests (openBehind kinds t) ts = true := by
  unfold nests at h
  unfold openBehind
  split_ifs at h ⊢ <;> simp_all

/-- One token keeps braces balanced: it closes none but an open one. -/
theorem balanced_of_openBehind (hnests : nests kinds (t :: ts) = true)
    (hinside : t.isPunct '\x7d' = true → kinds ≠ [])
    (h : balanced ((openBehind kinds t).count true) ts = true) :
    balanced (kinds.count true) (t :: ts) = true := by
  by_cases hopens : opensBracket t = true
  · rw [openBehind_of_opensBracket hopens] at h
    rwa [balanced_other (opensBracket_ne hopens).1 (opensBracket_ne hopens).2]
  by_cases hopen : t.isPunct '\x7b' = true
  · rw [openBehind_of_open hopen, List.count_cons_self] at h
    rwa [balanced_open hopen]
  by_cases hcloses : closesBracket t = true
  · have hcount : kinds.tail.count true = kinds.count true :=
      (count_tail false (head?_of_closesBracket hnests hopens hcloses)).2
    rw [openBehind_of_closesBracket hopens hcloses, hcount] at h
    rwa [balanced_other hopen (closesBracket_ne hcloses).2]
  by_cases hclose : t.isPunct '\x7d' = true
  · have hhead := head?_of_close hnests hopens hclose
    obtain ⟨kind, inner, rfl⟩ := List.exists_cons_of_ne_nil (hinside hclose)
    obtain rfl : kind = true := by simpa using hhead
    rw [openBehind_of_close hopens hclose, List.tail_cons] at h
    rw [balanced_close hclose, List.count_cons_self, Nat.add_sub_cancel, h]
    rfl
  · rw [openBehind_of_other hopens hopen hcloses hclose] at h
    rwa [balanced_other hopen hclose]

/-- Where no bracket opens or closes, as many are open behind the token as before it. -/
theorem count_false_openBehind (hnests : nests kinds (t :: ts) = true)
    (hopens : ¬ opensBracket t = true) (hcloses : ¬ closesBracket t = true) :
    (openBehind kinds t).count false = kinds.count false := by
  by_cases hopen : t.isPunct '\x7b' = true
  · simp [openBehind_of_open hopen]
  by_cases hclose : t.isPunct '\x7d' = true
  · rw [openBehind_of_close hopens hclose]
    exact (count_tail true (head?_of_close hnests hopens hclose)).2
  · rw [openBehind_of_other hopens hopen hcloses hclose]

theorem Grounded.openBehind (h : Grounded kinds) (hopen : t.isPunct '\x7b' = true → kinds ≠ []) :
    Grounded (openBehind kinds t) := by
  unfold Reading.openBehind
  split_ifs with h₁ h₂
  · exact h.cons fun _ => rfl
  · exact h.cons fun hnil => absurd hnil (hopen h₂)
  · exact h.tail
  · exact h

end

/-! Readers. -/

/-- The reading fails, and nothing is left. -/
def RunsOut {α : Type} (r : Reading α) : Prop := r.value? = none ∧ r.rest = []

theorem not_runsOut {α : Type} {r : Reading α} {a : α} (h : r.value? = some a) : ¬ r.RunsOut := by
  rintro ⟨hnone, -⟩
  rw [h] at hnone
  cases hnone

/-- The reading takes balanced tokens, unless it runs out of them. -/
def ReadsBalanced {α : Type} (ts : List Token) (r : Reading α) : Prop :=
  Balances ts r.rest ∨ r.RunsOut

section

variable {α β : Type} {ts : List Token} {r : Reading α}

theorem ReadsBalanced.of_balances (h : Balances ts r.rest) : ReadsBalanced ts r := .inl h

theorem ReadsBalanced.balances {a : α} (h : ReadsBalanced ts r) (ha : r.value? = some a) :
    Balances ts r.rest :=
  h.resolve_right (not_runsOut ha)

theorem ReadsBalanced.behind {before : List Token} (h : ReadsBalanced ts r)
    (hbefore : Balances before ts) :
    ReadsBalanced before r :=
  h.imp_left hbefore.trans

theorem ReadsBalanced.map (h : ReadsBalanced ts r) (f : α → β) : ReadsBalanced ts (r.map f) :=
  h.imp_right fun hnone => ⟨Option.map_eq_none_iff.2 hnone.1, hnone.2⟩

theorem ReadsBalanced.andThen {next : α → List Token → Reading β} (hr : ReadsBalanced ts r)
    (hnext : ∀ a, ReadsBalanced r.rest (next a r.rest)) : ReadsBalanced ts (r.andThen next) := by
  cases hvalue : r.value? with
  | none =>
    rw [andThen_of_none _ hvalue]
    exact hr.imp_right fun hnone => ⟨rfl, hnone.2⟩
  | some a =>
    rw [andThen_of_some _ hvalue]
    exact (hnext a).behind (hr.balances hvalue)

end

variable (stop : Span) (ts : List Token)

theorem exists_of_expectName {role : NameRole} {ts : List Token} {name : String} {span : Span}
    (h : (expectName stop role ts).value? = some (name, span)) :
    ∃ t, t.ident? = some name ∧ t.span = span ∧ ts = t :: (expectName stop role ts).rest := by
  cases ts with
  | nil => cases h
  | cons t ts =>
    cases hname : t.ident? with
    | none =>
      simp only [expectName, hname] at h
      cases h
    | some name =>
      simp only [expectName, hname] at h ⊢
      cases h
      exact ⟨t, hname, rfl, rfl⟩

theorem readsBalanced_expectName (role : NameRole) :
    ReadsBalanced ts (expectName stop role ts) := by
  unfold expectName
  split
  · exact .of_balances .rfl
  · split
    · next h => exact .of_balances (.ident h)
    · exact .of_balances .rfl

theorem readsBalanced_moduleSegments (name : String) (span : Span) :
    ReadsBalanced ts (moduleSegments stop name span ts) := by
  fun_induction moduleSegments stop name span ts with
  | case1 | case3 | case6 => exact .of_balances .rfl
  | case2 _ _ dot hdot => exact .of_balances (.punct hdot (by decide) (by decide))
  | case4 _ _ dot t ts hdot part hpart ih =>
    exact ih.behind ((Balances.punct hdot (by decide) (by decide)).trans (.ident hpart))
  | case5 _ _ dot t ts hdot => exact .of_balances (.punct hdot (by decide) (by decide))

theorem readsBalanced_moduleName : ReadsBalanced ts (moduleName stop ts) :=
  (readsBalanced_expectName stop ts .moduleName).andThen fun (name, span) =>
    readsBalanced_moduleSegments stop _ name span

theorem readsBalanced_directiveEnd (mention : ModuleMention) :
    ReadsBalanced ts (directiveEnd stop mention ts) := by
  unfold directiveEnd
  split
  · exact .of_balances .rfl
  · split
    · next h => exact .of_balances (.punct h (by decide) (by decide))
    · exact .of_balances .rfl

theorem readsBalanced_moduleDirective : ReadsBalanced ts (moduleDirective stop ts) :=
  (readsBalanced_moduleName stop ts).andThen fun (name, span) =>
    readsBalanced_directiveEnd stop _ ⟨name, span⟩

theorem balanced_splitBlock {depth : Nat} {ts inside rest : List Token}
    (h : splitBlock? depth ts = some (inside, rest)) :
    ∃ close, ts = inside ++ close :: rest ∧ balanced (depth + 1) (inside ++ [close]) = true := by
  fun_induction splitBlock? depth ts generalizing inside rest with
  | case1 => cases h
  | case2 t ts ht =>
    cases h
    exact ⟨t, .refl _, by rw [List.nil_append, balanced_close ht]; rfl⟩
  | case3 t ts ht depth ih =>
    obtain ⟨⟨i, r⟩, hsplit, heq⟩ := Option.map_eq_some_iff.1 h
    cases heq
    obtain ⟨close, rfl, hclosed⟩ := ih hsplit
    exact ⟨close, .refl _, by rw [List.cons_append, balanced_close ht,
      Nat.add_sub_cancel, hclosed]; rfl⟩
  | case4 depth t ts ht ih =>
    obtain ⟨⟨i, r⟩, hsplit, heq⟩ := Option.map_eq_some_iff.1 h
    cases heq
    by_cases hopen : t.isPunct '\x7b' = true
    · obtain ⟨close, rfl, hclosed⟩ := ih hsplit
      rw [if_pos hopen] at hclosed
      exact ⟨close, .refl _, by rw [List.cons_append, balanced_open hopen, hclosed]⟩
    · obtain ⟨close, rfl, hclosed⟩ := ih hsplit
      rw [if_neg hopen] at hclosed
      exact ⟨close, .refl _, by rw [List.cons_append, balanced_other hopen ht, hclosed]⟩

theorem readsBalanced_block {brace : Token} (h : brace.isPunct '\x7b' = true) :
    ReadsBalanced (brace :: ts) (block brace ts) := by
  unfold block
  split
  · next inside rest hsplit =>
    obtain ⟨close, rfl, hclosed⟩ := balanced_splitBlock hsplit
    refine .of_balances ⟨brace :: inside ++ [close], by simp, ?_⟩
    rwa [List.cons_append, balanced_open h]
  · exact .inr ⟨rfl, rfl⟩

theorem readsBalanced_definitionBlock (mention : ModuleMention) :
    ReadsBalanced ts (definitionBlock stop mention ts) := by
  unfold definitionBlock
  split
  · exact .inr ⟨rfl, rfl⟩
  · split
    · next h => exact (readsBalanced_block _ h).map _
    · exact .of_balances .rfl

theorem readsBalanced_moduleDefinition : ReadsBalanced ts (moduleDefinition stop ts) :=
  (readsBalanced_moduleName stop ts).andThen fun (name, span) =>
    readsBalanced_definitionBlock stop _ ⟨name, span⟩

/-! Readers whose brackets must nest. -/

theorem balanced_signature {kinds : List Bool} {ts taken : List Token} {depth : Nat}
    (hread : ¬ (signature stop depth ts).RunsOut) (hdepth : depth = kinds.count false)
    (hground : Grounded kinds) (hts : ts = taken ++ (signature stop depth ts).rest)
    (hnests : nests kinds taken = true) : balanced (kinds.count true) taken = true := by
  have hnone : ∀ {kinds : List Bool}, Grounded kinds → 0 = kinds.count false → kinds = [] :=
    fun hground hcount => hground.eq_nil hcount.symm
  fun_induction signature stop depth ts generalizing kinds taken with
  | case1 => exact absurd ⟨rfl, rfl⟩ hread
  | case2 depth t ts h ih =>
    obtain ⟨later, rfl, hlater⟩ := exists_cons_of_append hts (signature_rest_le ..)
    have hcount : depth + 1 = (openBehind kinds t).count false := by
      rw [openBehind_of_opensBracket h, List.count_cons_self, hdepth]
    have hbehind := hground.openBehind fun hopen => absurd hopen (opensBracket_ne h).1
    exact balanced_of_openBehind hnests (fun hclose => absurd hclose (opensBracket_ne h).2)
      (ih hread hcount hbehind hlater (nests_openBehind hnests))
  | case3 depth t ts h₁ h ih =>
    obtain ⟨later, rfl, hlater⟩ := exists_cons_of_append hts (signature_rest_le ..)
    have hcount : depth - 1 = (openBehind kinds t).count false := by
      rw [openBehind_of_closesBracket h₁ h,
        (count_tail false (head?_of_closesBracket hnests h₁ h)).1, hdepth]
    have hbehind := hground.openBehind fun hopen => absurd hopen (closesBracket_ne h).1
    exact balanced_of_openBehind hnests (fun hclose => absurd hclose (closesBracket_ne h).2)
      (ih hread hcount hbehind hlater (nests_openBehind hnests))
  | case4 depth t ts h₁ h₂ h ih =>
    -- Inside parentheses a brace opens or closes within them.
    obtain ⟨later, rfl, hlater⟩ := exists_cons_of_append hts (signature_rest_le ..)
    have hne : kinds ≠ [] := by
      rintro rfl
      exact h hdepth
    have hcount := hdepth.trans (count_false_openBehind hnests h₁ h₂).symm
    exact balanced_of_openBehind hnests (fun _ => hne)
      (ih hread hcount (hground.openBehind fun _ => hne) hlater (nests_openBehind hnests))
  | case5 depth t ts h₁ h₂ h₃ h =>
    obtain rfl := hnone hground ((not_not.1 h₃).symm.trans hdepth)
    exact (Balances.punct h (by decide) (by decide)).balanced hts
  | case6 depth t ts h₁ h₂ h₃ h₄ h =>
    obtain rfl := hnone hground ((not_not.1 h₃).symm.trans hdepth)
    exact ((readsBalanced_block ts h).resolve_right hread).balanced hts
  | case7 depth t ts h₁ h₂ h₃ h₄ h₅ h =>
    obtain rfl := hnone hground ((not_not.1 h₃).symm.trans hdepth)
    exact Balances.rfl.balanced hts
  | case8 depth t ts h₁ h₂ h₃ h₄ h₅ h₆ ih =>
    obtain rfl : depth = 0 := not_not.1 h₃
    obtain ⟨later, rfl, hlater⟩ := exists_cons_of_append hts (signature_rest_le ..)
    have hcount := hdepth.trans (count_false_openBehind hnests h₁ h₂).symm
    have hbehind := hground.openBehind fun hopen => absurd hopen h₅
    exact balanced_of_openBehind hnests (fun hclose => absurd hclose h₆)
      (ih hread hcount hbehind hlater (nests_openBehind hnests))

theorem balanced_memberStatement {kinds : List Bool} {ts taken statement : List Token} {depth : Nat}
    (hvalue : (memberStatement stop depth ts).value? = some statement)
    (hts : ts = taken ++ (memberStatement stop depth ts).rest) (hnests : nests kinds taken = true)
    (hdepth : depth = kinds.length) : balanced (kinds.count true) taken = true := by
  fun_induction memberStatement stop depth ts generalizing kinds taken statement with
  | case1 | case4 => cases hvalue
  | case2 depth t ts h ih =>
    obtain ⟨later, rfl, hlater⟩ := exists_cons_of_append hts (memberStatement_rest_le ..)
    obtain ⟨more, hmore, -⟩ := Option.map_eq_some_iff.1 hvalue
    have hlength : depth + 1 = (openBehind kinds t).length := by
      rcases Bool.or_eq_true_iff.1 h with hopens | hopen
      · rw [openBehind_of_opensBracket hopens, List.length_cons, hdepth]
      · rw [openBehind_of_open hopen, List.length_cons, hdepth]
    have hclose : ¬ t.isPunct '\x7d' = true := by
      rcases Bool.or_eq_true_iff.1 h with hopens | hopen
      · exact (opensBracket_ne hopens).2
      · exact Token.not_isPunct_of_isPunct hopen (by decide)
    exact balanced_of_openBehind hnests (fun h => absurd h hclose)
      (ih hmore hlater (nests_openBehind hnests) hlength)
  | case3 depth t ts h₁ h ih =>
    rw [Bool.or_eq_true, not_or] at h₁
    obtain ⟨later, rfl, hlater⟩ := exists_cons_of_append hts (memberStatement_rest_le ..)
    obtain ⟨more, hmore, -⟩ := Option.map_eq_some_iff.1 hvalue
    have hlength : depth - 1 = (openBehind kinds t).length := by
      rw [openBehind_of_closesBracket h₁.1 h, List.length_tail, hdepth]
    exact balanced_of_openBehind hnests (fun hclose => absurd hclose (closesBracket_ne h).2)
      (ih hmore hlater (nests_openBehind hnests) hlength)
  | case5 t ts h₁ h₂ h depth ih =>
    rw [Bool.or_eq_true, not_or] at h₁
    obtain ⟨later, rfl, hlater⟩ := exists_cons_of_append hts (memberStatement_rest_le ..)
    obtain ⟨more, hmore, -⟩ := Option.map_eq_some_iff.1 hvalue
    have hlength : depth = (openBehind kinds t).length := by
      rw [openBehind_of_close h₁.1 h, List.length_tail, ← hdepth, Nat.succ_sub_one]
    have hne : kinds ≠ [] := List.ne_nil_of_length_eq_add_one hdepth.symm
    exact balanced_of_openBehind hnests (fun _ => hne)
      (ih hmore hlater (nests_openBehind hnests) hlength)
  | case6 depth t ts h₁ h₂ h₃ h =>
    obtain ⟨hsemicolon, hzero⟩ := Bool.and_eq_true_iff.1 h
    obtain rfl : depth = 0 := beq_iff_eq.1 hzero
    obtain rfl : kinds = [] := List.length_eq_zero_iff.1 hdepth.symm
    exact (Balances.punct hsemicolon (by decide) (by decide)).balanced hts
  | case7 depth t ts h₁ h₂ h₃ h₄ ih =>
    rw [Bool.or_eq_true, not_or] at h₁
    obtain ⟨later, rfl, hlater⟩ := exists_cons_of_append hts (memberStatement_rest_le ..)
    obtain ⟨more, hmore, -⟩ := Option.map_eq_some_iff.1 hvalue
    have hlength : depth = (openBehind kinds t).length := by
      rw [openBehind_of_other h₁.1 h₁.2 h₂ h₃, hdepth]
    exact balanced_of_openBehind hnests (fun hclose => absurd hclose h₃)
      (ih hmore hlater (nests_openBehind hnests) hlength)

theorem balanced_expectName_signature {α : Type} {role : NameRole} {ts taken : List Token}
    {next : String × Span → List Token → Reading α}
    (hread : ¬ ((expectName stop role ts).andThen next).RunsOut)
    (hts : ts = taken ++ ((expectName stop role ts).andThen next).rest)
      (hnests : nests [] taken = true)
    (hnext : ∀ a rest, ∃ f : List Token → α, next a rest = (signature stop 0 rest).map f) :
    balanced 0 taken = true := by
  cases hvalue : (expectName stop role ts).value? with
  | none =>
    rw [andThen_of_none _ hvalue] at hts hread
    refine ((readsBalanced_expectName stop ts role).resolve_right fun hnone =>
      hread ?_).balanced hts
    exact ⟨rfl, hnone.2⟩
  | some a =>
    obtain ⟨t, hident, -, hcons⟩ := exists_of_expectName stop hvalue
    obtain ⟨f, hf⟩ := hnext a (expectName stop role ts).rest
    rw [andThen_of_some _ hvalue, hf] at hts hread
    have hle := signature_rest_le stop 0 (expectName stop role ts).rest
    generalize (expectName stop role ts).rest = rest at hcons hts hread hle
    subst hcons
    obtain ⟨later, rfl, hlater⟩ := exists_cons_of_append hts hle
    rw [nests_ident hident] at hnests
    rw [balanced_ident hident]
    refine balanced_signature stop (fun hnone => hread ?_) rfl (.inl rfl) hlater hnests
    exact ⟨Option.map_eq_none_iff.2 hnone.1, hnone.2⟩

/-! Items of a class body. -/

/-- The item is not balanced: it is an attribute list, a `use` with type arguments, or its brackets
do not nest. -/
def BreaksItem (item : List Token) : Prop :=
  balanced 0 item = false ∧ ((∃ t later, item = t :: later ∧ (t.kind = .attrOpen ∨
    t.isWord "use" = true ∧ ∃ u ∈ later, u.isPunct '<' = true)) ∨ nests [] item = false)

theorem skipTypeArguments_eq {ts later rest : List Token} (hts : ts = later ++ rest)
    (hle : rest.length ≤ (skipTypeArguments ts).length)
      (hlater : ∀ u ∈ later, ¬ u.isPunct '<' = true) :
    skipTypeArguments ts = ts := by
  refine if_neg fun hhead => ?_
  cases ts with
  | nil => cases hhead
  | cons u ts =>
    have hangle : u.isPunct '<' = true := hhead
    have hskip : skipTypeArguments (u :: ts) = afterTypeArguments 1 ts := by
      rw [skipTypeArguments, if_pos hhead, afterTypeArguments]
      simp [hangle]
    rw [hskip] at hle
    obtain ⟨more, rfl, _⟩ :=
      exists_cons_of_append hts (hle.trans (afterTypeArguments_length_le 1 ts))
    exact hlater u List.mem_cons_self hangle

/-- Without an angle nothing is passed over between a name and what stands behind it. -/
theorem exists_cons_of_skipTypeArguments {t next : Token} {ts after taken rest : List Token}
    (hskip : skipTypeArguments ts = next :: after) (hle : rest.length ≤ (next :: after).length)
    (hts : t :: ts = taken ++ rest) (hplain : ∀ u ∈ taken, ¬ u.isPunct '<' = true) : ∃ later,
      taken = t :: later ∧ next :: after = later ++ rest ∧ ∀ u ∈ later, ¬ u.isPunct '<' = true := by
  rw [← hskip] at hle
  obtain ⟨later, rfl, hlater⟩ :=
    exists_cons_of_append hts (hle.trans (skipTypeArguments_length_le ts))
  have hplain := (List.forall_mem_cons.1 hplain).2
  exact ⟨later, rfl, by rw [← hskip, skipTypeArguments_eq hlater hle hplain, hlater], hplain⟩

theorem balanced_useClauses {ns : String} {ts taken : List Token} {uses : List UseClause}
    (hvalue : (useClauses stop ns ts).value? = some uses)
      (hts : ts = taken ++ (useClauses stop ns ts).rest)
    (hplain : ∀ u ∈ taken, ¬ u.isPunct '<' = true) : balanced 0 taken = true := by
  fun_induction useClauses stop ns ts generalizing taken uses with
  | case1 | case2 | case3 | case7 => cases hvalue
  | case4 t ts name hname clause next after hskip h =>
    rename_i ih
    obtain ⟨more, hmore, -⟩ := Option.map_eq_some_iff.1 hvalue
    have hle := useClauses_rest_le stop ns after
    obtain ⟨later, rfl, hlater, hplain⟩ :=
      exists_cons_of_skipTypeArguments hskip (Nat.le_succ_of_le hle) hts hplain
    obtain ⟨later, rfl, hafter⟩ := exists_cons_of_append hlater hle
    rw [balanced_ident hname, balanced_other (Token.not_isPunct_of_isPunct h (by decide))
      (Token.not_isPunct_of_isPunct h (by decide))]
    exact ih hmore hafter (List.forall_mem_cons.1 hplain).2
  | case5 t ts name hname clause next after hskip _ =>
    rename_i h
    obtain ⟨later, rfl, hlater, -⟩ :=
      exists_cons_of_skipTypeArguments hskip (Nat.le_succ _) hts hplain
    rw [balanced_ident hname]
    exact (Balances.punct h (by decide) (by decide)).balanced hlater
  | case6 t ts name hname clause next after hskip _ _ =>
    rename_i h
    obtain ⟨inside, hinside, -⟩ := Option.map_eq_some_iff.1 hvalue
    obtain ⟨later, rfl, hlater, -⟩ :=
      exists_cons_of_skipTypeArguments hskip
        (Nat.le_succ_of_le (block_rest_le next after)) hts hplain
    rw [balanced_ident hname]
    exact ((readsBalanced_block after h).balances hinside).balanced hlater

/-- What the first token of an item is. -/
theorem start_ofToken (t : Token) : match ClassBody.ItemStart.ofToken t with
    | .nothing | .visibility _ => ¬ t.isPunct '\x7b' = true
    | .attributes => t.kind = .attrOpen
    | .uses => t.isWord "use" = true
    | .method | .constants | .memberless => ∃ word, t.ident? = some word
    | .properties => True := by
  rcases t with ⟨kind, span⟩
  cases kind with
  | punct c =>
    by_cases hc : c = ';'
    · subst hc
      simp [ClassBody.ItemStart.ofToken, Token.isPunct]
    · simp [ClassBody.ItemStart.ofToken, hc]
  | ident word =>
    simp only [ClassBody.ItemStart.ofToken, ClassBody.ItemStart.ofWord]
    split_ifs <;> simp_all [Token.isPunct, Token.isWord, Token.ident?]
  | _ => simp [ClassBody.ItemStart.ofToken]

section

variable {t : Token} {ts later : List Token} {word : String}

/-! What the readers of single items leave unbalanced, behind the word that begins the item. -/

theorem exists_angle_of_useClauses {ns : String} {uses : List UseClause}
    (hword : t.isWord "use" = true) (hvalue : (useClauses stop ns ts).value? = some uses)
    (hts : ts = later ++ (useClauses stop ns ts).rest)
    (hbroken : ¬ balanced 0 (t :: later) = true) : ∃ u ∈ later, u.isPunct '<' = true := by
  by_contra hplain
  push Not at hplain
  have hident : t.ident? = some "use" := by
    rw [Token.ident?, beq_iff_eq.1 hword]
  rw [balanced_ident hident] at hbroken
  exact hbroken (balanced_useClauses stop hvalue hts hplain)

theorem not_nests_of_memberStatement {statement : List Token} (hword : t.ident? = some word)
    (hvalue : (memberStatement stop 0 ts).value? = some statement)
    (hts : ts = later ++ (memberStatement stop 0 ts).rest)
    (hbroken : ¬ balanced 0 (t :: later) = true) : ¬ nests [] (t :: later) = true := by
  intro hnests
  rw [nests_ident hword] at hnests
  rw [balanced_ident hword] at hbroken
  exact hbroken (balanced_memberStatement stop hvalue hts hnests rfl)

theorem not_nests_of_method {ns : String} {visibility : Visibility} {member : Member}
    (hword : t.ident? = some word)
    (hvalue : (method stop ns visibility ts).value? = some member)
    (hts : ts = later ++ (method stop ns visibility ts).rest)
    (hbroken : ¬ balanced 0 (t :: later) = true) : ¬ nests [] (t :: later) = true := by
  intro hnests
  rw [nests_ident hword] at hnests
  rw [balanced_ident hword] at hbroken
  exact hbroken (balanced_expectName_signature stop (not_runsOut hvalue) hts hnests
    fun _ _ => ⟨_, rfl⟩)

theorem not_nests_of_properties {ns : String} {visibility : Visibility}
    {members : List Member} (hvalue : (properties stop ns visibility t ts).value? = some members)
    (hts : ts = later ++ (properties stop ns visibility t ts).rest)
    (hbroken : ¬ balanced 0 (t :: later) = true) : ¬ nests [] (t :: later) = true := by
  intro hnests
  obtain ⟨statement, hstatement, -⟩ := exists_of_andThen hvalue
  rw [properties_rest] at hts
  exact hbroken (balanced_memberStatement stop hstatement (congrArg (t :: ·) hts) hnests rfl)

end

theorem breaksItem_of_bodyItem {ns : String} {pending : Option Visibility} {t : Token}
    {ts item : List Token}
    {found : ClassBody.Item} (ht : ¬ t.isPunct '\x7d' = true)
    (hvalue : (bodyItem stop ns pending t ts).value? = some found)
    (hts : t :: ts = item ++ (bodyItem stop ns pending t ts).rest) :
    balanced 0 item = true ∨ BreaksItem item := by
  obtain ⟨later, rfl, hlater⟩ :=
    exists_cons_of_append hts (bodyItem_rest_le (Option.isSome_of_eq_some hvalue))
  refine or_iff_not_imp_left.2 fun hbroken => ⟨Bool.eq_false_iff.2 hbroken, ?_⟩
  have hstart := start_ofToken t
  unfold bodyItem at hlater hvalue
  cases hitem : ClassBody.ItemStart.ofToken t <;> rw [hitem] at hlater hvalue hstart <;>
    dsimp only [map_rest] at hlater hvalue hstart
  case nothing | visibility =>
    obtain rfl : later = [] := List.self_eq_append_left.1 hlater
    exact absurd (balanced_other hstart ht 0 []) hbroken
  case attributes => exact .inl ⟨t, later, rfl, .inl hstart⟩
  case uses =>
    obtain ⟨uses, huses, -⟩ := Option.map_eq_some_iff.1 hvalue
    have hangle := exists_angle_of_useClauses stop hstart huses hlater hbroken
    exact .inl ⟨t, later, rfl, .inr ⟨hstart, hangle⟩⟩
  case method =>
    obtain ⟨word, hword⟩ := hstart
    obtain ⟨member, hmember, -⟩ := Option.map_eq_some_iff.1 hvalue
    exact .inr (Bool.eq_false_iff.2 (not_nests_of_method stop hword hmember hlater hbroken))
  case constants =>
    obtain ⟨word, hword⟩ := hstart
    obtain ⟨members, hmembers, -⟩ := Option.map_eq_some_iff.1 hvalue
    obtain ⟨statement, hstatement, -⟩ := Option.map_eq_some_iff.1 hmembers
    have hnests := not_nests_of_memberStatement stop hword hstatement hlater hbroken
    exact .inr (Bool.eq_false_iff.2 hnests)
  case memberless =>
    obtain ⟨word, hword⟩ := hstart
    obtain ⟨statement, hstatement, -⟩ := Option.map_eq_some_iff.1 hvalue
    have hnests := not_nests_of_memberStatement stop hword hstatement hlater hbroken
    exact .inr (Bool.eq_false_iff.2 hnests)
  case properties =>
    obtain ⟨members, hmembers, -⟩ := Option.map_eq_some_iff.1 hvalue
    have hnests := not_nests_of_properties stop hmembers hlater hbroken
    exact .inr (Bool.eq_false_iff.2 hnests)

/-- Some part of the tokens is an item that is not balanced. -/
def HasBroken (ts : List Token) : Prop :=
  ∃ front item back, ts = front ++ item ++ back ∧ BreaksItem item

theorem HasBroken.append {ts : List Token} (h : HasBroken ts) (front back : List Token) :
    HasBroken (front ++ ts ++ back) := by
  obtain ⟨before, item, behind, rfl, hitem⟩ := h
  exact ⟨front ++ before, item, behind ++ back, by simp, hitem⟩

/-- A class from its name on, cut into what stands before its body and the items of the body. -/
structure ClassCut where
  header : List Token
  brace : Token
  items : List (List Token)
  close : Token
  plain : ∀ t ∈ header, (¬ t.isPunct '\x7b' = true) ∧ ¬ t.isPunct '\x7d' = true
  opens : brace.isPunct '\x7b' = true
  closes : close.isPunct '\x7d' = true
  kept : ∀ item ∈ items, balanced 0 item = true ∨ BreaksItem item

namespace ClassCut

variable {cut : ClassCut}

def tokens (cut : ClassCut) : List Token :=
  cut.header ++ cut.brace :: (cut.items.flatten ++ [cut.close])

/-- One more token before the body. -/
def behind (cut : ClassCut) (t : Token) (h : (¬ t.isPunct '\x7b' = true) ∧
      ¬ t.isPunct '\x7d' = true) : ClassCut :=
  { cut with header := t :: cut.header, plain := List.forall_mem_cons.2 ⟨h, cut.plain⟩ }

theorem exists_append_of_mem {item : List Token} (h : item ∈ cut.items) :
    ∃ front back, cut.tokens = front ++ item ++ back := by
  obtain ⟨before, after, hitems⟩ := List.append_of_mem h
  refine ⟨cut.header ++ cut.brace :: before.flatten, after.flatten ++ [cut.close], ?_⟩
  simp [tokens, hitems]

theorem balanced_tokens (h : ∀ item ∈ cut.items, balanced 0 item = true) :
    balanced 0 cut.tokens = true := by
  rw [tokens, balanced_plain cut.plain, balanced_open cut.opens]
  exact (balanced_append (balanced_flatten h) 1 [cut.close]).trans (balanced_close cut.closes 1 [])

theorem balanced_or_hasBroken (cut : ClassCut) :
    balanced 0 cut.tokens = true ∨ HasBroken cut.tokens := by
  by_cases h : ∀ item ∈ cut.items, balanced 0 item = true
  · exact .inl (balanced_tokens h)
  push Not at h
  obtain ⟨item, hmem, hitem⟩ := h
  obtain ⟨front, back, htokens⟩ := exists_append_of_mem hmem
  exact .inr ⟨front, item, back, htokens, (cut.kept item hmem).resolve_left hitem⟩

end ClassCut

theorem exists_items_of_classItems {ns : String} {brace : Token} {pending : Option Visibility}
    {ts : List Token} {body : ClassBody}
    (hvalue : (classItems stop ns brace pending ts).value? = some body) :
    ∃ (items : List (List Token)) (close : Token),
      ts = items.flatten ++ close :: (classItems stop ns brace pending ts).rest ∧
        close.isPunct '\x7d' = true ∧
        ∀ item ∈ items, balanced 0 item = true ∨ BreaksItem item := by
  fun_induction classItems stop ns brace pending ts generalizing body with
  | case1 | case3 => cases hvalue
  | case2 pending t ts h => exact ⟨[], t, rfl, h, by simp⟩
  | case4 pending t ts h item found hfound later =>
    rename_i ih
    obtain ⟨more, hmore, rfl⟩ := Option.map_eq_some_iff.1 hvalue
    obtain ⟨items, close, hitems, hclose, hkept⟩ := ih hmore
    obtain ⟨taken, htaken⟩ := bodyItem_rest_suffix stop ns pending t ts
    refine ⟨taken :: items, close, ?_, hclose, List.forall_mem_cons.2 ⟨?_, hkept⟩⟩
    · rw [← htaken, List.flatten_cons, List.append_assoc, ← hitems]
    · exact breaksItem_of_bodyItem stop h hfound htaken.symm

theorem exists_cut_of_classBody {ns : String} {ts taken : List Token} {body : ClassBody}
    (hvalue : (classBody stop ns ts).value? = some body)
    (hts : ts = taken ++ (classBody stop ns ts).rest) : ∃ cut : ClassCut, taken = cut.tokens := by
  induction ts generalizing taken with
  | nil => cases hvalue
  | cons t ts ih =>
    have hle := classBody_rest_le stop ns ts
    rw [classBody] at hvalue hts
    by_cases hopen : t.isPunct '\x7b' = true
    · rw [if_pos hopen] at hvalue hts
      obtain ⟨items, close, hitems, hclose, hkept⟩ := exists_items_of_classItems stop hvalue
      refine ⟨⟨[], t, items, close, by simp, hopen, hclose, hkept⟩, ?_⟩
      refine List.append_cancel_right (hts.symm.trans ?_)
      exact (congrArg (t :: ·) hitems).trans (by simp [ClassCut.tokens])
    rw [if_neg hopen] at hvalue hts
    split at hvalue
    · cases hvalue
    · next hother =>
      rw [if_neg hother] at hts
      rw [Bool.or_eq_true, not_or] at hother
      obtain ⟨later, rfl, hlater⟩ := exists_cons_of_append hts hle
      obtain ⟨cut, rfl⟩ := ih hvalue hlater
      exact ⟨cut.behind t ⟨hopen, hother.2⟩, rfl⟩

theorem exists_cut_of_classLike {c : UnitContext} {role : NameRole}
    {content : ClassBody → DeclarationContent}
    {ts taken : List Token} {d : Declaration}
    (hvalue : (classLike stop c role content ts).value? = some d)
    (hts : ts = taken ++ (classLike stop c role content ts).rest) :
    ∃ cut : ClassCut, taken = cut.tokens := by
  unfold classLike at hvalue hts
  obtain ⟨⟨name, span⟩, hname, hread⟩ := exists_of_andThen hvalue
  obtain ⟨body, hbody, -⟩ := Option.map_eq_some_iff.1 hread
  clear hread
  obtain ⟨t, hident, -, hcons⟩ := exists_of_expectName stop hname
  simp only [andThen_of_some _ hname, map_rest] at hts hbody
  have hle := classBody_rest_le stop c.ns (expectName stop role ts).rest
  generalize (expectName stop role ts).rest = rest at hcons hts hbody hle
  subst hcons
  obtain ⟨later, rfl, hlater⟩ := exists_cons_of_append hts hle
  obtain ⟨cut, rfl⟩ := exists_cut_of_classBody stop hbody hlater
  exact ⟨cut.behind t ⟨Token.not_isPunct_of_ident? hident _, Token.not_isPunct_of_ident? hident _⟩,
    rfl⟩

end Reading
end ModuleVisibility
