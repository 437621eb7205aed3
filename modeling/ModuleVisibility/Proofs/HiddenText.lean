import ModuleVisibility.Proofs.TokenSpelling

/-!
What of a text the tokens do not show. The text falls into the stretches of its tokens and others
between them, so each byte belongs to one token or is hidden once: as a blank, in a comment, or
behind an open tag. Wherever nothing else covers it, an open tag hides the rest of its line, not
only on the first one.
-/
namespace ModuleVisibility

/-- Whether the byte at `offset` belongs to the range. -/
def Span.contains (span : Span) (offset : Nat) : Bool := span.lo ≤ offset && offset < span.hi

/-- A byte from `start` on is in the first stretch or behind it. -/
theorem Span.add_contains {start stop offset later : Nat} (hlo : start ≤ offset)
    (hhere : offset < stop → later = 0) (hlater : stop ≤ offset → later = 1) :
    later + (if (⟨start, stop⟩ : Span).contains offset = true then 1 else 0) = 1 := by
  by_cases hlt : offset < stop
  · rw [hhere hlt, if_pos (by simp [contains, hlo, hlt])]
  · rw [hlater (Nat.le_of_not_lt hlt), if_neg (by simp [contains, hlt])]

/-- A stretch of a text that no token covers. -/
structure Hidden where
  span : Span
  text : List Char

namespace Hidden

variable (h : Hidden)

/-- It is one of the blanks of ASCII. -/
def IsBlank : Prop := ∃ c ∈ [' ', '\t', '\r', '\n'], h.text = [c]

/-- It starts as a comment does, one up to the end of its line or a block. -/
def IsComment : Prop := ∃ opening ∈ [['/', '/'], ['#'], ['/', '*']], opening <+: h.text

/-- It starts with an open tag. -/
def IsOpenTag : Prop := ['<', '?'] <+: h.text

end Hidden

open Text (byteSize)

/-- From byte `start` on the text falls into tokens, each of which is spelled there, and hidden
stretches, each of which separates tokens there. Both are told in order. -/
inductive Falls : Nat → List Char → List Token → List Hidden → Prop
  | nil {start} : Falls start [] [] []
  | token {start text rest t ts hidden} (hspan : t.span = ⟨start, start + byteSize text⟩)
    (hspelled : t.kind.Spelled text rest) (h : Falls (start + byteSize text) rest ts hidden) :
    Falls start (text ++ rest) (t :: ts) hidden
  | hidden {start text rest ts hidden} (hseparates : Lexeme.Separates text rest)
    (h : Falls (start + byteSize text) rest ts hidden) :
    Falls start (text ++ rest) ts (⟨⟨start, start + byteSize text⟩, text⟩ :: hidden)

theorem falls_ofLexemes (start : Nat) (cs : List Char) :
    ∃ hidden, Falls start cs (TokenStream.ofLexemes start (Lexeme.split cs)).tokens hidden := by
  fun_induction Lexeme.split cs generalizing start with
  | case1 => exact ⟨[], .nil⟩
  | case2 c cs kind n hnext ih =>
    have hsplit : Lexeme.split (c :: cs) =
        [] ++ ⟨kind, c :: cs.take n⟩ :: Lexeme.split (cs.drop n) := by
      rw [Lexeme.split, hnext]
      rfl
    obtain ⟨hidden, hfalls⟩ := ih (start + byteSize (c :: cs.take n))
    have htext : c :: cs.take n ++ cs.drop n = c :: cs := by simp
    rw [← htext]
    cases hkind : Lexeme.tokenKind? ⟨kind, c :: cs.take n⟩ with
    | some found =>
      have hspelled := Lexeme.spelled_of_split hsplit hkind
      rw [Lexeme.flatMap_text_split] at hspelled
      simp only [TokenStream.ofLexemes, hkind, Option.map_some, Option.toList_some,
        List.singleton_append]
      exact ⟨hidden, .token rfl hspelled hfalls⟩
    | none =>
      have hseparates := Lexeme.separates_of_split hsplit hkind
      rw [Lexeme.flatMap_text_split] at hseparates
      simp only [TokenStream.ofLexemes, hkind, Option.map_none, Option.toList_none, List.nil_append]
      exact ⟨_, .hidden hseparates hfalls⟩

namespace Falls

variable {start offset : Nat} {cs : List Char} {ts : List Token} {hidden : List Hidden}

/-- No stretch starts before the text does. -/
theorem start_le (h : Falls start cs ts hidden) :
    (∀ t ∈ ts, start ≤ t.span.lo) ∧ ∀ s ∈ hidden, start ≤ s.span.lo := by
  induction h with
  | nil => simp
  | token hspan _ _ ih =>
    refine ⟨List.forall_mem_cons.2 ⟨by rw [hspan], fun t ht => ?_⟩, fun s hs => ?_⟩
    · exact Nat.le_of_add_right_le (ih.1 t ht)
    · exact Nat.le_of_add_right_le (ih.2 s hs)
  | hidden _ _ ih =>
    refine ⟨fun t ht => ?_, List.forall_mem_cons.2 ⟨Nat.le_refl _, fun s hs => ?_⟩⟩
    · exact Nat.le_of_add_right_le (ih.1 t ht)
    · exact Nat.le_of_add_right_le (ih.2 s hs)

/-- How many stretches a byte belongs to. -/
def occupants (offset : Nat) (ts : List Token) (hidden : List Hidden) : Nat :=
  ts.countP (·.span.contains offset) + hidden.countP (·.span.contains offset)

theorem occupants_before (h : Falls start cs ts hidden) (hlt : offset < start) :
    occupants offset ts hidden = 0 := by
  have houtside : ∀ {span : Span}, start ≤ span.lo → ¬ span.contains offset = true := by
    intro span hle
    simp only [Span.contains, Bool.and_eq_true, decide_eq_true_eq]
    omega
  refine Nat.add_eq_zero_iff.2 ⟨List.countP_eq_zero.2 fun t ht => ?_,
    List.countP_eq_zero.2 fun s hs => ?_⟩
  · exact houtside (h.start_le.1 t ht)
  · exact houtside (h.start_le.2 s hs)

/-- A byte of the text belongs to one stretch. -/
theorem occupants_eq_one (h : Falls start cs ts hidden) (hlo : start ≤ offset)
    (hhi : offset < start + byteSize cs) : occupants offset ts hidden = 1 := by
  induction h with
  | nil =>
    rw [Text.byteSize_nil] at hhi
    omega
  | token hspan _ h ih =>
    rw [Text.byteSize_append] at hhi
    rw [occupants, List.countP_cons, hspan, Nat.add_right_comm]
    exact Span.add_contains hlo h.occupants_before fun hlater => ih hlater (by omega)
  | hidden _ h ih =>
    rw [Text.byteSize_append] at hhi
    rw [occupants, List.countP_cons, ← Nat.add_assoc]
    exact Span.add_contains hlo h.occupants_before fun hlater => ih hlater (by omega)

/-- What is hidden is a blank, a comment, or a line from an open tag on. -/
theorem isBlank_or (h : Falls start cs ts hidden) :
    ∀ s ∈ hidden, s.IsBlank ∨ s.IsComment ∨ s.IsOpenTag := by
  induction h with
  | nil => simp
  | token _ _ _ ih => exact ih
  | hidden hseparates _ ih =>
    refine List.forall_mem_cons.2 ⟨?_, ih⟩
    cases hseparates with
    | blank hc => exact .inl ⟨_, hc, rfl⟩
    | line hopening htext _ _ =>
      simp only [List.mem_cons, List.not_mem_nil, or_false] at hopening
      rcases hopening with rfl | rfl | rfl
      · exact .inr (.inr htext)
      · exact .inr (.inl ⟨_, .head _, htext⟩)
      · exact .inr (.inl ⟨_, .tail _ (.head _), htext⟩)
    | block => exact .inr (.inl ⟨['/', '*'], by simp, ⟨_, rfl⟩⟩)
    | unclosed hopen =>
      cases hopen with
      | comment => exact .inr (.inl ⟨['/', '*'], by simp, ⟨_, rfl⟩⟩)

end Falls

/-- No token starts with an open tag. -/
theorem TokenStream.lo_ne_of_openTag {cs before after : List Char}
    (h : cs = before ++ '<' :: '?' :: after)
    {t : Token} (ht : t ∈ (ofText cs).tokens) : t.span.lo ≠ byteSize before := by
  intro hlo
  obtain ⟨front, l, back, hsplit, hkind, hspan⟩ := exists_of_mem_tokens ht
  obtain ⟨c, rest, htext, hnext⟩ := Lexeme.kind_of_split hsplit
  have hcs : cs = front.flatMap Lexeme.text ++ c :: rest := by
    rw [← htext, ← Lexeme.flatMap_text_split cs, hsplit]
    simp
  have hsize : byteSize (front.flatMap Lexeme.text) = byteSize before := by
    rw [hspan, Lexeme.spanAt, Nat.zero_add] at hlo
    exact hlo
  have hfront : front.flatMap Lexeme.text <+: cs := hcs ▸ List.prefix_append ..
  have hbefore : before <+: cs := h ▸ List.prefix_append ..
  have hsame : front.flatMap Lexeme.text = before :=
    (Text.prefix_of_byteSize_le hfront hbefore (Nat.le_of_eq hsize)).eq_of_length_le
      (Text.prefix_of_byteSize_le hbefore hfront (Nat.le_of_eq hsize.symm)).length_le
  have hstart : c :: rest = '<' :: '?' :: after := by
    rw [hcs, hsame] at h
    exact List.append_cancel_left h
  cases hstart
  rw [Lexeme.tokenKind?, hnext] at hkind
  cases hkind

/-- Each byte of a text belongs to one token or to one stretch that is hidden: a blank, a comment,
or the rest of a line from an open tag on. No token starts with an open tag, on whichever line. -/
theorem covered_or_hidden (source : String) : ∃ hidden,
    Falls 0 source.toList (tokenize source).tokens hidden ∧
      (∀ s ∈ hidden, s.IsBlank ∨ s.IsComment ∨ s.IsOpenTag) ∧
      (∀ offset < byteSize source.toList, (tokenize source).tokens.countP (·.span.contains offset) +
        hidden.countP (·.span.contains offset) = 1) ∧
      ∀ before after, source.toList = before ++ '<' :: '?' :: after →
        ∀ t ∈ (tokenize source).tokens, t.span.lo ≠ byteSize before := by
  obtain ⟨hidden, hfalls⟩ := falls_ofLexemes 0 source.toList
  refine ⟨hidden, hfalls, hfalls.isBlank_or, fun offset hoffset => ?_,
    fun before after h t ht => ?_⟩
  · exact hfalls.occupants_eq_one (Nat.zero_le _) (by rwa [Nat.zero_add])
  · exact TokenStream.lo_ne_of_openTag h ht

/-- A nullable type argument hides the brace that opens the body of its function. -/
theorem not_covered_behind_nullable :
    let source := "<?hh\nfunction f(vec<?int> $x): void \x7b\x7d\n"
    '/' ∉ source.toList ∧ '#' ∉ source.toList ∧ ∃ before after,
      source.toList = before ++ '\x7b' :: after ∧ '\n' ∈ before ∧
        ∀ t ∈ (tokenize source).tokens, t.span.contains (byteSize before) = false :=
  ⟨by decide, by decide, "<?hh\nfunction f(vec<?int> $x): void ".toList,
    "\x7d\n".toList, by decide, by decide,
    by decide +kernel⟩

end ModuleVisibility
