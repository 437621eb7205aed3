import ModuleVisibility.Proofs.LexemeShape

/-!
The tokens of a text are what stands in it. The text falls into lexemes, so each token covers a
stretch that spells it, what no token covers separates tokens, and at most one thing lacks its end.
-/
namespace ModuleVisibility
namespace Lexeme

/-- Each lexeme of a text is the next one where it stands, and behind it the text is split
further. -/
theorem exists_next_of_split {cs : List Char} {before after : List Lexeme} {l : Lexeme}
    (h : split cs = before ++ l :: after) :
    ∃ c rest, l = ⟨(next c rest).1, c :: rest.take (next c rest).2⟩ ∧
      after = split (rest.drop (next c rest).2) := by
  fun_induction split cs generalizing before with
  | case1 => simp at h
  | case2 c cs kind n hnext ih =>
    cases before with
    | nil =>
      obtain ⟨rfl, rfl⟩ := List.cons_eq_cons.1 h
      exact ⟨c, cs, by rw [hnext], by rw [hnext]⟩
    | cons first before => exact ih (List.cons_eq_cons.1 h).2

/-- Each lexeme of a text has the shape of its kind. -/
theorem reads_of_split {cs : List Char} {before after : List Lexeme} {l : Lexeme}
    (h : split cs = before ++ l :: after) : Reads l.text (after.flatMap text) l.kind := by
  obtain ⟨c, rest, rfl, rfl⟩ := exists_next_of_split h
  rw [flatMap_text_split]
  exact (takes_next c rest).reads

/-- And it has the kind of what comes next there. -/
theorem kind_of_split {cs : List Char} {before after : List Lexeme} {l : Lexeme}
    (h : split cs = before ++ l :: after) :
    ∃ c rest, l.text ++ after.flatMap text = c :: rest ∧ l.kind = (next c rest).1 := by
  obtain ⟨c, rest, rfl, rfl⟩ := exists_next_of_split h
  rw [flatMap_text_split]
  exact ⟨c, rest, by simp, rfl⟩

/-- A lexeme that is a token spells it. -/
theorem spelled_of_split {cs : List Char} {before after : List Lexeme} {l : Lexeme}
    (h : split cs = before ++ l :: after) {kind : TokenKind} (hkind : l.tokenKind? = some kind) :
    kind.Spelled l.text (after.flatMap text) := by
  have hreads := reads_of_split h
  rcases l with ⟨_ | _ | _ | _ | _ | _ | _, text⟩ <;> cases hkind
  · exact hreads
  · obtain ⟨hopen, hrest⟩ := hreads
    rw [hrest]
    exact .unclosed (by decide) (hopen : SyntaxFault.unclosedString.LeavesOpen text)
  · obtain ⟨hopen, hrest⟩ := hreads
    rw [hrest]
    exact .unclosed (by decide) (hopen : SyntaxFault.unclosedHeredoc.LeavesOpen text)

/-- Any other stands between tokens. -/
theorem separates_of_split {cs : List Char} {before after : List Lexeme} {l : Lexeme}
    (h : split cs = before ++ l :: after) (hkind : l.tokenKind? = none) :
    Separates l.text (after.flatMap text) := by
  have hreads := reads_of_split h
  rcases l with ⟨_ | _ | _ | _ | _ | _ | _, text⟩ <;> cases hkind
  · exact hreads
  · exact hreads
  · exact hreads
  · obtain ⟨hopen, hrest⟩ := hreads
    rw [hrest]
    exact .unclosed hopen

/-- A lexeme that lacks its end is the last one. -/
theorem leavesOpen_of_split {cs : List Char} {before after : List Lexeme} {l : Lexeme}
    (h : split cs = before ++ l :: after) {fault : SyntaxFault} (hfault : l.fault? = some fault) :
    fault.LeavesOpen l.text ∧ after = [] := by
  have hreads := reads_of_split h
  have hlast : after.flatMap text = [] → after = [] := by
    intro hnone
    cases after with
    | nil => rfl
    | cons m after =>
      have hpos : 0 < Text.byteSize m.text :=
        byteSize_pos_of_mem_split (h ▸ List.mem_append_right _ (.tail _ (.head _)))
      rw [List.flatMap_cons, List.append_eq_nil_iff] at hnone
      rw [hnone.1] at hpos
      cases hpos
  rcases l with ⟨kind, text⟩
  cases kind <;> cases hfault <;> exact hreads.imp_right hlast

end Lexeme

namespace TokenStream

open Text (byteSize)

theorem ofLexemes_append (start : Nat) (as bs : List Lexeme) : ofLexemes start (as ++ bs) =
    ⟨(ofLexemes start as).tokens ++
      (ofLexemes (start + byteSize (as.flatMap Lexeme.text)) bs).tokens,
      (ofLexemes start as).errors ++
        (ofLexemes (start + byteSize (as.flatMap Lexeme.text)) bs).errors⟩ := by
  induction as generalizing start with
  | nil => rfl
  | cons a as ih => simp [ofLexemes, ih, Lexeme.spanAt, Nat.add_assoc]

theorem hi_le_of_mem {start : Nat} {ls : List Lexeme} {t : Token}
    (h : t ∈ (ofLexemes start ls).tokens) :
    t.span.hi ≤ start + byteSize (ls.flatMap Lexeme.text) := by
  obtain ⟨before, l, after, rfl, _, hspan⟩ := exists_of_mem_tokens h
  rw [hspan]
  simp only [Lexeme.spanAt, List.flatMap_append, List.flatMap_cons, Text.byteSize_append]
  omega

theorem errors_ofLexemes_eq_nil {ls : List Lexeme} (h : ∀ l ∈ ls, l.fault? = none) (start : Nat) :
    (ofLexemes start ls).errors = [] := by
  induction ls generalizing start with
  | nil => rfl
  | cons l ls ih =>
    obtain ⟨hl, hls⟩ := List.forall_mem_cons.1 h
    simp only [ofLexemes, hl, ih hls, Option.map_none, Option.toList_none, List.append_nil]

/-- What lacks its end runs to the end of the text, so there is at most one such fault. -/
theorem errors_split (cs : List Char) : (ofLexemes 0 (Lexeme.split cs)).errors = [] ∨
    ∃ (fault : SyntaxFault) (before text : List Char), cs = before ++ text ∧ fault.LeavesOpen text ∧
      (ofLexemes 0 (Lexeme.split cs)).errors = [fault.atSpan ⟨byteSize before, byteSize cs⟩] := by
  by_cases hnone : ∀ l ∈ Lexeme.split cs, l.fault? = none
  · exact .inl (errors_ofLexemes_eq_nil hnone 0)
  refine .inr ?_
  rw [not_forall₂] at hnone
  obtain ⟨l, hl, hfault⟩ := hnone
  obtain ⟨before, after, hsplit⟩ := List.append_of_mem hl
  obtain ⟨fault, hfault⟩ := Option.ne_none_iff_exists'.1 hfault
  obtain ⟨hopen, rfl⟩ := Lexeme.leavesOpen_of_split hsplit hfault
  have hbefore : ∀ m ∈ before, m.fault? = none := by
    intro m hm
    obtain ⟨front, back, rfl⟩ := List.append_of_mem hm
    by_contra hfault
    obtain ⟨fault, hfault⟩ := Option.ne_none_iff_exists'.1 hfault
    rw [List.append_assoc] at hsplit
    have hback := (Lexeme.leavesOpen_of_split hsplit hfault).2
    simp at hback
  have hcs : cs = before.flatMap Lexeme.text ++ l.text := by
    rw [← Lexeme.flatMap_text_split cs, hsplit]
    simp
  refine ⟨fault, before.flatMap Lexeme.text, l.text, hcs, hopen, ?_⟩
  rw [hsplit, ofLexemes_append, errors_ofLexemes_eq_nil hbefore]
  simp [ofLexemes, hfault, Lexeme.spanAt, hcs]

/-- The stream is what the text says: each token covers a stretch that spells it, one behind
another; the text falls into such stretches and others that separate tokens; and there is a fault
only where something runs to the end for want of its own. -/
structure Faithful (cs : List Char) (s : TokenStream) : Prop where
  tokens : ∀ t ∈ s.tokens, ∃ before text rest, cs = before ++ text ++ rest ∧ text ≠ [] ∧
    t.span = ⟨byteSize before, byteSize (before ++ text)⟩ ∧ t.kind.Spelled text rest
  ordered : s.tokens.Pairwise fun a b => a.span.lo < b.span.lo ∧ a.span.hi ≤ b.span.lo
  pieces : ∃ pieces : List (List Char), pieces.flatten = cs ∧
    ∀ before piece after, pieces = before ++ piece :: after →
      let span : Span := ⟨byteSize before.flatten, byteSize (before.flatten ++ piece)⟩
      (∃ t ∈ s.tokens, t.span = span) ∨ Lexeme.Separates piece after.flatten ∧
        ∀ t ∈ s.tokens, t.span.hi ≤ span.lo ∨ span.hi ≤ t.span.lo
  errors : s.errors = [] ∨ ∃ (fault : SyntaxFault) (before text : List Char), cs = before ++ text ∧
    fault.LeavesOpen text ∧ s.errors = [fault.atSpan ⟨byteSize before, byteSize cs⟩]

end TokenStream

/-- The lexemes of a text are the stretches into which it falls. -/
theorem TokenStream.covered_or_separates {cs : List Char} {before after : List Lexeme} {l : Lexeme}
    (h : Lexeme.split cs = before ++ l :: after) :
    let span := l.spanAt (Text.byteSize (before.flatMap Lexeme.text))
    (∃ t ∈ (ofText cs).tokens, t.span = span) ∨
      Lexeme.Separates l.text (after.flatMap Lexeme.text) ∧
      ∀ t ∈ (ofText cs).tokens, t.span.hi ≤ span.lo ∨ span.hi ≤ t.span.lo := by
  have htokens := congrArg TokenStream.tokens (ofLexemes_append 0 before (l :: after))
  rw [← h, Nat.zero_add] at htokens
  intro span
  rw [ofText, htokens]
  cases hkind : l.tokenKind? with
  | some kind =>
    refine .inl ⟨⟨kind, span⟩, List.mem_append_right _ ?_, rfl⟩
    simp [ofLexemes, hkind, span]
  | none =>
    refine .inr ⟨Lexeme.separates_of_split h hkind, fun t ht => ?_⟩
    rcases List.mem_append.1 ht with hbefore | hbehind
    · have hle := hi_le_of_mem hbefore
      rw [Nat.zero_add] at hle
      exact .inl hle
    · simp only [ofLexemes, hkind, Option.map_none, Option.toList_none, List.nil_append] at hbehind
      exact .inr (le_lo_of_mem hbehind)

/-- Reading a source into tokens is faithful to its text. -/
theorem faithful_tokenize (source : String) : (tokenize source).Faithful source.toList where
  tokens t ht := by
    obtain ⟨before, l, after, hsplit, hkind, hspan⟩ := TokenStream.exists_of_mem_tokens ht
    have htext := Lexeme.flatMap_text_split source.toList
    have hpos : 0 < Text.byteSize l.text :=
      Lexeme.byteSize_pos_of_mem_split (hsplit ▸ List.mem_append_right _ (.head _))
    rw [hsplit] at htext
    refine ⟨before.flatMap Lexeme.text, l.text,
      after.flatMap Lexeme.text, by simp [← htext], ?_, ?_, Lexeme.spelled_of_split hsplit hkind⟩
    · rintro hnil
      rw [hnil] at hpos
      cases hpos
    · simp [hspan, Lexeme.spanAt]
  ordered := by
    have hstarts : (tokenize source).tokens.Pairwise fun a b => a.span.lo < b.span.lo :=
      TokenStream.pairwise_tokens (fun _ => Lexeme.byteSize_pos_of_mem_split) 0
    exact hstarts.and (TokenStream.pairwise_apart 0 (Lexeme.split source.toList))
  pieces := by
    refine ⟨(Lexeme.split source.toList).map Lexeme.text, ?_, fun before piece after h => ?_⟩
    · rw [← List.flatMap_def]
      exact Lexeme.flatMap_text_split source.toList
    · obtain ⟨front, back, hsplit, rfl, hback⟩ := List.map_eq_append_iff.1 h
      obtain ⟨l, behind, rfl, rfl, rfl⟩ := List.map_eq_cons_iff.1 hback
      have hcovered := TokenStream.covered_or_separates hsplit
      simp only [Lexeme.spanAt, ← Text.byteSize_append, List.flatMap_def] at hcovered
      exact hcovered
  errors := TokenStream.errors_split source.toList

end ModuleVisibility
