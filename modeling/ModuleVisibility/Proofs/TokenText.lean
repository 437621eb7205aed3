import ModuleVisibility.Proofs.TextPosition
import ModuleVisibility.Proofs.Reading

/-!
Where the tokens of a text stand. The lexemes together are the text, so each token and each fault
covers the lexeme it comes from, and the name of a token is what its lexeme ends with.
-/
namespace ModuleVisibility

/-- The name that a token is, or the name of the variable that it is. -/
def TokenKind.name? : TokenKind → Option String
  | .ident name => some name
  | .variable name => some name
  | _ => none

namespace Lexeme

theorem heredoc?_kind {cs : List Char} {kind : LexemeKind} {n : Nat}
    (h : heredoc? cs = some (kind, n)) : kind = .token .literal ∨ kind = .unclosedHeredoc := by
  unfold heredoc? at h
  dsimp only at h
  split at h
  · cases h
  · split at h
    · cases h
      exact .inl rfl
    · cases h
      exact .inr rfl

theorem quoted_kind (quote : Char) (cs : List Char) :
    (quoted quote cs).1 = .token .literal ∨ (quoted quote cs).1 = .unclosedString := by
  unfold quoted
  split
  · exact .inl rfl
  · exact .inr rfl

/-- The name of a token ends its lexeme: only a dollar sign stands before that of a variable. -/
theorem name_suffix_next {c : Char} {cs : List Char} {kind : TokenKind} {name : String}
    (hkind : (next c cs).1 = .token kind) (hname : kind.name? = some name) :
    name.toList <:+ c :: cs.take (next c cs).2 := by
  have hnot : ∀ {found : LexemeKind}, found = .token .literal ∨ found = .unclosedString ∨
      found = .unclosedHeredoc → found ≠ .token kind := by
    rintro found (rfl | rfl | rfl) hfound
    · cases hfound
      cases hname
    · cases hfound
    · cases hfound
  revert hkind
  fun_cases next c cs with
  | case3 _ _ _ hheredoc =>
    intro hkind
    exact (hnot ((heredoc?_kind hheredoc).imp_right .inr) hkind).elim
  | case11 | case12 | case13 =>
    intro hkind
    exact (hnot ((quoted_kind _ _).imp_right .inl) hkind).elim
  | case17 =>
    simp only [if_pos ‹(decide (c = '$') && startsName cs) = true›]
    intro hkind
    cases hkind
    cases hname
    rw [String.toList_ofList]
    exact List.suffix_cons ..
  | case18 =>
    simp only [if_neg ‹¬ (decide (c = '$') && startsName cs) = true›, if_pos ‹c.isDigit = true›]
    intro hkind
    cases hkind
    cases hname
  | case19 =>
    simp only [if_neg ‹¬ (decide (c = '$') && startsName cs) = true›, if_neg ‹¬ c.isDigit = true›,
      if_pos ‹(decide (c = '\\') && startsName cs || isNameStart c) = true›]
    intro hkind
    cases hkind
    cases hname
    rw [String.toList_ofList]
    exact List.suffix_rfl
  | case20 =>
    simp only [if_neg ‹¬ (decide (c = '$') && startsName cs) = true›, if_neg ‹¬ c.isDigit = true›,
      if_neg ‹¬ (decide (c = '\\') && startsName cs || isNameStart c) = true›]
    intro hkind
    cases hkind
    cases hname
  | _ =>
    intro hkind
    cases hkind
    try cases hname

theorem name_suffix_of_mem_split {cs : List Char} {l : Lexeme} (hl : l ∈ split cs)
    {kind : TokenKind}
    (hkind : l.tokenKind? = some kind) {name : String} (hname : kind.name? = some name) :
    name.toList <:+ l.text := by
  have htoken : l.kind = .token kind := by
    unfold tokenKind? at hkind
    split at hkind
    · next heq =>
      cases hkind
      exact heq
    · cases hkind
      cases hname
    · cases hkind
      cases hname
    · cases hkind
  fun_induction split cs with
  | case1 => cases hl
  | case2 c cs kind' n hnext ih =>
    rcases List.mem_cons.1 hl with rfl | hlater
    · have hsuffix : name.toList <:+ c :: cs.take (next c cs).2 :=
        name_suffix_next (by rw [hnext]; exact htoken) hname
      rwa [hnext] at hsuffix
    · exact ih hlater

end Lexeme

namespace TokenStream

variable {start : Nat} {ls : List Lexeme}

/-- Tokens are lexemes behind others. -/
theorem exists_of_mem_tokens {t : Token} (h : t ∈ (ofLexemes start ls).tokens) :
    ∃ before l after, ls = before ++ l :: after ∧ l.tokenKind? = some t.kind ∧
      t.span = l.spanAt (start + Text.byteSize (before.flatMap Lexeme.text)) := by
  induction ls generalizing start with
  | nil => cases h
  | cons l ls ih =>
    rcases List.mem_append.1 h with hhere | hlater
    · obtain ⟨kind, hkind, rfl⟩ := Option.map_eq_some_iff.1 (Option.mem_toList.1 hhere)
      exact ⟨[], l, ls, rfl, hkind, rfl⟩
    · obtain ⟨before, found, after, rfl, hkind, hspan⟩ := ih hlater
      refine ⟨l :: before, found, after, rfl, hkind, hspan.trans ?_⟩
      simp [Lexeme.spanAt, Nat.add_assoc]

/-- So are faults. -/
theorem exists_of_mem_errors {e : SyntaxError} (h : e ∈ (ofLexemes start ls).errors) :
    ∃ before l after, ls = before ++ l :: after ∧
      e.span = l.spanAt (start + Text.byteSize (before.flatMap Lexeme.text)) := by
  induction ls generalizing start with
  | nil => cases h
  | cons l ls ih =>
    rcases List.mem_append.1 h with hhere | hlater
    · obtain ⟨fault, _, rfl⟩ := Option.map_eq_some_iff.1 (Option.mem_toList.1 hhere)
      exact ⟨[], l, ls, rfl, rfl⟩
    · obtain ⟨before, found, after, rfl, hspan⟩ := ih hlater
      refine ⟨l :: before, found, after, rfl, hspan.trans ?_⟩
      simp [Lexeme.spanAt, Nat.add_assoc]

/-- No token starts before another has ended. -/
theorem pairwise_apart (start : Nat) (ls : List Lexeme) :
    (ofLexemes start ls).tokens.Pairwise fun a b => a.span.hi ≤ b.span.lo := by
  induction ls generalizing start with
  | nil => exact List.Pairwise.nil
  | cons l ls ih =>
    refine List.pairwise_append.2 ⟨?_, ih _, fun a ha b hb => ?_⟩
    · cases l.tokenKind? <;> simp
    · obtain ⟨kind, _, rfl⟩ := Option.map_eq_some_iff.1 (Option.mem_toList.1 ha)
      exact le_lo_of_mem hb

end TokenStream

/-- A lexeme of a text covers its stretch of the text. -/
theorem Lexeme.covers_spanAt {cs : List Char} {l : Lexeme} {before after : List Lexeme}
    (h : split cs = before ++ l :: after) :
    Text.Covers cs (l.spanAt (0 + Text.byteSize (before.flatMap Lexeme.text))) (before.flatMap text)
      l.text where
  text := by
    refine ⟨after.flatMap Lexeme.text, ?_⟩
    rw [← flatMap_text_split cs, h]
    simp
  lo := Nat.zero_add _
  hi := by simp [spanAt]

/-- The token covers a stretch of the text that its name ends. -/
def Token.Stands (cs : List Char) (t : Token) : Prop :=
  ∃ before inside, Text.Covers cs t.span before inside ∧
    ∀ name, t.kind.name? = some name → name.toList <:+ inside

variable {cs : List Char}

theorem Token.stands_of_mem_ofText {t : Token} (h : t ∈ (TokenStream.ofText cs).tokens) :
    t.Stands cs := by
  obtain ⟨before, l, after, hsplit, hkind, hspan⟩ := TokenStream.exists_of_mem_tokens h
  have hl : l ∈ Lexeme.split cs := by
    rw [hsplit]
    exact List.mem_append_right _ List.mem_cons_self
  exact ⟨before.flatMap Lexeme.text, l.text, hspan ▸ Lexeme.covers_spanAt hsplit,
    fun _ hname => Lexeme.name_suffix_of_mem_split hl hkind hname⟩

theorem Token.Stands.isRange {t : Token} (h : t.Stands cs) : Text.IsRange cs t.span := by
  obtain ⟨before, inside, hcovers, _⟩ := h
  exact hcovers.isRange

theorem TokenStream.isRange_of_mem_errors {e : SyntaxError} (h : e ∈ (ofText cs).errors) :
    Text.IsRange cs e.span := by
  obtain ⟨before, l, after, hsplit, hspan⟩ := exists_of_mem_errors h
  exact hspan ▸ (Lexeme.covers_spanAt hsplit).isRange

end ModuleVisibility
