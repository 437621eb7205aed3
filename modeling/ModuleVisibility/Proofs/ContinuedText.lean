import ModuleVisibility.Proofs.TokenSpelling

/-!
A text that goes on behind a newline. No lexeme that has its end needs to look past the newline, so
the tokens of the text stay what they are, and behind them come those of what stands behind the
newline, as many bytes further on as the text and the newline take.
-/
namespace ModuleVisibility

/-- Whether a lexeme of this kind has its end. -/
def LexemeKind.isClosed : LexemeKind → Bool
  | unclosedComment | unclosedString | unclosedHeredoc => false
  | _ => true

namespace Lexeme

variable {c : Char} {cs : List Char}

theorem isClosed_of_fault? {l : Lexeme} (h : l.fault? = none) : l.kind.isClosed = true := by
  rcases l with ⟨kind, _⟩
  cases kind <;> first | rfl | cases h

/-! Names, strings and comments. -/

theorem takeWhile_newline {p : Char → Bool} (hp : p '\n' = false) (cs more : List Char) :
    (cs ++ '\n' :: more).takeWhile p = cs.takeWhile p := by
  induction cs with
  | nil => simp [hp]
  | cons c cs ih => simp only [List.cons_append, List.takeWhile_cons, ih]

theorem startsName_newline (cs more : List Char) :
    startsName (cs ++ '\n' :: more) = startsName cs := by
  cases cs <;> rfl

theorem qualifiedLength_newline (cs more : List Char) :
    qualifiedLength (cs ++ '\n' :: more) = qualifiedLength cs := by
  induction cs with
  | nil => rfl
  | cons c cs ih => simp only [List.cons_append, qualifiedLength, startsName_newline, ih]

theorem stringLength?_append {quote : Char} (hquote : quote ≠ '\\') {n : Nat}
    (h : stringLength? quote cs = some n) (more : List Char) :
    stringLength? quote (cs ++ more) = some n := by
  fun_induction stringLength? quote cs generalizing n with
  | case1 => cases h
  | case2 _ cs ih =>
    obtain ⟨m, hm, rfl⟩ := Option.map_eq_some_iff.1 h
    simp only [List.cons_append, stringLength?, ih hm, Option.map_some]
  | case3 cs hescape =>
    rw [List.cons_append, stringLength?]
    · rw [if_pos rfl]
      exact h
    · rintro d ds rfl
      cases hquote rfl
  | case4 c cs hescape hc ih =>
    obtain ⟨m, hm, rfl⟩ := Option.map_eq_some_iff.1 h
    rw [List.cons_append, stringLength?]
    · rw [if_neg hc, ih hm]
      rfl
    · rintro d ds rfl
      cases cs with
      | nil => cases hm
      | cons e es => exact fun _ => hescape e es rfl rfl

theorem commentLength?_append {n : Nat} (h : commentLength? cs = some n) (more : List Char) :
    commentLength? (cs ++ more) = some n := by
  induction cs generalizing n with
  | nil => cases h
  | cons c cs ih =>
    cases cs with
    | nil => simp [commentLength?] at h
    | cons d ds =>
      rw [commentLength?, List.head?_cons] at h
      rw [List.cons_append, List.cons_append, commentLength?, List.head?_cons]
      split at h
      · next hend => rwa [if_pos hend]
      · next hend =>
        obtain ⟨m, hm, rfl⟩ := Option.map_eq_some_iff.1 h
        rw [if_neg hend, ← List.cons_append, ih hm]
        rfl

/-! Heredocs. -/

theorem isPrefixOf_newline {label : List Char} (hlabel : '\n' ∉ label) (cs more : List Char) :
    label.isPrefixOf (cs ++ '\n' :: more) = label.isPrefixOf cs := by
  induction label generalizing cs with
  | nil => simp
  | cons l label ih =>
    rw [List.mem_cons, not_or] at hlabel
    cases cs with
    | nil =>
      rw [List.nil_append, List.isPrefixOf_cons_cons, beq_false_of_ne (Ne.symm hlabel.1)]
      rfl
    | cons c cs =>
      rw [List.cons_append, List.isPrefixOf_cons_cons, List.isPrefixOf_cons_cons, ih hlabel.2]

/-- A label closes a heredoc only on a line that is not blank, so the newline does not matter. -/
theorem closingLabel?_newline {label : List Char} (hlabel : '\n' ∉ label)
    (hcs : Text.trimStart cs ≠ []) (more : List Char) :
    closingLabel? label (cs ++ '\n' :: more) = closingLabel? label cs := by
  have hdrop : Text.trimStart (cs ++ '\n' :: more) = Text.trimStart cs ++ '\n' :: more := by
    rw [Text.trimStart, List.dropWhile_append, if_neg (by simpa [Text.trimStart] using hcs)]
    rfl
  have htake : (cs ++ '\n' :: more).takeWhile Text.isBlank = cs.takeWhile Text.isBlank := by
    have hsplit :=
      congrArg List.length (List.takeWhile_append_dropWhile (p := Text.isBlank) (l := cs))
    have hpos : 0 < (Text.trimStart cs).length := List.length_pos_of_ne_nil hcs
    rw [List.length_append] at hsplit
    rw [List.takeWhile_append, if_neg]
    intro hall
    rw [Text.trimStart] at hpos
    omega
  rw [closingLabel?_eq, closingLabel?_eq, hdrop, htake, isPrefixOf_newline hlabel]

theorem trimStart_ne_nil_of_heredocLength? {label : List Char} (hlabel : label ≠ []) {n : Nat}
    (h : heredocLength? label cs = some n) : Text.trimStart cs ≠ [] := by
  have hcons : ∀ {c cs}, Text.trimStart cs ≠ [] → Text.trimStart (c :: cs) ≠ [] := by
    intro c cs hcs
    rw [Text.trimStart, List.dropWhile_cons]
    split
    · exact hcs
    · exact List.cons_ne_nil _ _
  induction cs generalizing n with
  | nil => cases h
  | cons c cs ih =>
    unfold heredocLength? at h
    split at h
    · next m hclosing =>
      split at hclosing
      · refine hcons fun hblank => ?_
        rw [closingLabel?_eq, hblank, List.isPrefixOf_length_pos_nil
          (List.length_pos_of_ne_nil hlabel)]
          at hclosing
        cases hclosing
      · cases hclosing
    · obtain ⟨m, hm, _⟩ := Option.map_eq_some_iff.1 h
      exact hcons (ih hm)

theorem heredocLength?_newline {label : List Char} (hne : label ≠ [])
    (hlabel : '\n' ∉ label) {n : Nat}
    (h : heredocLength? label cs = some n) (more : List Char) :
    heredocLength? label (cs ++ '\n' :: more) = some n := by
  induction cs generalizing n with
  | nil => cases h
  | cons c cs ih =>
    have hblank : c = '\n' → Text.trimStart cs ≠ [] := by
      rintro rfl
      exact (trimStart_ne_nil_of_heredocLength? hne h : Text.trimStart ('\n' :: cs) ≠ [])
    have hclosing : (if c = '\n' then closingLabel? label (cs ++ '\n' :: more) else none) =
        if c = '\n' then closingLabel? label cs else none := by
      split
      · next hc => exact closingLabel?_newline hlabel (hblank hc) more
      · rfl
    rw [heredocLength?] at h
    rw [List.cons_append, heredocLength?, hclosing]
    split at h
    · exact h
    · obtain ⟨m, hrest, rfl⟩ := Option.map_eq_some_iff.1 h
      exact congrArg (Option.map (· + 1)) (ih hrest)

theorem labelOffset_newline (cs more : List Char) :
    labelOffset (cs ++ '\n' :: more) = labelOffset cs := by
  have hblanks : (cs ++ '\n' :: more).takeWhile (· == ' ') = cs.takeWhile (· == ' ') :=
    takeWhile_newline rfl cs more
  have hdrop : (cs ++ '\n' :: more).drop (cs.takeWhile (· == ' ')).length =
      cs.drop (cs.takeWhile (· == ' ')).length ++ '\n' :: more :=
    List.drop_append_of_le_length (List.takeWhile_prefix _).length_le
  unfold labelOffset
  dsimp only
  rw [hblanks, hdrop]
  cases cs.drop (cs.takeWhile (· == ' ')).length with
  | nil => rfl
  | cons c cs =>
    rw [List.cons_append]
    split <;> split <;> simp_all

theorem heredoc?_newline (h : ∀ kind n, heredoc? cs = some (kind, n) → kind.isClosed = true)
    (more : List Char) : heredoc? (cs ++ '\n' :: more) = heredoc? cs := by
  have hname : ((cs ++ '\n' :: more).drop (labelOffset cs)).takeWhile isNameChar =
      (cs.drop (labelOffset cs)).takeWhile isNameChar := by
    rw [List.drop_append_of_le_length (labelOffset_le cs), takeWhile_newline rfl]
  have hlength : labelOffset cs + ((cs.drop (labelOffset cs)).takeWhile isNameChar).length ≤
      cs.length := by
    have hoffset := labelOffset_le cs
    have hlabel := (List.takeWhile_prefix isNameChar (l := cs.drop (labelOffset cs))).length_le
    rw [List.length_drop] at hlabel
    omega
  unfold heredoc? at h ⊢
  dsimp only at h ⊢
  rw [labelOffset_newline, hname, List.drop_append_of_le_length hlength]
  generalize hlabel : (cs.drop (labelOffset cs)).takeWhile isNameChar = label at h ⊢
  have hnewline : '\n' ∉ label := by
    intro hmem
    rw [← hlabel] at hmem
    exact absurd (List.mem_takeWhile_imp hmem) (by decide)
  split
  · rfl
  · next hne =>
    rw [if_neg hne] at h
    cases hlength : heredocLength? label (cs.drop (labelOffset cs + label.length)) with
    | some n => rw [heredocLength?_newline hne hnewline hlength]
    | none =>
      rw [hlength] at h
      cases h _ _ rfl

theorem quoted_newline {quote : Char} (hquote : quote ≠ '\\')
    (h : (quoted quote cs).1.isClosed = true)
    (more : List Char) : quoted quote (cs ++ '\n' :: more) = quoted quote cs := by
  unfold quoted at h ⊢
  cases hlength : stringLength? quote cs with
  | some n => rw [stringLength?_append hquote hlength]
  | none =>
    rw [hlength] at h
    cases h

/-! Lexemes. -/

theorem opens_newline (c : Char) (cs more : List Char) :
    opens c (cs ++ '\n' :: more) = opens c cs := by
  fun_cases opens c cs <;> try rfl
  unfold opens
  split <;> rcases cs with _ | ⟨d, _ | ⟨e, cs⟩⟩ <;> simp_all

theorem nextWord_newline (c : Char) (cs more : List Char) :
    nextWord c (cs ++ '\n' :: more) = nextWord c cs := by
  have hname : nameLength (cs ++ '\n' :: more) = nameLength cs :=
    congrArg List.length (takeWhile_newline rfl cs more)
  have hnumber : (cs ++ '\n' :: more).takeWhile isNumberChar = cs.takeWhile isNumberChar :=
    takeWhile_newline rfl cs more
  have htake : ∀ {n}, n ≤ cs.length → (cs ++ '\n' :: more).take n = cs.take n :=
    fun hn => List.take_append_of_le_length hn
  have hlength : nameLength cs ≤ cs.length := (List.takeWhile_prefix _).length_le
  simp only [nextWord, named, startsName_newline, qualifiedLength_newline, hname,
    hnumber, htake hlength, htake (qualifiedLength_le cs)]

/-- No lexeme that has its end needs to look past a newline behind the text. -/
theorem next_newline (h : (next c cs).1.isClosed = true) (more : List Char) :
    next c (cs ++ '\n' :: more) = next c cs := by
  have hline : ∀ cs, lineLength (cs ++ '\n' :: more) = lineLength cs := fun cs =>
    congrArg List.length (takeWhile_newline rfl cs more)
  by_cases hgap : isGap c = true
  · rw [next_of_isGap hgap, next_of_isGap hgap]
  revert h
  fun_cases opens c cs with
  | case1 | case4 | case6 => exact fun _ => congrArg (Prod.mk LexemeKind.lineComment) (hline _)
  | case7 | case8 | case9 => exact fun h => quoted_newline (by decide) h more
  | case2 cs =>
    intro h
    rcases cs with _ | ⟨d, cs⟩
    · rfl
    · by_cases hd : d = '<'
      · subst hd
        rw [next_heredoc] at h
        rw [List.cons_append, List.cons_append, next_heredoc, next_heredoc, heredoc?_newline]
        intro kind n hsome
        rwa [hsome] at h
      · have hangles : ∀ cs, next '<' ('<' :: d :: cs) = (.token .attrOpen, 1) := fun cs =>
          next_angles fun _ he => Option.some.inj he ▸ hd
        rw [List.cons_append, List.cons_append, hangles, hangles]
  | case5 cs =>
    intro h
    rw [next_comment] at h
    rw [List.cons_append, next_comment, next_comment]
    cases hlength : commentLength? cs with
    | none =>
      rw [hlength] at h
      cases h
    | some n => rw [commentLength?_append hlength]
  | case13 =>
    intro _
    have hopens : opens c cs = false := by simp_all [opens]
    rw [next_of_not_opens hgap hopens, next_of_not_opens hgap
      ((opens_newline c cs more).trans hopens), nextWord_newline]
  | _ => exact fun _ => rfl

/-- The lexemes of the text come first, whatever stands behind the newline. -/
theorem split_newline (more : List Char) (h : ∀ l ∈ split cs, l.kind.isClosed = true) :
    split (cs ++ '\n' :: more) = split cs ++ split ('\n' :: more) := by
  fun_induction split cs with
  | case1 => rfl
  | case2 c cs kind n hnext ih =>
    obtain ⟨hkind, hlater⟩ := List.forall_mem_cons.1 h
    have hle : n ≤ cs.length := by
      have htakes := (takes_next c cs).le
      rw [hnext] at htakes
      exact Nat.le_of_succ_le_succ htakes
    have hsame : next c (cs ++ '\n' :: more) = (kind, n) := by
      rw [next_newline (by rwa [hnext]), hnext]
    rw [List.cons_append, split, hsame]
    simp only [List.take_append_of_le_length hle, List.drop_append_of_le_length hle, ih hlater,
      List.cons_append]

end Lexeme

namespace TokenStream

theorem fault?_of_errors_eq_nil {start : Nat} {ls : List Lexeme}
    (h : (ofLexemes start ls).errors = []) :
    ∀ l ∈ ls, l.fault? = none := by
  induction ls generalizing start with
  | nil => exact fun _ hl => nomatch hl
  | cons l ls ih =>
    obtain ⟨hhere, hlater⟩ := List.append_eq_nil_iff.1 h
    refine List.forall_mem_cons.2 ⟨?_, ih hlater⟩
    simpa using hhere

end TokenStream

/-! Places further on. -/

/-- The range `n` bytes further on. -/
def Span.shift (n : Nat) (span : Span) : Span := ⟨span.lo + n, span.hi + n⟩

def Token.shift (n : Nat) (t : Token) : Token := { t with span := t.span.shift n }

def SyntaxError.shift (n : Nat) (e : SyntaxError) : SyntaxError := { e with span := e.span.shift n }

namespace TokenStream

variable {cs : List Char}

theorem ofLexemes_shift (n start : Nat) (ls : List Lexeme) :
    ofLexemes (start + n) ls =
      ⟨(ofLexemes start ls).tokens.map (Token.shift n),
        (ofLexemes start ls).errors.map (SyntaxError.shift n)⟩ := by
  induction ls generalizing start with
  | nil => rfl
  | cons l ls ih =>
    have hspan : l.spanAt (start + n) = (l.spanAt start).shift n := by
      simp only [Lexeme.spanAt, Span.shift, Nat.add_right_comm]
    have hrest : ofLexemes ((l.spanAt start).shift n).hi ls = _ := ih (l.spanAt start).hi
    simp only [ofLexemes, hspan, hrest, List.map_append]
    cases l.tokenKind? <;> cases l.fault? <;> rfl

/-- The lexer starts afresh behind the newline, which is a blank. -/
theorem ofText_newline (h : (ofText cs).errors = []) (more : List Char) :
    ofText (cs ++ '\n' :: more) =
      ⟨(ofText cs).tokens ++ (ofText more).tokens.map (Token.shift (Text.byteSize cs + 1)),
        (ofText more).errors.map (SyntaxError.shift (Text.byteSize cs + 1))⟩ := by
  have hclosed : ∀ l ∈ Lexeme.split cs, l.kind.isClosed = true := fun l hl =>
    Lexeme.isClosed_of_fault? (fault?_of_errors_eq_nil h l hl)
  have hblank : ∀ start, ofLexemes start (Lexeme.split ('\n' :: more)) =
      ofLexemes (start + 1) (Lexeme.split more) := by
    intro start
    rw [Lexeme.split]
    rfl
  have hbehind := ofLexemes_shift (Text.byteSize cs + 1) 0 (Lexeme.split more)
  rw [Nat.zero_add] at hbehind
  unfold ofText at h ⊢
  rw [Lexeme.split_newline more hclosed, ofLexemes_append, Lexeme.flatMap_text_split, Nat.zero_add,
    hblank, hbehind, h, List.nil_append]

/-- The tokens of the text stay, if nothing lacks its end. -/
theorem tokens_newline (h : (ofText cs).errors = []) (more : List Char) :
    (ofText cs).tokens <+: (ofText (cs ++ '\n' :: more)).tokens := by
  rw [ofText_newline h]
  exact List.prefix_append ..

end TokenStream

/-- Reading a source goes line by line: where nothing in `s` lacks its end, the tokens of both parts
stand one behind the other, and what is wrong is wrong behind the newline. -/
theorem tokenize_newline (s t : String) (h : (tokenize s).errors = []) :
    (tokenize (s ++ "\n" ++ t)).tokens =
        (tokenize s).tokens ++ (tokenize t).tokens.map (Token.shift (Text.byteSize s.toList + 1)) ∧
      (tokenize (s ++ "\n" ++ t)).errors =
        (tokenize t).errors.map (SyntaxError.shift (Text.byteSize s.toList + 1)) := by
  have hchars : (s ++ "\n" ++ t).toList = s.toList ++ '\n' :: t.toList := by simp
  unfold tokenize at h ⊢
  rw [hchars, TokenStream.ofText_newline h]
  exact ⟨rfl, rfl⟩

/-- A heredoc, a comment, a string with escapes and an operator at the very end are closed; the
comment behind the newline is not. -/
theorem tokenize_newline_unclosedComment :
    let s := "$x = <<<EOT\n é\n\n  EOT; /* a */ 'it\\'s' ::"
    let t := "class /* b"
    (tokenize s).errors = [] ∧ (tokenize t).errors = [SyntaxFault.unclosedComment.atSpan ⟨6, 10⟩] ∧
      (tokenize (s ++ "\n" ++ t)).tokens =
        (tokenize s).tokens ++ (tokenize t).tokens.map (Token.shift (Text.byteSize s.toList + 1)) ∧
      (tokenize (s ++ "\n" ++ t)).errors =
        (tokenize t).errors.map (SyntaxError.shift (Text.byteSize s.toList + 1)) :=
  ⟨by decide +kernel, by decide +kernel, tokenize_newline _ _ (by decide +kernel)⟩

end ModuleVisibility
