import ModuleVisibility.Proofs.PlainLexing

/-!
What the lexemes of a text look like in it. The shapes are said without the lexer, each of a stretch
of text and of what stands behind it: the texts of tokens, what may stand between tokens, and what
runs to the end of the text for want of its own end. The next lexeme of any text has the shape of
its kind.
-/
namespace ModuleVisibility
namespace Lexeme

/-! Shapes. -/

/-- Whether a qualified name goes on here. -/
def continuesName : List Char → Bool
  | [] => false
  | c :: cs => isNameChar c || (c == '\\' && startsName cs)

/-- A qualified name behind its first character: a backslash stands before a further name. -/
inductive NameTail : List Char → Prop
  | nil : NameTail []
  | char {c cs} (hc : isNameChar c = true) (h : NameTail cs) : NameTail (c :: cs)
  | separator {c cs} (hc : isNameStart c = true) (h : NameTail (c :: cs)) :
    NameTail ('\\' :: c :: cs)

/-- The inside of a string: a backslash hides the character behind it. -/
inductive InString (quote : Char) : List Char → Prop
  | nil : InString quote []
  | escaped {cs} (c : Char) (h : InString quote cs) : InString quote ('\\' :: c :: cs)
  | char {c cs} (hquote : c ≠ quote) (hescape : c ≠ '\\') (h : InString quote cs) :
    InString quote (c :: cs)

/-- The end of a block comment. -/
def commentEnd : List Char := ['*', '/']

/-- What opens a heredoc with this label: `<<<`, blanks, perhaps a quote, and the label, a whole
name. -/
inductive OpensHeredoc (label body : List Char) : List Char → Prop
  | intro {blanks quote} (hblanks : ∀ c ∈ blanks, c = ' ') (hquote : quote ∈ [[], ['\''], ['"']])
    (hne : label ≠ []) (hlabel : ∀ c ∈ label, isNameChar c = true)
    (hend : ∀ c ∈ body.head?, isNameChar c = false) :
    OpensHeredoc label body ('<' :: '<' :: '<' :: (blanks ++ quote ++ label))

/-- The label starts behind the blanks of a line whose first character is the next one. -/
def ClosesHeredoc (label line : List Char) : Prop := label <+: Text.trimStart line

/-- No line that starts in `body` closes the heredoc, where `rest` stands behind `body`. -/
def KeepsHeredoc (label body rest : List Char) : Prop :=
  ∀ before after, body = before ++ '\n' :: after → ¬ ClosesHeredoc label (after ++ rest)

end Lexeme

open Lexeme

/-- The text of something that lacks its end, up to the end of the whole text. -/
inductive SyntaxFault.LeavesOpen : SyntaxFault → List Char → Prop
  | comment {body} (h : ¬ commentEnd <:+: body) : LeavesOpen .unclosedComment ('/' :: '*' :: body)
  | string {quote body} (hquote : quote ∈ ['\'', '"', '`'])
    (h : InString quote body ∨ ∃ inside, body = inside ++ ['\\'] ∧ InString quote inside) :
    LeavesOpen .unclosedString (quote :: body)
  | heredoc {label head body} (hopen : OpensHeredoc label body head)
    (h : KeepsHeredoc label body []) :
    LeavesOpen .unclosedHeredoc (head ++ body)

/-- The text of a token of this kind, where `rest` stands behind it. -/
inductive TokenKind.Spelled : TokenKind → List Char → List Char → Prop
  | ident {c cs rest} (hstart : isNameStart c = true ∨ c = '\\' ∧ startsName cs = true)
    (h : NameTail cs) (hend : continuesName rest = false) :
    Spelled (.ident (String.ofList (c :: cs))) (c :: cs) rest
  | variable {cs rest} (hstart : startsName cs = true) (h : ∀ c ∈ cs, isNameChar c = true)
    (hend : ∀ c ∈ rest.head?, isNameChar c = false) :
    Spelled (.variable (String.ofList cs)) ('$' :: cs) rest
  | number {c cs rest} (hstart : c.isDigit = true) (h : ∀ c ∈ cs, isNumberChar c = true)
    (hend : ∀ c ∈ rest.head?, isNumberChar c = false) : Spelled .literal (c :: cs) rest
  | string {quote body rest} (hquote : quote ∈ ['\'', '"', '`']) (h : InString quote body) :
    Spelled .literal (quote :: body ++ [quote]) rest
  | heredoc {label head body blanks rest} (hopen : OpensHeredoc label (body ++ ['\n']) head)
    (hblanks : ∀ c ∈ blanks, Text.isBlank c = true)
    (h : KeepsHeredoc label body ('\n' :: (blanks ++ label ++ rest))) :
    Spelled .literal (head ++ body ++ '\n' :: (blanks ++ label)) rest
  | unclosed {fault : SyntaxFault} {text} (hfault : fault ≠ .unclosedComment)
    (h : fault.LeavesOpen text) : Spelled .literal text []
  | doubleColon {rest} : Spelled .doubleColon [':', ':'] rest
  | arrow {rest} : Spelled .arrow ['-', '>'] rest
  | optionalArrow {rest} : Spelled .arrow ['?', '-', '>'] rest
  | attrOpen {rest} : Spelled .attrOpen ['<', '<'] rest
  | attrClose {rest} : Spelled .attrClose ['>', '>'] rest
  | punct {c rest} (hgap : isGap c = false) (hname : isNameStart c = false)
    (hdigit : c.isDigit = false)
    (hother : c ∉ ['#', '\'', '"', '`']) : Spelled (.punct c) [c] rest

/-- A stretch between tokens, where `rest` stands behind it. -/
inductive Lexeme.Separates : List Char → List Char → Prop
  | blank {c rest} (h : c ∈ [' ', '\t', '\r', '\n']) : Separates [c] rest
  | line {opening text rest} (hopening : opening ∈ [['<', '?'], ['/', '/'], ['#']])
    (htext : opening <+: text) (h : '\n' ∉ text) (hend : ∀ c ∈ rest.head?, c = '\n') :
    Separates text rest
  | block {body rest} (h : ¬ commentEnd <:+: body ++ ['*']) :
    Separates ('/' :: '*' :: body ++ commentEnd) rest
  | unclosed {text} (h : SyntaxFault.LeavesOpen .unclosedComment text) : Separates text []

namespace Lexeme

/-- A lexeme of this kind has this text before `rest`. -/
def Reads (text rest : List Char) : LexemeKind → Prop
  | .blank | .lineComment | .blockComment => Separates text rest
  | .unclosedComment => SyntaxFault.LeavesOpen .unclosedComment text ∧ rest = []
  | .token kind => kind.Spelled text rest
  | .unclosedString => SyntaxFault.LeavesOpen .unclosedString text ∧ rest = []
  | .unclosedHeredoc => SyntaxFault.LeavesOpen .unclosedHeredoc text ∧ rest = []

/-! Names. -/

theorem nameTail_take_qualifiedLength (cs : List Char) :
    NameTail (cs.take (qualifiedLength cs)) ∧
      continuesName (cs.drop (qualifiedLength cs)) = false := by
  fun_induction qualifiedLength cs with
  | case1 => exact ⟨.nil, rfl⟩
  | case2 c cs h ih =>
    rw [List.take_succ_cons, List.drop_succ_cons]
    refine ⟨?_, ih.2⟩
    by_cases hc : isNameChar c = true
    · exact .char hc ih.1
    · rw [Bool.not_eq_true] at hc
      rw [hc, Bool.false_or, Bool.and_eq_true, beq_iff_eq] at h
      obtain ⟨rfl, hstart⟩ := h
      cases cs with
      | nil => cases hstart
      | cons d ds =>
        have hd : isNameChar d = true := isNameChar_of_isNameStart hstart
        have htake : (d :: ds).take (qualifiedLength (d :: ds)) =
            d :: ds.take (qualifiedLength ds) := by
          rw [qualifiedLength, hd]
          rfl
        rw [htake] at ih ⊢
        exact .separator hstart ih.1
  | case3 c cs h => exact ⟨.nil, by simpa [continuesName] using h⟩

theorem drop_takeWhile_length (p : Char → Bool) (cs : List Char) :
    cs.drop (cs.takeWhile p).length = cs.dropWhile p := by
  rw [List.takeWhile_eq_take_findIdx_not, List.dropWhile_eq_drop_findIdx_not]
  simp [List.findIdx_le_length]

theorem qualifiedLength_le (cs : List Char) : qualifiedLength cs ≤ cs.length := by
  induction cs with
  | nil => exact Nat.le_refl 0
  | cons c cs ih =>
    unfold qualifiedLength
    split
    · exact Nat.succ_le_succ ih
    · exact Nat.zero_le _

/-- What ends a stretch of such characters is none of them. -/
theorem not_of_mem_head?_drop {p : Char → Bool} {cs : List Char} {c : Char}
    (hc : c ∈ (cs.drop (cs.takeWhile p).length).head?) : p c = false := by
  have hnot := List.head?_dropWhile_not p cs
  rw [drop_takeWhile_length] at hc
  rwa [Option.mem_def.1 hc] at hnot

theorem startsName_take {cs : List Char} (h : startsName cs = true) :
    startsName (cs.take (qualifiedLength cs)) = true := by
  cases cs with
  | nil => cases h
  | cons c cs =>
    rw [qualifiedLength, isNameChar_of_isNameStart h]
    exact h

/-! Strings and comments. -/

theorem of_stringLength?_eq_some {quote : Char} {cs : List Char} {n : Nat}
    (h : stringLength? quote cs = some n) :
    ∃ body rest, cs = body ++ quote :: rest ∧ n = body.length + 1 ∧ InString quote body := by
  fun_induction stringLength? quote cs generalizing n with
  | case1 => cases h
  | case2 c cs ih =>
    obtain ⟨m, hm, rfl⟩ := Option.map_eq_some_iff.1 h
    obtain ⟨body, rest, rfl, rfl, hbody⟩ := ih hm
    exact ⟨'\\' :: c :: body, rest, rfl, rfl, hbody.escaped c⟩
  | case3 cs =>
    cases h
    exact ⟨[], cs, rfl, rfl, .nil⟩
  | case4 c cs hescape hc ih =>
    obtain ⟨m, hm, rfl⟩ := Option.map_eq_some_iff.1 h
    obtain ⟨body, rest, rfl, rfl, hbody⟩ := ih hm
    refine ⟨c :: body, rest, rfl, rfl, hbody.char hc fun hslash => ?_⟩
    cases body with
    | nil => exact hescape _ _ hslash rfl
    | cons d body => exact hescape _ _ hslash rfl

theorem of_stringLength?_eq_none {quote : Char} {cs : List Char}
    (h : stringLength? quote cs = none) :
    InString quote cs ∨ ∃ inside, cs = inside ++ ['\\'] ∧ InString quote inside := by
  fun_induction stringLength? quote cs with
  | case1 => exact .inl .nil
  | case2 c cs ih =>
    rcases ih (Option.map_eq_none_iff.1 h) with hbody | ⟨inside, rfl, hinside⟩
    · exact .inl (hbody.escaped c)
    · exact .inr ⟨'\\' :: c :: inside, rfl, hinside.escaped c⟩
  | case3 => cases h
  | case4 c cs hescape hc ih =>
    by_cases hslash : c = '\\'
    · subst hslash
      cases cs with
      | nil => exact .inr ⟨[], rfl, .nil⟩
      | cons d cs => exact (hescape d cs rfl rfl).elim
    · rcases ih (Option.map_eq_none_iff.1 h) with hbody | ⟨inside, rfl, hinside⟩
      · exact .inl (hbody.char hc hslash)
      · exact .inr ⟨c :: inside, rfl, hinside.char hc hslash⟩

theorem commentEnd_prefix_iff {c : Char} {cs : List Char} :
    commentEnd <+: c :: cs ↔ (decide (c = '*') && cs.head? == some '/') = true := by
  cases cs with
  | nil => simp [commentEnd, List.cons_prefix_cons]
  | cons d cs =>
    rw [commentEnd, List.cons_prefix_cons, List.cons_prefix_cons]
    simp only [List.nil_prefix, and_true, List.head?_cons, Bool.and_eq_true, decide_eq_true_eq,
      beq_iff_eq, Option.some_inj]
    rw [eq_comm (a := c), eq_comm (a := d)]

theorem of_commentLength?_eq_some {cs : List Char} {n : Nat} (h : commentLength? cs = some n) :
    ∃ body rest, cs = body ++ commentEnd ++ rest ∧ n = body.length + 2 ∧
      ¬ commentEnd <:+: body ++ ['*'] := by
  induction cs generalizing n with
  | nil => cases h
  | cons c cs ih =>
    rw [commentLength?] at h
    split at h
    · next hend =>
      obtain ⟨rest, hrest⟩ := commentEnd_prefix_iff.2 hend
      cases h
      exact ⟨[], rest, hrest.symm, rfl, by decide⟩
    · next hend =>
      obtain ⟨m, hm, rfl⟩ := Option.map_eq_some_iff.1 h
      obtain ⟨body, rest, rfl, rfl, hbody⟩ := ih hm
      refine ⟨c :: body, rest, rfl, rfl, fun hinfix => ?_⟩
      rcases List.infix_cons_iff.1 hinfix with hstarts | hinfix
      · refine hend (commentEnd_prefix_iff.1 (hstarts.trans ⟨'/' :: rest, ?_⟩))
        simp [commentEnd]
      · exact hbody hinfix

theorem of_commentLength?_eq_none {cs : List Char} (h : commentLength? cs = none) :
    ¬ commentEnd <:+: cs := by
  induction cs with
  | nil => decide
  | cons c cs ih =>
    rw [commentLength?] at h
    split at h
    · cases h
    · next hend =>
      intro hinfix
      rcases List.infix_cons_iff.1 hinfix with hstarts | hinfix
      · exact hend (commentEnd_prefix_iff.1 hstarts)
      · exact ih (Option.map_eq_none_iff.1 h) hinfix

/-! Heredocs. -/

theorem closingLabel?_eq (label cs : List Char) : closingLabel? label cs =
    if label.isPrefixOf (Text.trimStart cs) then
      some ((cs.takeWhile Text.isBlank).length + label.length)
    else none := by
  rw [closingLabel?, drop_takeWhile_length]
  rfl

theorem of_closingLabel?_eq_some {label cs : List Char} {n : Nat}
    (h : closingLabel? label cs = some n) :
    ∃ blanks rest, cs = blanks ++ label ++ rest ∧ n = blanks.length + label.length ∧
      ∀ c ∈ blanks, Text.isBlank c = true := by
  rw [closingLabel?_eq] at h
  split at h
  · next hlabel =>
    obtain ⟨rest, hrest⟩ := List.isPrefixOf_iff_prefix.1 hlabel
    refine ⟨cs.takeWhile Text.isBlank, rest, ?_, (Option.some.inj h).symm,
      fun c => List.mem_takeWhile_imp⟩
    rw [List.append_assoc, hrest]
    exact List.takeWhile_append_dropWhile.symm
  · cases h

theorem not_closesHeredoc_of_closingLabel? {label cs : List Char}
    (h : closingLabel? label cs = none) :
    ¬ ClosesHeredoc label cs := by
  intro hcloses
  rw [closingLabel?_eq, if_pos (List.isPrefixOf_iff_prefix.2 hcloses)] at h
  cases h

theorem keepsHeredoc_nil (label rest : List Char) : KeepsHeredoc label [] rest := by
  intro before after h
  simp at h

theorem KeepsHeredoc.cons {label body rest : List Char} {c : Char}
    (h : KeepsHeredoc label body rest)
    (hline : c = '\n' → ¬ ClosesHeredoc label (body ++ rest)) :
    KeepsHeredoc label (c :: body) rest := by
  intro before after hbody
  cases before with
  | nil =>
    obtain ⟨hc, rfl⟩ := List.cons_eq_cons.1 hbody
    exact hline hc
  | cons d before => exact h before after (List.cons_eq_cons.1 hbody).2

/-- The line behind a newline that is passed over does not close the heredoc. -/
theorem not_closesHeredoc_of_passed {label cs : List Char} {c : Char}
    (h : (if c = '\n' then closingLabel? label cs else none) = none) (hc : c = '\n') :
    ¬ ClosesHeredoc label cs := by
  rw [if_pos hc] at h
  exact not_closesHeredoc_of_closingLabel? h

theorem of_heredocLength?_eq_some {label cs : List Char} {n : Nat}
    (h : heredocLength? label cs = some n) :
    ∃ body blanks rest, cs = body ++ '\n' :: (blanks ++ label ++ rest) ∧
      n = body.length + 1 + blanks.length + label.length ∧ (∀ c ∈ blanks, Text.isBlank c = true) ∧
        KeepsHeredoc label body ('\n' :: (blanks ++ label ++ rest)) := by
  induction cs generalizing n with
  | nil => cases h
  | cons c cs ih =>
    unfold heredocLength? at h
    split at h
    · next m hm =>
      split at hm
      · next hc =>
        obtain ⟨blanks, rest, rfl, rfl, hblanks⟩ := of_closingLabel?_eq_some hm
        refine ⟨[], blanks, rest, by rw [hc]; rfl, ?_, hblanks, keepsHeredoc_nil _ _⟩
        have := Option.some.inj h
        simp only [List.length_nil]
        omega
      · cases hm
    · next hpassed =>
      obtain ⟨m, hm, rfl⟩ := Option.map_eq_some_iff.1 h
      obtain ⟨body, blanks, rest, rfl, rfl, hblanks, hkeeps⟩ := ih hm
      refine ⟨c :: body, blanks, rest, rfl, ?_, hblanks,
        hkeeps.cons (not_closesHeredoc_of_passed hpassed)⟩
      simp only [List.length_cons]
      omega

theorem of_heredocLength?_eq_none {label cs : List Char} (h : heredocLength? label cs = none) :
    KeepsHeredoc label cs [] := by
  induction cs with
  | nil => exact keepsHeredoc_nil label []
  | cons c cs ih =>
    unfold heredocLength? at h
    split at h
    · cases h
    · next hpassed =>
      refine (ih (Option.map_eq_none_iff.1 h)).cons fun hc => ?_
      rw [List.append_nil]
      exact not_closesHeredoc_of_passed hpassed hc

/-- Blanks and perhaps a quote stand before a label. -/
theorem exists_labelOffset (cs : List Char) : ∃ blanks quote rest, cs = blanks ++ quote ++ rest ∧
    labelOffset cs = (blanks ++ quote).length ∧ (∀ c ∈ blanks, c = ' ') ∧
      quote ∈ [[], ['\''], ['"']] := by
  have hsplit : cs.takeWhile (· == ' ') ++ cs.drop (cs.takeWhile (· == ' ')).length = cs := by
    rw [drop_takeWhile_length]
    exact List.takeWhile_append_dropWhile
  have hblanks : ∀ c ∈ cs.takeWhile (· == ' '), c = ' ' := fun c hc => by
    simpa using List.mem_takeWhile_imp hc
  unfold labelOffset
  generalize cs.takeWhile (· == ' ') = blanks at hsplit hblanks ⊢
  dsimp only
  split
  · next rest hdrop =>
    rw [hdrop] at hsplit
    exact ⟨blanks, ['\''], rest, by simp [← hsplit], by simp, hblanks, by simp⟩
  · next rest hdrop =>
    rw [hdrop] at hsplit
    exact ⟨blanks, ['"'], rest, by simp [← hsplit], by simp, hblanks, by simp⟩
  · exact ⟨blanks, [], cs.drop blanks.length, by simp [hsplit], by simp, hblanks, by simp⟩

theorem labelOffset_le (cs : List Char) : labelOffset cs ≤ cs.length := by
  obtain ⟨blanks, quote, rest, hcs, hoffset, _⟩ := exists_labelOffset cs
  rw [hoffset, hcs]
  exact (List.prefix_append ..).length_le

/-- Behind `<<<`, a label that is not empty opens a heredoc. -/
theorem exists_opensHeredoc {cs label : List Char}
    (hlabel : (cs.drop (labelOffset cs)).takeWhile isNameChar = label) (hne : label ≠ []) :
    ∃ head, cs = head ++ cs.drop (labelOffset cs + label.length) ∧
      head.length = labelOffset cs + label.length ∧
        OpensHeredoc label (cs.drop (labelOffset cs + label.length))
    ('<' :: '<' :: '<' :: head) := by
  obtain ⟨blanks, quote, rest, hcs, hoffset, hblanks, hquote⟩ := exists_labelOffset cs
  have hdrop : cs.drop (labelOffset cs) = rest := by
    rw [hoffset, hcs]
    exact List.drop_left
  have hbody : cs.drop (labelOffset cs + label.length) = rest.drop label.length := by
    rw [← List.drop_drop, hdrop]
  rw [hdrop] at hlabel
  have hrest : rest = label ++ rest.drop label.length := by
    rw [← hlabel, drop_takeWhile_length]
    exact List.takeWhile_append_dropWhile.symm
  rw [hbody]
  refine ⟨blanks ++ quote ++ label, ?_, ?_, hblanks, hquote, hne, fun c hc => ?_, fun c hc => ?_⟩
  · rw [List.append_assoc _ label, ← hrest]
    exact hcs
  · rw [hoffset, List.length_append]
  · rw [← hlabel] at hc
    exact List.mem_takeWhile_imp hc
  · rw [← hlabel] at hc
    exact not_of_mem_head?_drop hc

/-! Lexemes. -/

/-- Whether an operator of several characters, a comment or a string starts here. -/
def opens (c : Char) (cs : List Char) : Bool :=
  match c, cs with
  | '<', '?' :: _ | '<', '<' :: _ | '>', '>' :: _ | '/', '/' :: _ | '/', '*' :: _ | '#', _
  | '\'', _ | '"', _ | '`', _ | ':', ':' :: _ | '-', '>' :: _ | '?', '-' :: '>' :: _ => true
  | _, _ => false

/-- The lexeme of a word, a number or a single character. -/
def nextWord (c : Char) (cs : List Char) : LexemeKind × Nat :=
  if c = '$' && startsName cs then
    (.token (.variable (String.ofList (cs.take (nameLength cs)))), nameLength cs)
  else if c.isDigit then (.token .literal, (cs.takeWhile isNumberChar).length)
  else if (c = '\\' && startsName cs) || isNameStart c then named c cs (qualifiedLength cs)
  else (.token (.punct c), 0)

theorem next_of_isGap {c : Char} (h : isGap c = true) (cs : List Char) :
    next c cs = (.blank, 0) := by
  unfold next
  rw [if_pos h]

theorem next_of_not_opens {c : Char} {cs : List Char} (hgap : ¬ isGap c = true)
    (h : opens c cs = false) : next c cs = nextWord c cs := by
  unfold next
  rw [if_neg hgap]
  split
  case h_14 => rfl
  all_goals cases h

theorem next_heredoc (cs : List Char) : next '<' ('<' :: '<' :: cs) =
    match heredoc? cs with
    | some (kind, n) => (kind, n + 2)
    | none => (.token .attrOpen, 1) := rfl

theorem next_comment (cs : List Char) : next '/' ('*' :: cs) =
    match commentLength? cs with
    | some n => (.blockComment, n + 1)
    | none => (.unclosedComment, cs.length + 1) := rfl

/-- The lexeme takes a stretch off the front of the text, of the shape that its kind has. -/
structure Takes (cs : List Char) (kind : LexemeKind) (n : Nat) : Prop where
  le : n ≤ cs.length
  reads : Reads (cs.take n) (cs.drop n) kind

theorem takes_of_append (text : List Char) {rest : List Char} {kind : LexemeKind} {n : Nat}
    (hn : n = text.length) (h : Reads text rest kind) : Takes (text ++ rest) kind n := by
  subst hn
  exact ⟨by simp, by simpa using h⟩

theorem OpensHeredoc.congr {label body body' head : List Char} (h : OpensHeredoc label body head)
    (hbody : body'.head? = body.head?) : OpensHeredoc label body' head := by
  cases h with
  | intro hblanks hquote hne hlabel hend =>
    exact .intro hblanks hquote hne hlabel fun c hc => hend c (hbody ▸ hc)

theorem takes_heredoc {cs : List Char} {kind : LexemeKind} {n : Nat}
    (h : heredoc? cs = some (kind, n)) :
    Takes ('<' :: '<' :: '<' :: cs) kind (n + 3) := by
  unfold heredoc? at h
  dsimp only at h
  split at h
  · cases h
  · next hne =>
    obtain ⟨head, hcs, hlength, hopens⟩ := exists_opensHeredoc rfl hne
    generalize (cs.drop (labelOffset cs)).takeWhile isNameChar = label at h hcs hlength hopens
    generalize cs.drop (labelOffset cs + label.length) = behind at h hcs hopens
    subst hcs
    split at h
    · next m hm =>
      obtain ⟨body, blanks, rest, rfl, rfl, hblanks, hkeeps⟩ := of_heredocLength?_eq_some hm
      cases h
      have hhead : (body ++ ['\n']).head? = (body ++ '\n' :: (blanks ++ label ++ rest)).head? := by
        cases body <;> rfl
      have hspelled : Reads ('<' :: '<' :: '<' :: head ++ body ++ '\n' :: (blanks ++ label)) rest
          (.token .literal) := .heredoc (hopens.congr hhead) hblanks hkeeps
      have htext : '<' :: '<' :: '<' :: (head ++ (body ++ '\n' :: (blanks ++ label ++ rest))) =
          ('<' :: '<' :: '<' :: head ++ body ++ '\n' :: (blanks ++ label)) ++ rest := by simp
      rw [htext]
      refine takes_of_append _ ?_ hspelled
      simp only [List.length_append, List.length_cons]
      omega
    · next hm =>
      cases h
      have hopen :
          SyntaxFault.LeavesOpen .unclosedHeredoc (('<' :: '<' :: '<' :: head) ++ behind) :=
        .heredoc hopens (of_heredocLength?_eq_none hm)
      have htakes : Takes (('<' :: '<' :: '<' :: head ++ behind) ++ []) .unclosedHeredoc
          ((head ++ behind).length + 3) := takes_of_append _ rfl ⟨hopen, rfl⟩
      rwa [List.append_nil] at htakes

theorem takes_quoted {quote : Char} (hquote : quote ∈ ['\'', '"', '`']) (cs : List Char) :
    Takes (quote :: cs) (quoted quote cs).1 ((quoted quote cs).2 + 1) := by
  unfold quoted
  split
  · next n hn =>
    obtain ⟨body, rest, rfl, rfl, hbody⟩ := of_stringLength?_eq_some hn
    have hspelled : Reads (quote :: body ++ [quote]) rest (.token .literal) := .string hquote hbody
    have htext : quote :: (body ++ quote :: rest) = (quote :: body ++ [quote]) ++ rest := by simp
    rw [htext]
    exact takes_of_append _ (by simp) hspelled
  · next hnone =>
    have hopen : SyntaxFault.LeavesOpen .unclosedString (quote :: cs) :=
      .string hquote (of_stringLength?_eq_none hnone)
    have htakes : Takes ((quote :: cs) ++ []) .unclosedString (cs.length + 1) :=
      takes_of_append _ rfl ⟨hopen, rfl⟩
    rwa [List.append_nil] at htakes

theorem takes_comment (cs : List Char) :
    Takes ('/' :: '*' :: cs) (next '/' ('*' :: cs)).1 ((next '/' ('*' :: cs)).2 + 1) := by
  rw [next_comment]
  cases hlength : commentLength? cs with
  | some n =>
    obtain ⟨body, rest, rfl, rfl, hbody⟩ := of_commentLength?_eq_some hlength
    have hblock : Reads ('/' :: '*' :: body ++ commentEnd) rest .blockComment := .block hbody
    have htext : '/' :: '*' :: (body ++ commentEnd ++ rest) =
        ('/' :: '*' :: body ++ commentEnd) ++ rest := rfl
    rw [htext]
    refine takes_of_append _ ?_ hblock
    simp [commentEnd]
  | none =>
    have hopen : SyntaxFault.LeavesOpen .unclosedComment ('/' :: '*' :: cs) :=
      .comment (of_commentLength?_eq_none hlength)
    have htakes : Takes (('/' :: '*' :: cs) ++ []) .unclosedComment (cs.length + 2) :=
      takes_of_append _ rfl ⟨hopen, rfl⟩
    rwa [List.append_nil] at htakes

theorem takes_cons {c : Char} {cs : List Char} {kind : LexemeKind} {n : Nat} (hn : n ≤ cs.length)
    (h : Reads (c :: cs.take n) (cs.drop n) kind) : Takes (c :: cs) kind (n + 1) :=
  ⟨Nat.succ_le_succ hn, h⟩

theorem take_takeWhile_length (p : Char → Bool) (cs : List Char) :
    cs.take (cs.takeWhile p).length = cs.takeWhile p :=
  (List.prefix_iff_eq_take.1 (List.takeWhile_prefix p)).symm

theorem takes_line {c : Char} {cs opening : List Char}
    (hopening : opening ∈ [['<', '?'], ['/', '/'], ['#']]) (htext : opening <+: c :: cs) :
    Takes (c :: cs) .lineComment (lineLength cs + 1) := by
  have hline : ∀ d ∈ opening, (d != '\n') = true := by
    simp only [List.mem_cons, List.not_mem_nil, or_false] at hopening
    rcases hopening with rfl | rfl | rfl <;> simp
  have hc : (c != '\n') = true := by
    simp only [List.mem_cons, List.not_mem_nil, or_false] at hopening
    rcases hopening with rfl | rfl | rfl <;> rw [← (List.cons_prefix_cons.1 htext).1] <;> decide
  have htake : c :: cs.takeWhile (· != '\n') = (c :: cs).takeWhile (· != '\n') := by
    rw [List.takeWhile_cons, if_pos hc]
  refine takes_cons (List.takeWhile_prefix _).length_le ?_
  rw [lineLength, take_takeWhile_length, htake]
  refine .line hopening ?_ (fun hnewline => ?_) fun d hd => ?_
  · obtain ⟨behind, hbehind⟩ := htext
    rw [← hbehind, List.takeWhile_append_of_pos hline]
    exact List.prefix_append ..
  · simpa using List.mem_takeWhile_imp hnewline
  · simpa using not_of_mem_head?_drop hd

/-- Where no other lexeme starts, a word, a number or a single character is taken. -/
theorem takes_nextWord {c : Char} {cs : List Char} (hgap : isGap c = false)
    (hother : c ∉ ['#', '\'', '"', '`']) :
    Takes (c :: cs) (nextWord c cs).1 ((nextWord c cs).2 + 1) := by
  unfold nextWord
  split
  · next hdollar =>
    rw [Bool.and_eq_true, decide_eq_true_eq] at hdollar
    obtain ⟨rfl, hstart⟩ := hdollar
    refine takes_cons (List.takeWhile_prefix _).length_le
      (.variable ?_ (fun c hc => ?_) fun c hc => ?_)
    · rw [nameLength, take_takeWhile_length]
      cases cs with
      | nil => cases hstart
      | cons c cs =>
        rw [List.takeWhile_cons_of_pos (isNameChar_of_isNameStart hstart)]
        exact hstart
    · rw [nameLength, take_takeWhile_length] at hc
      exact List.mem_takeWhile_imp hc
    · exact not_of_mem_head?_drop hc
  · split
    · next hdigit =>
      refine takes_cons (List.takeWhile_prefix _).length_le
        (.number hdigit (fun c hc => ?_) fun c hc => not_of_mem_head?_drop hc)
      rw [take_takeWhile_length] at hc
      exact List.mem_takeWhile_imp hc
    · next hdigit =>
      split
      · next hname =>
        obtain ⟨htail, hend⟩ := nameTail_take_qualifiedLength cs
        refine takes_cons (qualifiedLength_le cs) (.ident ?_ htail hend)
        rw [Bool.or_eq_true, Bool.and_eq_true, decide_eq_true_eq] at hname
        exact hname.symm.imp_right (And.imp_right startsName_take)
      · next hname =>
        rw [Bool.or_eq_true, not_or] at hname
        exact takes_cons (Nat.zero_le _)
          (.punct hgap (Bool.not_eq_true _ ▸ hname.2) (Bool.not_eq_true _ ▸ hdigit) hother)

theorem takes_next (c : Char) (cs : List Char) :
    Takes (c :: cs) (next c cs).1 ((next c cs).2 + 1) := by
  cases hgap : isGap c with
  | true =>
    rw [next_of_isGap hgap]
    refine takes_cons (Nat.zero_le _) (.blank ?_)
    simpa [isGap, or_assoc] using hgap
  | false =>
    fun_cases opens c cs with
    | case1 => exact takes_line (.head _) ⟨_, rfl⟩
    | case2 cs =>
      have hangles : Takes ('<' :: '<' :: cs) (.token .attrOpen) 2 :=
        takes_of_append ['<', '<'] rfl .attrOpen
      rcases cs with _ | ⟨d, cs⟩
      · exact hangles
      · by_cases hd : d = '<'
        · subst hd
          rw [next_heredoc]
          cases hheredoc : heredoc? cs with
          | none => exact hangles
          | some found => exact takes_heredoc hheredoc
        · have hhead : ∀ e ∈ (d :: cs).head?, e ≠ '<' := fun e he => Option.some.inj he ▸ hd
          rw [next_angles hhead]
          exact hangles
    | case4 => exact takes_line (.tail _ (.head _)) ⟨_, rfl⟩
    | case5 => exact takes_comment _
    | case6 => exact takes_line (.tail _ (.tail _ (.head _))) ⟨_, rfl⟩
    | case7 => exact takes_quoted (.head _) _
    | case8 => exact takes_quoted (.tail _ (.head _)) _
    | case9 => exact takes_quoted (.tail _ (.tail _ (.head _))) _
    | case3 => exact takes_of_append ['>', '>'] rfl .attrClose
    | case10 => exact takes_of_append [':', ':'] rfl .doubleColon
    | case11 => exact takes_of_append ['-', '>'] rfl .arrow
    | case12 => exact takes_of_append ['?', '-', '>'] rfl .optionalArrow
    | case13 =>
      have hopens : opens c cs = false := by simp_all [opens]
      rw [next_of_not_opens (by simp [hgap]) hopens]
      refine takes_nextWord hgap ?_
      simp_all

end Lexeme
end ModuleVisibility
