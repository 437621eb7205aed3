import ModuleVisibility.Proofs.ContinuedText
import ModuleVisibility.Proofs.Guarded.Stretch

/-!
What a heredoc hides. It ends behind its label where a line first begins with it, blanks aside,
whether or not the label is a whole name there. So a body is hidden as a whole exactly if no line of
it begins with the label, not even as the start of a longer name, and if the label does not start
with a blank itself: a blank outside ASCII can start a name, but then no line begins with it.
-/
namespace ModuleVisibility

open Lexeme Guarded

namespace Text

/-- Each line of a text that ends with a newline ends with one, which is the only one in it. -/
theorem exists_of_mem_lines {cs line : List Char} (h : line ∈ lines (cs ++ ['\n'])) :
    ∃ inside, line = inside ++ ['\n'] ∧ '\n' ∉ inside := by
  induction cs generalizing line with
  | nil => exact ⟨[], List.mem_singleton.1 h, by simp⟩
  | cons c cs ih =>
    rw [List.cons_append, lines] at h
    split at h
    · next hc =>
      rcases List.mem_cons.1 h with rfl | hlater
      · exact ⟨[], by rw [hc]; rfl, by simp⟩
      · exact ih hlater
    · next hc =>
      cases hlines : lines (cs ++ ['\n']) with
      | nil =>
        have hflatten := flatten_lines (cs ++ ['\n'])
        rw [hlines] at hflatten
        simp at hflatten
      | cons first later =>
        rw [hlines] at h ih
        rcases List.mem_cons.1 h with rfl | hlater
        · obtain ⟨inside, rfl, hinside⟩ := ih (.head _)
          exact ⟨c :: inside, rfl, by simpa [Ne.symm hc] using hinside⟩
        · exact ih (.tail _ hlater)

end Text

namespace Lexeme

variable {label cs : List Char}

/-! Closing labels. -/

instance (label line : List Char) : Decidable (ClosesHeredoc label line) :=
  inferInstanceAs (Decidable (label <+: Text.trimStart line))

theorem closesHeredoc_of_closingLabel? {n : Nat} (h : closingLabel? label cs = some n) :
    ClosesHeredoc label cs := by
  rw [closingLabel?_eq] at h
  split at h
  · next hlabel => exact List.isPrefixOf_iff_prefix.1 hlabel
  · cases h

/-- Blanks before the label do not matter. -/
theorem closingLabel?_blanks {blanks : List Char} (hblanks : ∀ c ∈ blanks, Text.isBlank c = true)
    (cs : List Char) : closingLabel? label (blanks ++ cs) =
      (closingLabel? label cs).map (blanks.length + ·) := by
  have htrim : Text.trimStart (blanks ++ cs) = Text.trimStart cs :=
    List.dropWhile_append_of_pos hblanks
  rw [closingLabel?_eq, closingLabel?_eq, htrim, List.takeWhile_append_of_pos hblanks,
    List.length_append]
  split
  · rw [Option.map_some, Nat.add_assoc]
  · rfl

/-- A label that is no blank at first is found where it stands. -/
theorem closingLabel?_label (hne : label ≠ []) (hfirst : ∀ c ∈ label.head?, Text.isBlank c = false)
    (rest : List Char) : closingLabel? label (label ++ rest) = some label.length := by
  cases label with
  | nil => exact absurd rfl hne
  | cons c label =>
    have hc : ¬ Text.isBlank c = true := by simp [hfirst c rfl]
    have htrim : Text.trimStart (c :: label ++ rest) = c :: label ++ rest :=
      List.dropWhile_cons_of_neg hc
    rw [closingLabel?_eq, htrim, if_pos (List.isPrefixOf_iff_prefix.2 (List.prefix_append ..)),
      List.cons_append, List.takeWhile_cons_of_neg hc, List.length_nil, Nat.zero_add]

/-- One that is a blank at first is found nowhere. -/
theorem closingLabel?_eq_none {c : Char} (hc : c ∈ label.head?) (hblank : Text.isBlank c = true)
    (cs : List Char) : closingLabel? label cs = none := by
  obtain ⟨label, rfl⟩ := List.head?_eq_some_iff.1 hc
  cases hclosing : closingLabel? (c :: label) cs with
  | none => rfl
  | some n =>
    obtain ⟨rest, hrest⟩ := closesHeredoc_of_closingLabel? hclosing
    have hnot := List.head?_dropWhile_not Text.isBlank cs
    rw [← Text.trimStart, ← hrest] at hnot
    exact absurd hblank (by simpa using hnot)

/-- A line that does not begin with the label is blank if the label is found from there on. -/
theorem closingLabel?_line {inside more : List Char} {n : Nat} (hnewline : '\n' ∉ label)
    (hkeeps : ¬ ClosesHeredoc label (inside ++ ['\n']))
    (h : closingLabel? label (inside ++ '\n' :: more) = some n) :
    ∃ m, closingLabel? label more = some m ∧ (inside ++ ['\n']).length + m = n := by
  by_cases hblank : ∀ c ∈ inside, Text.isBlank c = true
  · have hline : ∀ c ∈ inside ++ ['\n'], Text.isBlank c = true := by
      simpa [or_imp, forall_and] using ⟨hblank, by decide⟩
    rw [List.append_cons, closingLabel?_blanks hline] at h
    exact Option.map_eq_some_iff.1 h
  · have htrim : Text.trimStart inside ≠ [] := by
      rwa [Text.trimStart, Ne, List.dropWhile_eq_nil_iff]
    rw [closingLabel?_newline hnewline htrim] at h
    have hclosing : closingLabel? label (inside ++ ['\n']) = some n :=
      (closingLabel?_newline hnewline htrim []).trans h
    exact absurd (closesHeredoc_of_closingLabel? hclosing) hkeeps

variable {blanks : List Char}

/-- Lines that do not begin with the label are passed over, up to where it stands. -/
theorem closingLength?_lines {ls : List (List Char)} (hne : label ≠ []) (hnewline : '\n' ∉ label)
    (hfirst : ∀ c ∈ label.head?, Text.isBlank c = false)
    (hls : ∀ l ∈ ls, ∃ inside, l = inside ++ ['\n'] ∧ '\n' ∉ inside)
    (hkeeps : ∀ l ∈ ls, ¬ ClosesHeredoc label l) (hblanks : ∀ c ∈ blanks, Text.isBlank c = true)
    (rest : List Char) : closingLength? label (ls.flatten ++ (blanks ++ (label ++ rest))) =
      some (ls.flatten.length + (blanks.length + label.length)) := by
  induction ls with
  | nil =>
    rw [List.flatten_nil, List.nil_append, List.length_nil, Nat.zero_add, closingLength?,
      closingLabel?_blanks hblanks, closingLabel?_label hne hfirst]
    rfl
  | cons l ls ih =>
    obtain ⟨⟨inside, rfl, hinside⟩, hlater⟩ := List.forall_mem_cons.1 hls
    obtain ⟨hline, hkeeps⟩ := List.forall_mem_cons.1 hkeeps
    have hrest := ih hlater hkeeps
    rw [List.flatten_cons, List.append_assoc, ← List.append_cons]
    generalize ls.flatten ++ (blanks ++ (label ++ rest)) = more at hrest ⊢
    rw [closingLength?, heredocLength?_line hinside]
    cases hclosing : closingLabel? label (inside ++ '\n' :: more) with
    | some n =>
      -- The line is blank, and trimmed with what stands before the label; from the next line the
      -- same is found.
      obtain ⟨m, hm, rfl⟩ := closingLabel?_line hnewline hline hclosing
      rw [closingLength?, hm, Option.some_or] at hrest
      rw [Option.some_or, Option.some.inj hrest]
      simp only [List.length_append, Nat.add_assoc]
    | none =>
      rw [Option.none_or, hrest, Option.map_some, Nat.add_comm]
      simp only [List.length_append, Nat.add_assoc]

/-- No label is found if it is a blank at first. -/
theorem closingLength?_eq_none {c : Char} (hc : c ∈ label.head?) (hblank : Text.isBlank c = true)
    (cs : List Char) : closingLength? label cs = none := by
  have hlength : heredocLength? label cs = none := by
    induction cs with
    | nil => rfl
    | cons d cs ih => simp [heredocLength?, closingLabel?_eq_none hc hblank, ih]
  rw [closingLength?, closingLabel?_eq_none hc hblank, hlength]
  rfl

/-! Heredocs. -/

theorem labelOffset_label (hne : label ≠ []) (hlabel : ∀ c ∈ label, isNameChar c = true)
    (cs : List Char) :
    labelOffset (label ++ cs) = 0 := by
  cases label with
  | nil => exact absurd rfl hne
  | cons c label =>
    have hc : isNameChar c = true := hlabel c List.mem_cons_self
    have hspace : ¬ (c == ' ') = true := by
      rw [beq_iff_eq]
      rintro rfl
      cases hc
    have htake : (c :: (label ++ cs)).takeWhile (· == ' ') = [] := List.takeWhile_cons_of_neg hspace
    unfold labelOffset
    rw [List.cons_append, htake]
    dsimp only [List.length_nil, List.drop_zero]
    split
    · next heq =>
      cases heq
      cases hc
    · next heq =>
      cases heq
      cases hc
    · rfl

/-- The heredoc that a label opens before the end of its line. -/
theorem heredoc?_label (hne : label ≠ []) (hlabel : ∀ c ∈ label, isNameChar c = true)
    (cs : List Char) :
    heredoc? (label ++ '\n' :: cs) = some (match closingLength? label cs with
      | some n => (.token .literal, label.length + (n + 1))
      | none => (.unclosedHeredoc, (label ++ '\n' :: cs).length)) := by
  have hname : (label ++ '\n' :: cs).takeWhile isNameChar = label :=
    takeWhile_append_of_head hlabel fun c hc => by cases hc; decide
  have hlength : heredocLength? label ('\n' :: cs) = (closingLength? label cs).map (· + 1) :=
    heredocLength?_line List.not_mem_nil cs
  unfold heredoc?
  simp only [labelOffset_label hne hlabel, List.drop_zero, hname, if_neg hne,
    Nat.zero_add, List.drop_left, hlength]
  cases closingLength? label cs <;> rfl

/-- What opens a heredoc with this label. -/
def heredocHead (label : List Char) : List Char := '<' :: '<' :: '<' :: (label ++ ['\n'])

theorem not_mem_newline (hlabel : ∀ c ∈ label, isNameChar c = true) : '\n' ∉ label :=
  fun h => absurd (hlabel '\n' h) (by decide)

/-- The heredoc is one lexeme up to and with its label, and reading goes on behind it. -/
theorem split_heredoc {ls : List (List Char)} (hne : label ≠ [])
    (hlabel : ∀ c ∈ label, isNameChar c = true) (hfirst : ∀ c ∈ label.head?, Text.isBlank c = false)
    (hls : ∀ l ∈ ls, ∃ inside, l = inside ++ ['\n'] ∧ '\n' ∉ inside)
    (hkeeps : ∀ l ∈ ls, ¬ ClosesHeredoc label l) (hblanks : ∀ c ∈ blanks, Text.isBlank c = true)
    (rest : List Char) : split (heredocHead label ++ (ls.flatten ++ (blanks ++ (label ++ rest)))) =
      ⟨.token .literal, heredocHead label ++ (ls.flatten ++ (blanks ++ label))⟩ :: split rest := by
  have htext : heredocHead label ++ (ls.flatten ++ (blanks ++ (label ++ rest))) =
      '<' :: ('<' :: '<' :: (label ++ '\n' :: (ls.flatten ++ (blanks ++ label)))) ++ rest := by
    simp [heredocHead]
  have hcs : label ++ '\n' :: (ls.flatten ++ (blanks ++ label)) ++ rest =
      label ++ '\n' :: (ls.flatten ++ (blanks ++ (label ++ rest))) := by simp
  have hnext :
    next '<' ('<' :: '<' :: (label ++ '\n' :: (ls.flatten ++ (blanks ++ label))) ++ rest) =
      (.token .literal,
        ('<' :: '<' :: (label ++ '\n' :: (ls.flatten ++ (blanks ++ label)))).length) := by
    rw [List.cons_append, List.cons_append, hcs, next_heredoc, heredoc?_label hne hlabel,
      closingLength?_lines hne (not_mem_newline hlabel) hfirst hls hkeeps hblanks]
    simp
  rw [htext, split_of_next hnext]
  simp [heredocHead]

/-- Without a closing label the heredoc goes on to the end. -/
theorem split_unclosedHeredoc (hne : label ≠ []) (hlabel : ∀ c ∈ label, isNameChar c = true)
    (h : closingLength? label cs = none) :
    split (heredocHead label ++ cs) = [⟨.unclosedHeredoc, heredocHead label ++ cs⟩] := by
  have htext : heredocHead label ++ cs = '<' :: ('<' :: '<' :: (label ++ '\n' :: cs)) ++ [] := by
    simp [heredocHead]
  have hnext : next '<' ('<' :: '<' :: (label ++ '\n' :: cs) ++ []) =
      (.unclosedHeredoc, ('<' :: '<' :: (label ++ '\n' :: cs)).length) := by
    rw [List.append_nil, next_heredoc, heredoc?_label hne hlabel, h]
    simp
  rw [htext, split_of_next hnext, List.append_nil, split]

/-! What follows a heredoc. -/

/-- A character of a text stands in one of its lexemes. -/
theorem exists_lexeme {ls : List Lexeme} {before after : List Char} {c : Char}
    (h : ls.flatMap text = before ++ c :: after) : ∃ front l back inside outside,
      ls = front ++ l :: back ∧ l.text = inside ++ c :: outside ∧
        before = front.flatMap text ++ inside ∧ after = outside ++ back.flatMap text := by
  induction ls generalizing before with
  | nil => simp at h
  | cons l ls ih =>
    rw [List.flatMap_cons] at h
    obtain ⟨inside, rfl, hlater⟩ | ⟨outside, hl, hlater⟩ := List.append_eq_append_iff.1 h
    · obtain ⟨front, l', back, inside', outside, rfl, hl', rfl, rfl⟩ := ih hlater
      exact ⟨l :: front, l', back, inside', outside, rfl, hl', by simp, rfl⟩
    · cases outside with
      | nil =>
        have hnext : ls.flatMap text = [] ++ c :: after := hlater.symm
        obtain ⟨front, l', back, inside', outside, rfl, hl', hnil, rfl⟩ := ih hnext
        refine ⟨l :: front, l', back, inside', outside, rfl, hl', ?_, rfl⟩
        rw [List.flatMap_cons, List.append_assoc, ← hnil, hl]
        simp
      | cons d outside =>
        obtain ⟨rfl, rfl⟩ := List.cons_eq_cons.1 hlater
        exact ⟨[], l, ls, before, outside, rfl, hl, rfl, rfl⟩

/-- A comment that lacks its end is known to. -/
theorem unclosed_of_split {cs : List Char} {before after : List Lexeme} {l : Lexeme}
    (h : split cs = before ++ l :: after) (hopen : SyntaxFault.LeavesOpen .unclosedComment l.text)
    (hlast : after.flatMap text = []) : l.fault? = some .unclosedComment := by
  obtain ⟨c, rest, htext, hkind⟩ := kind_of_split h
  rw [hlast, List.append_nil] at htext
  rw [htext] at hopen
  cases hopen with
  | comment hbody =>
    rw [next_comment] at hkind
    split at hkind
    · next hlength =>
      obtain ⟨inside, behind, rfl, _⟩ := of_commentLength?_eq_some hlength
      exact absurd ⟨inside, behind, by simp⟩ hbody
    · rw [fault?, hkind]

theorem kinds_ofLexemes (start : Nat) (ls : List Lexeme) :
    (TokenStream.ofLexemes start ls).tokens.map Token.kind = ls.filterMap tokenKind? := by
  induction ls generalizing start with
  | nil => rfl
  | cons l ls ih =>
    rw [List.filterMap_cons]
    simp only [TokenStream.ofLexemes, List.map_append, ih]
    cases l.tokenKind? <;> rfl

theorem eq_of_spelled_punct {d : Char} {text rest : List Char}
    (h : TokenKind.Spelled (.punct d) text rest) :
    text = [d] := by
  cases h
  rfl

/-- What separates tokens and holds a name that starts a line, no slash behind it, is a comment that
lacks its end. -/
theorem leavesOpen_of_separates {inside outside rest : List Char} {c : Char}
    (hc : isNameChar c = true)
    (hinside : inside = [] ∨ '\n' ∈ inside) (houtside : '/' ∉ outside)
    (h : Separates (inside ++ c :: outside) rest) :
    SyntaxFault.LeavesOpen .unclosedComment (inside ++ c :: outside) ∧ rest = [] := by
  have hmem : c ∈ inside ++ c :: outside := by simp
  generalize htext : inside ++ c :: outside = text at h hmem ⊢
  cases h with
  | blank hblank =>
    obtain rfl := List.mem_singleton.1 hmem
    simp only [List.mem_cons, List.not_mem_nil, or_false] at hblank
    rcases hblank with rfl | rfl | rfl | rfl <;> cases hc
  | @line opening _ _ hopening hstarts hnewline hend =>
    subst htext
    rcases hinside with rfl | hinside
    · obtain ⟨behind, hbehind⟩ := hstarts
      simp only [List.mem_cons, List.not_mem_nil, or_false] at hopening
      rcases hopening with rfl | rfl | rfl <;> cases hbehind <;> cases hc
    · exact absurd (List.mem_append_left _ hinside) hnewline
  | @block body _ hbody =>
    -- The slash at the end is the name's own first character, or stands behind it.
    have hlast : (c :: outside).getLast? = some '/' := by
      have hends := congrArg List.getLast? htext
      rw [List.getLast?_append, List.getLast?_append] at hends
      simpa [commentEnd] using hends
    cases outside with
    | nil =>
      cases hlast
      cases hc
    | cons d outside =>
      rw [List.getLast?_cons_cons] at hlast
      exact absurd (List.mem_of_getLast? hlast) houtside
  | unclosed hopen => exact ⟨hopen, rfl⟩

/-- A label at the start of a line, and at the end of the text but for a semicolon, is no part of a
comment that ends: a token covers it, or what hides it lacks its end. -/
theorem not_alone_of_label {more : List Char} (hne : label ≠ [])
    (hlabel : ∀ c ∈ label, isNameChar c = true)
    (hfaults : ∀ l ∈ split (more ++ '\n' :: (label ++ [';'])), l.fault? = none) :
    (split (more ++ '\n' :: (label ++ [';']))).filterMap tokenKind? ≠ [.punct ';'] := by
  intro htokens
  obtain ⟨c, label, rfl⟩ := List.exists_cons_of_ne_nil hne
  obtain ⟨hc, hlabel⟩ := List.forall_mem_cons.1 hlabel
  have htext : (split (more ++ '\n' :: (c :: label ++ [';']))).flatMap text =
      (more ++ ['\n']) ++ c :: (label ++ [';']) := by
    rw [flatMap_text_split]
    simp
  obtain ⟨front, l, back, inside, outside, hsplit, hl, hbefore, hafter⟩ := exists_lexeme htext
  have hmem : l ∈ split (more ++ '\n' :: (c :: label ++ [';'])) := hsplit ▸ by simp
  -- The lexeme that the first character of the label belongs to is the semicolon, or no token.
  cases hkind : l.tokenKind? with
  | some kind =>
    have hpunct : kind ∈ [TokenKind.punct ';'] := htokens ▸ List.mem_filterMap.2 ⟨l, hmem, hkind⟩
    obtain rfl := List.mem_singleton.1 hpunct
    have hcl : c ∈ l.text := hl ▸ by simp
    rw [eq_of_spelled_punct (spelled_of_split hsplit hkind), List.mem_singleton] at hcl
    subst hcl
    cases hc
  | none =>
    have hinside : inside = [] ∨ '\n' ∈ inside := by
      by_cases hnil : inside = []
      · exact .inl hnil
      · have hlast := congrArg List.getLast? hbefore
        rw [List.getLast?_append_of_ne_nil _ hnil, List.getLast?_concat] at hlast
        exact .inr (List.mem_of_getLast? hlast.symm)
    have houtside : '/' ∉ outside := by
      intro hslash
      have hmem : '/' ∈ label ++ [';'] := hafter ▸ List.mem_append_left _ hslash
      rcases List.mem_append.1 hmem with hmem | hmem
      · exact absurd (hlabel _ hmem) (by decide)
      · exact absurd hmem (by decide)
    have hseparates := separates_of_split hsplit hkind
    rw [hl] at hseparates
    obtain ⟨hopen, hrest⟩ := leavesOpen_of_separates hc hinside houtside hseparates
    rw [← hl] at hopen
    have hfault := hfaults l hmem
    rw [unclosed_of_split hsplit hopen hrest] at hfault
    cases hfault

/-! Bodies. -/

/-- Whether a heredoc with this label hides this body as a whole. -/
def HidesBody (label body : List Char) : Prop :=
  (∀ c ∈ label.head?, Text.isBlank c = false) ∧
    ∀ line ∈ Text.lines (body ++ ['\n']), ¬ ClosesHeredoc label line

/-- The first line that begins with the label, and where the label stands in it. -/
theorem exists_firstLine {body : List Char} (hne : label ≠ [])
    (hlabel : ∀ c ∈ label, isNameChar c = true)
    (h : ∃ line ∈ Text.lines (body ++ ['\n']), ClosesHeredoc label line) :
    ∃ (ls : List (List Char)) (blanks more : List Char),
      body ++ ['\n'] = ls.flatten ++ (blanks ++ (label ++ (more ++ ['\n']))) ∧
        (∀ l ∈ ls, l ∈ Text.lines (body ++ ['\n']) ∧ ¬ ClosesHeredoc label l) ∧
          ∀ c ∈ blanks, Text.isBlank c = true := by
  have hsome : ((Text.lines (body ++ ['\n'])).find? fun line =>
      decide (ClosesHeredoc label line)).isSome := by
    simpa using h
  obtain ⟨line, hfind⟩ := Option.isSome_iff_exists.1 hsome
  obtain ⟨hcloses, front, back, hlines, hfront⟩ := List.find?_eq_some_iff_append.1 hfind
  obtain ⟨tail, htail⟩ := of_decide_eq_true hcloses
  have hline : line = line.takeWhile Text.isBlank ++ (label ++ tail) := by
    rw [htail]
    exact List.takeWhile_append_dropWhile.symm
  have hbody : body ++ ['\n'] =
      front.flatten ++ (line.takeWhile Text.isBlank ++ (label ++ (tail ++ back.flatten))) := by
    rw [← Text.flatten_lines (body ++ ['\n']), hlines, List.flatten_append, List.flatten_cons]
    nth_rewrite 1 [hline]
    simp only [List.append_assoc]
  obtain hnil | ⟨more, d, hmore⟩ := List.eq_nil_or_concat (tail ++ back.flatten)
  · have hlast := congrArg List.getLast? hbody
    rw [hnil, List.append_nil, List.getLast?_concat,
      List.getLast?_append_of_ne_nil _ (by simp [hne]),
      List.getLast?_append_of_ne_nil _ hne] at hlast
    exact absurd (List.mem_of_getLast? hlast.symm) (not_mem_newline hlabel)
  · rw [List.concat_eq_append] at hmore
    have hlast := congrArg List.getLast? hbody
    rw [hmore] at hlast
    obtain rfl : '\n' = d := by simpa using hlast
    refine ⟨front, line.takeWhile Text.isBlank, more, by rw [hbody, hmore], fun l hl => ⟨?_, ?_⟩,
      fun c hc => List.mem_takeWhile_imp hc⟩
    · rw [hlines]
      exact List.mem_append_left _ hl
    · simpa using hfront l hl

/-- A body that the heredoc hides is one literal with the label, and the semicolon stands behind
it. -/
theorem split_of_hidesBody {body : List Char} (hne : label ≠ [])
    (hlabel : ∀ c ∈ label, isNameChar c = true)
    (h : HidesBody label body) : split (heredocHead label ++ (body ++ ['\n']) ++ (label ++ [';'])) =
      [⟨.token .literal, heredocHead label ++ (body ++ ['\n']) ++ label⟩,
        ⟨.token (.punct ';'), [';']⟩] := by
  have hblanks : ∀ c ∈ ([] : List Char), Text.isBlank c = true := nofun
  have hsplit := split_heredoc hne hlabel h.1 (fun l => Text.exists_of_mem_lines) h.2 hblanks [';']
  rw [Text.flatten_lines, List.nil_append, List.nil_append] at hsplit
  have hbehind : split [';'] = [⟨.token (.punct ';'), [';']⟩] := by
    have hnext : next ';' [] = (.token (.punct ';'), 0) := rfl
    simp only [split, hnext, List.take_nil, List.drop_nil]
  rw [List.append_assoc, hsplit, hbehind, ← List.append_assoc]

/-- A body that it does not hide leaves more than a semicolon behind the first closing label, or the
heredoc has no end. -/
theorem hidesBody_of_split {body : List Char} (hne : label ≠ [])
    (hlabel : ∀ c ∈ label, isNameChar c = true)
    (hfaults : ∀ l ∈ split (heredocHead label ++ (body ++ ['\n']) ++ (label ++ [';'])),
      l.fault? = none)
    (hkinds : (split (heredocHead label ++ (body ++ ['\n']) ++ (label ++ [';']))).filterMap
      tokenKind? =
      [.literal, .punct ';']) : HidesBody label body := by
  have hfirst : ∀ c ∈ label.head?, Text.isBlank c = false := by
    intro c hc
    by_contra hblank
    rw [List.append_assoc, split_unclosedHeredoc hne hlabel
      (closingLength?_eq_none hc (Bool.eq_true_of_not_eq_false hblank) _)] at hfaults
    exact absurd (hfaults _ List.mem_cons_self) nofun
  refine ⟨hfirst, ?_⟩
  by_contra hlines
  simp only [not_forall, not_not, exists_prop] at hlines
  obtain ⟨ls, blanks, more, hbody, hls, hblanks⟩ := exists_firstLine hne hlabel hlines
  have hsplit := split_heredoc hne hlabel hfirst (fun l hl => Text.exists_of_mem_lines (hls l hl).1)
    (fun l hl => (hls l hl).2) hblanks (more ++ '\n' :: (label ++ [';']))
  have htext : heredocHead label ++ (body ++ ['\n']) ++ (label ++ [';']) =
      heredocHead label ++
      (ls.flatten ++ (blanks ++ (label ++ (more ++ '\n' :: (label ++ [';']))))) := by
    rw [hbody]
    simp
  rw [htext, hsplit] at hfaults hkinds
  obtain ⟨_, hbehind⟩ := List.forall_mem_cons.1 hfaults
  exact not_alone_of_label hne hlabel hbehind (List.cons_eq_cons.1 hkinds).2

end Lexeme

/-- A heredoc is one literal up to its last line, with no fault and only the semicolon behind it,
exactly if no line of its body begins with the label, whole name or not, and the label itself begins
with no blank. -/
theorem heredoc_literal_iff (label body : String) (hne : label ≠ "")
    (hlabel : ∀ c ∈ label.toList, isNameChar c = true) :
    let heredoc := "<<<" ++ label ++ "\n" ++ body ++ "\n" ++ label
    let n := Text.byteSize heredoc.toList
    let s := tokenize (heredoc ++ ";")
    (s.errors = [] ∧ s.tokens.map Token.kind = [.literal, .punct ';'] ↔
      HidesBody label.toList body.toList) ∧
        (HidesBody label.toList body.toList → s.tokens.map Token.span = [⟨0, n⟩, ⟨n, n + 1⟩]) := by
  intro heredoc n s
  have hne : label.toList ≠ [] := by simpa using hne
  have htext : heredoc.toList = heredocHead label.toList ++ (body.toList ++ ['\n']) ++
      label.toList := by
    simp [heredoc, heredocHead]
  have hs : s = TokenStream.ofLexemes 0
      (split (heredocHead label.toList ++ (body.toList ++ ['\n']) ++ (label.toList ++ [';']))) := by
    simp [s, tokenize, TokenStream.ofText, htext]
  have hhides : HidesBody label.toList body.toList →
      s = ⟨[⟨.literal, ⟨0, n⟩⟩, ⟨.punct ';', ⟨n, n + 1⟩⟩], []⟩ := by
    intro h
    rw [hs, split_of_hidesBody hne hlabel h, ← htext]
    simp only [TokenStream.ofLexemes, tokenKind?, fault?, spanAt, n, Nat.zero_add]
    rfl
  refine ⟨⟨fun h => ?_, fun h => by simp [hhides h]⟩, fun h => by simp [hhides h]⟩
  obtain ⟨herrors, hkinds⟩ := h
  rw [hs] at herrors hkinds
  rw [kinds_ofLexemes] at hkinds
  exact hidesBody_of_split hne hlabel (TokenStream.fault?_of_errors_eq_nil herrors) hkinds

/-- A label may stand further on in a line, or a part of it at the start. -/
theorem heredoc_literal_iff_query : "SQL" ≠ "" ∧ (∀ c ∈ "SQL".toList, isNameChar c = true) ∧
    (tokenize "<<<SQL\nSELECT 1;\n  -- SQL\n\nSQ\nSQL;").errors = [] :=
  have hlabel : ∀ c ∈ "SQL".toList, isNameChar c = true := List.all_eq_true.1 rfl
  have hhides : HidesBody "SQL".toList "SELECT 1;\n  -- SQL\n\nSQ".toList :=
    ⟨fun c hc => Option.mem_some.1 hc ▸ rfl, by decide⟩
  ⟨by decide, hlabel,
    ((heredoc_literal_iff "SQL" "SELECT 1;\n  -- SQL\n\nSQ" (by decide) hlabel).1.2 hhides).1⟩

/-- A line that begins with a longer name than the label is not kept. -/
theorem not_literal_of_longer_name :
    (∀ line ∈ Text.lines ("EOTX".toList ++ ['\n']), ∀ rest, Text.trimStart line =
      "EOT".toList ++ rest →
      ∃ c ∈ rest.head?, isNameChar c = true) ∧
    (tokenize "<<<EOT\nEOTX\nEOT;").tokens.map Token.kind =
      [.literal, .ident "X", .ident "EOT", .punct ';'] := by
  refine ⟨fun line hline rest hrest => ?_, by decide +kernel⟩
  obtain rfl : line = "EOTX\n".toList := List.mem_singleton.1 hline
  have happend : "EOT".toList ++ "X\n".toList = "EOT".toList ++ rest := hrest
  obtain rfl := List.append_cancel_left happend
  exact ⟨'X', rfl, rfl⟩

end ModuleVisibility
