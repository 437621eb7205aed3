import ModuleVisibility.Proofs.Guarded.Stretch

/-!
The offset lexer reads what the lexer reads: a round that starts where a lexeme starts ends where
that lexeme ends and meets no trap, so the rounds together give the token stream of the text.
-/
namespace ModuleVisibility

namespace Lexeme

/-- The next lexeme by the openings of the text, tried one after the other. -/
theorem next_eq (c : Char) (cs : List Char) : next c cs =
    if isGap c then (.blank, 0)
    else if ['<', '?'].isPrefixOf (c :: cs) then (.lineComment, lineLength cs)
    else if ['<', '<', '<'].isPrefixOf (c :: cs) then
      match heredoc? (cs.drop 2) with
      | some (kind, n) => (kind, n + 2)
      | none => (.token .attrOpen, 1)
    else if ['<', '<'].isPrefixOf (c :: cs) then (.token .attrOpen, 1)
    else if ['>', '>'].isPrefixOf (c :: cs) then (.token .attrClose, 1)
    else if ['/', '/'].isPrefixOf (c :: cs) then (.lineComment, lineLength cs)
    else if c = '#' then (.lineComment, lineLength cs)
    else if ['/', '*'].isPrefixOf (c :: cs) then
      match commentLength? cs.tail with
      | some n => (.blockComment, n + 1)
      | none => (.unclosedComment, cs.length)
    else if c = '\'' ∨ c = '"' ∨ c = '`' then quoted c cs
    else if [':', ':'].isPrefixOf (c :: cs) then (.token .doubleColon, 1)
    else if ['-', '>'].isPrefixOf (c :: cs) then (.token .arrow, 1)
    else if ['?', '-', '>'].isPrefixOf (c :: cs) then (.token .arrow, 2)
    else nextWord c cs := by
  by_cases hgap : isGap c = true
  · rw [next_of_isGap hgap, if_pos hgap]
  cases hopens : opens c cs with
  | true =>
    fun_cases opens c cs with
    | case1 | case3 | case4 | case5 | case6 | case7 | case8 | case9 | case10 | case11 | case12 =>
      rfl
    | case2 cs =>
      rcases cs with _ | ⟨d, cs⟩
      · rfl
      · by_cases hd : d = '<'
        · subst hd
          rfl
        · simp [next, hd, Ne.symm hd, List.isPrefixOf, isGap]
    | case13 => simp [opens] at hopens
  | false =>
    have hopen : ∀ {a opening}, (∀ rest, opens a (opening ++ rest) = true) →
        ¬ (a :: opening).isPrefixOf (c :: cs) = true := by
      intro a opening hall h
      obtain ⟨rest, hrest⟩ := List.isPrefixOf_iff_prefix.1 h
      obtain ⟨rfl, rfl⟩ := List.cons.inj hrest
      cases (hall rest).symm.trans hopens
    have hhash : ¬ c = '#' := fun h => by
      rw [h] at hopens
      cases hopens
    have hquote : ¬ (c = '\'' ∨ c = '"' ∨ c = '`') := fun h => by
      rcases h with rfl | rfl | rfl <;> cases hopens
    rw [next_of_not_opens hgap hopens, if_neg hgap, if_neg (hopen fun _ => rfl),
      if_neg (hopen fun _ => rfl),
      if_neg (hopen fun _ => rfl), if_neg (hopen fun _ => rfl),
      if_neg (hopen fun _ => rfl), if_neg hhash,
      if_neg (hopen fun _ => rfl), if_neg hquote, if_neg (hopen fun _ => rfl),
      if_neg (hopen fun _ => rfl),
      if_neg (hopen fun _ => rfl)]

end Lexeme

namespace Guarded

open Text (byteSize)

/-! Rounds. -/

/-- The round that reads a lexeme at `start`. -/
def LexStep.ofLexeme (start : Nat) (l : Lexeme) : LexStep :=
  ⟨(l.spanAt start).hi, l.tokenKind?.map (⟨·, l.spanAt start⟩),
    l.fault?.map (·.atSpan (l.spanAt start))⟩

section

variable {source text rest cs : List Char} {c : Char} {start : Nat}
  (hsize : byteSize source < 2 ^ 32)
include hsize

theorem TextAt.spanOf_eq (h : TextAt source start (text ++ rest)) :
    LexStep.spanOf start (start + byteSize text) = ⟨start, start + byteSize text⟩ := by
  have hend := h.byteSize_eq
  rw [Text.byteSize_append] at hend
  rw [LexStep.spanOf, toU32_of_lt (by omega), toU32_of_lt (by omega)]

theorem TextAt.token_eq (h : TextAt source start (text ++ rest)) (kind : TokenKind) :
    LexStep.token kind start (start + byteSize text) = .ofLexeme start ⟨.token kind, text⟩ := by
  rw [LexStep.token, h.spanOf_eq hsize]
  rfl

theorem TextAt.unclosed_eq (h : TextAt source start text) {l : Lexeme} (htext : l.text = text)
    {fault : SyntaxFault} (hfault : l.fault? = some fault) :
    LexStep.unclosed l.tokenKind? fault start (byteSize source) = .ofLexeme start l := by
  have hall : TextAt source start (text ++ []) := by rwa [List.append_nil]
  rw [LexStep.unclosed, h.byteSize_eq, hall.spanOf_eq hsize, LexStep.ofLexeme, hfault,
    Lexeme.spanAt, htext]
  rfl

omit hsize in
theorem TextAt.lineComment (h : TextAt source start (c :: cs)) (hc : c ≠ '\n') :
    lineComment source start =
    .ok (.ofLexeme start ⟨.lineComment, c :: cs.take (Lexeme.lineLength cs)⟩) := by
  rw [Guarded.lineComment, h.skipWhile (byteWise_bne rfl), ok_bind, List.takeWhile_cons,
    if_pos (bne_iff_ne.2 hc), Lexeme.lineLength, Lexeme.take_takeWhile_length]
  rfl

theorem TextAt.blockComment (h : TextAt source start ('/' :: '*' :: cs)) :
    blockComment source start =
    .ok (.ofLexeme start ⟨(Lexeme.next '/' ('*' :: cs)).1,
      '/' :: ('*' :: cs).take (Lexeme.next '/' ('*' :: cs)).2⟩) := by
  have hinside : TextAt source (start + 2) cs := (h.next_narrow rfl).next_narrow rfl
  have hfind := find?_comment cs
  rw [Guarded.blockComment, hinside.textFrom, ok_bind, Lexeme.next_comment]
  cases hlength : Lexeme.commentLength? cs with
  | none =>
    rw [hlength, Option.map_none, Option.map_eq_none_iff] at hfind
    rw [hfind, length_bytes]
    dsimp only
    rw [List.take_succ_cons, List.take_length]
    exact congrArg Except.ok (h.unclosed_eq hsize (l := ⟨.unclosedComment, _⟩) rfl rfl)
  | some n =>
    rw [hlength, Option.map_some, Option.map_eq_some_iff] at hfind
    obtain ⟨offset, hoffset, hsum⟩ := hfind
    have hend : start + (2 + offset + 2) = start + byteSize ('/' :: '*' :: cs.take n) := by
      rw [Text.byteSize_cons, Text.byteSize_cons, ← hsum]
      have hslash : ('/').utf8Size = 1 := rfl
      have hstar : ('*').utf8Size = 1 := rfl
      omega
    rw [hoffset]
    dsimp only
    rw [hend]
    rfl

theorem TextAt.string (h : TextAt source start (c :: cs)) (hc : c = '\'' ∨ c = '"' ∨ c = '`') :
    string source start c =
      .ok (.ofLexeme start ⟨(Lexeme.quoted c cs).1, c :: cs.take (Lexeme.quoted c cs).2⟩) := by
  have hwide : Text.isWide c = false := by rcases hc with rfl | rfl | rfl <;> rfl
  have hescape : c ≠ '\\' := by rcases hc with rfl | rfl | rfl <;> decide
  have hinside := h.next_narrow hwide
  have hends := hinside.stringEnds hwide hescape
  rw [Guarded.string, Lexeme.quoted]
  cases hlength : Lexeme.stringLength? c cs with
  | none =>
    rw [hlength] at hends
    obtain ⟨stop, hstop, hfound⟩ := hends
    rw [hfound, ok_bind]
    dsimp only
    rw [List.take_length, length_bytes, Nat.min_eq_right hstop]
    exact congrArg Except.ok (h.unclosed_eq hsize (l := ⟨.unclosedString, _⟩) rfl rfl)
  | some n =>
    rw [hlength] at hends
    have htext : TextAt source start ((c :: cs.take n) ++ cs.drop n) := by
      rwa [List.cons_append, List.take_append_drop]
    have hone : c.utf8Size = 1 := utf8Size_of_narrow hwide
    rw [hends, ok_bind]
    dsimp only
    rw [if_pos rfl, Nat.add_assoc, ← hone]
    exact congrArg Except.ok (htext.token_eq hsize _)

omit hsize in
theorem TextAt.labelStart (h : TextAt source start cs) :
    labelStart source start = .ok (start + byteSize (cs.take (Lexeme.labelOffset cs))) := by
  have hbehind := (h.split (· == ' ')).skip
  rw [Guarded.labelStart, h.skipBlanks, ok_bind, hbehind.bytes.getElem?, Lexeme.labelOffset,
    Lexeme.drop_takeWhile_length]
  cases hrest : cs.dropWhile (· == ' ') with
  | nil =>
    rw [Lexeme.take_takeWhile_length]
    rfl
  | cons d ds =>
    obtain ⟨b, bs, hb⟩ := exists_encode_eq d
    have hquote : ByteWise fun c => c == '\'' || c == '"' := byteWise_of_narrow fun c hc => by
      rcases Bool.or_eq_true_iff.1 hc with hc | hc <;> rw [beq_iff_eq.1 hc] <;> rfl
    have hsame : (b == '\'' || b == '"') = (d == '\'' || d == '"') :=
      hquote.eq_of_mem_encode (hb ▸ List.mem_cons_self)
    have htake : cs.take ((cs.takeWhile (· == ' ')).length + 1) =
        cs.takeWhile (· == ' ') ++ [d] := by
      have hcs : (cs.takeWhile (· == ' ') ++ [d]) ++ ds = cs := by
        rw [List.append_assoc, List.singleton_append, ← hrest, List.takeWhile_append_dropWhile]
      have hlength : (cs.takeWhile (· == ' ')).length + 1 =
          (cs.takeWhile (· == ' ') ++ [d]).length := by
        rw [List.length_append, List.length_singleton]
      rw [hlength]
      exact (List.prefix_iff_eq_take.1 ⟨ds, hcs⟩).symm
    rw [bytes_cons, hb, List.cons_append, List.head?_cons, Option.any_some, hsame]
    by_cases hd : d = '\'' ∨ d = '"'
    · rcases hd with rfl | rfl <;> simp only [htake, Text.byteSize_append, ← Nat.add_assoc] <;> rfl
    · rw [if_neg (by simpa using hd)]
      split
      · next heq => exact absurd (.inl (List.cons.inj heq).1) hd
      · next heq => exact absurd (.inr (List.cons.inj heq).1) hd
      · rw [Lexeme.take_takeWhile_length]
        rfl

omit hsize in
theorem TextAt.behindName (h : TextAt source start cs) :
    TextAt source (start + byteSize (cs.takeWhile Lexeme.isNameChar))
      (cs.drop (cs.takeWhile Lexeme.isNameChar).length) := by
  rw [Lexeme.drop_takeWhile_length]
  exact (h.split Lexeme.isNameChar).skip

/-- What `<<<` begins: a heredoc, or a pair of angles where there is no label. -/
theorem TextAt.heredoc (h : TextAt source start ('<' :: '<' :: '<' :: cs)) : heredoc source start =
    .ok (.ofLexeme start ⟨(Lexeme.next '<' ('<' :: '<' :: cs)).1,
      '<' :: ('<' :: '<' :: cs).take (Lexeme.next '<' ('<' :: '<' :: cs)).2⟩) := by
  have hbehind : TextAt source (start + 3) cs :=
    ((h.next_narrow rfl).next_narrow rfl).next_narrow rfl
  have hend := hbehind.byteSize_eq
  have hlabel : TextAt source (start + 3 + byteSize (cs.take (Lexeme.labelOffset cs)))
      (cs.drop (Lexeme.labelOffset cs)) := TextAt.skip (by rwa [List.take_append_drop])
  rw [Guarded.heredoc, hbehind.labelStart, ok_bind, hlabel.name, ok_bind, Lexeme.next_heredoc,
    Lexeme.heredoc?]
  dsimp only
  generalize hname : (cs.drop (Lexeme.labelOffset cs)).takeWhile Lexeme.isNameChar = label
  by_cases hnone : label = []
  · rw [if_pos hnone, if_pos hnone, toU32_of_lt (by omega), addU32_of_lt (by omega)]
    rfl
  · rw [if_neg hnone, if_neg hnone]
    have hbody :
      TextAt source (start + 3 + byteSize (cs.take (Lexeme.labelOffset cs)) + byteSize label)
        (cs.drop (Lexeme.labelOffset cs + label.length)) := by
      rw [← hname, ← List.drop_drop]
      exact hlabel.behindName
    rw [hbody.heredocClosing, ok_bind]
    cases hlength :
      Lexeme.heredocLength? label (cs.drop (Lexeme.labelOffset cs + label.length)) with
    | none =>
      simp only [behind, Option.map_none, length_bytes]
      rw [List.take_succ_cons, List.take_succ_cons, List.take_length]
      exact congrArg Except.ok (h.unclosed_eq hsize (l := ⟨.unclosedHeredoc, _⟩) rfl rfl)
    | some n =>
      have htake : cs.take (Lexeme.labelOffset cs + label.length + n) =
          cs.take (Lexeme.labelOffset cs) ++ label ++
            (cs.drop (Lexeme.labelOffset cs + label.length)).take n := by
        rw [List.take_add, List.take_add, ← hname, Lexeme.take_takeWhile_length]
      have htext : TextAt source start
          (('<' :: '<' :: '<' :: cs.take (Lexeme.labelOffset cs + label.length + n)) ++
            cs.drop (Lexeme.labelOffset cs + label.length + n)) := by
        rwa [List.cons_append, List.cons_append, List.cons_append, List.take_append_drop]
      have hpos : start + byteSize
        ('<' :: '<' :: '<' :: cs.take (Lexeme.labelOffset cs + label.length + n)) =
          start + 3 + byteSize (cs.take (Lexeme.labelOffset cs)) + byteSize label +
            byteSize ((cs.drop (Lexeme.labelOffset cs + label.length)).take n) := by
        have hone : ('<').utf8Size = 1 := rfl
        rw [htake, Text.byteSize_cons, Text.byteSize_cons, Text.byteSize_cons, Text.byteSize_append,
          Text.byteSize_append, hone]
        omega
      simp only [behind, Option.map_some]
      rw [← hpos, List.take_succ_cons, List.take_succ_cons]
      exact congrArg Except.ok (htext.token_eq hsize _)

theorem TextAt.variableName (h : TextAt source start ('$' :: cs)) : variableName source start =
    .ok (.ofLexeme start ⟨.token (.variable (String.ofList (cs.take (Lexeme.nameLength cs)))),
      '$' :: cs.take (Lexeme.nameLength cs)⟩) := by
  have hinside := h.next_narrow rfl
  have htext : TextAt source start
      (('$' :: cs.takeWhile Lexeme.isNameChar) ++ cs.dropWhile Lexeme.isNameChar) := by
    rwa [List.cons_append, List.takeWhile_append_dropWhile]
  rw [Guarded.variableName, hinside.name, ok_bind, Lexeme.nameLength, Lexeme.take_takeWhile_length]
  dsimp only
  rw [Nat.add_assoc]
  exact congrArg Except.ok (htext.token_eq hsize _)

theorem TextAt.number (h : TextAt source start (c :: cs)) (hc : c.isDigit = true) :
    number source start =
    .ok (.ofLexeme start ⟨.token .literal,
      c :: cs.take (cs.takeWhile Lexeme.isNumberChar).length⟩) := by
  have htest : Lexeme.isNumberChar c = true := by simp [Lexeme.isNumberChar, Char.isAlphanum, hc]
  have htext := h.split Lexeme.isNumberChar
  rw [Guarded.number, h.skipWhile byteWise_isNumberChar, ok_bind, Lexeme.take_takeWhile_length]
  rw [List.takeWhile_cons, if_pos htest] at htext ⊢
  exact congrArg Except.ok (htext.token_eq hsize _)

theorem TextAt.absoluteName (h : TextAt source start ('\\' :: cs)) : absoluteName source start =
    .ok (.ofLexeme start ⟨(Lexeme.named '\\' cs (Lexeme.qualifiedLength cs)).1,
      '\\' :: cs.take (Lexeme.qualifiedLength cs)⟩) := by
  have hinside := h.next_narrow rfl
  have htext : TextAt source start
      (('\\' :: cs.take (Lexeme.qualifiedLength cs)) ++ cs.drop (Lexeme.qualifiedLength cs)) := by
    rwa [List.cons_append, List.take_append_drop]
  rw [Guarded.absoluteName, hinside.qualifiedName, ok_bind]
  dsimp only
  rw [Nat.add_assoc]
  exact congrArg Except.ok (htext.token_eq hsize _)

theorem TextAt.relativeName (h : TextAt source start (c :: cs)) (hc : Lexeme.isNameStart c = true) :
    relativeName source start =
    .ok (.ofLexeme start ⟨(Lexeme.named c cs (Lexeme.qualifiedLength cs)).1,
      c :: cs.take (Lexeme.qualifiedLength cs)⟩) := by
  have hlength : Lexeme.qualifiedLength (c :: cs) = Lexeme.qualifiedLength cs + 1 := by
    rw [Lexeme.qualifiedLength, Lexeme.isNameChar_of_isNameStart hc, Bool.true_or, if_pos rfl]
  have htext : TextAt source start
      ((c :: cs.take (Lexeme.qualifiedLength cs)) ++ cs.drop (Lexeme.qualifiedLength cs)) := by
    rwa [List.cons_append, List.take_append_drop]
  rw [Guarded.relativeName, h.qualifiedName, ok_bind, hlength, List.take_succ_cons]
  exact congrArg Except.ok (htext.token_eq hsize _)

theorem TextAt.character (h : TextAt source start (c :: cs)) : character source start =
    .ok (.ofLexeme start ⟨.token (.punct c), [c]⟩) := by
  have htext : TextAt source start ([c] ++ cs) := h
  have hmove : max c.utf8Size 1 = c.utf8Size := Nat.max_eq_left c.utf8Size_pos
  rw [Guarded.character, h.textFrom, ok_bind, List.headD_cons]
  dsimp only
  rw [hmove]
  exact congrArg Except.ok (htext.token_eq hsize _)

/-- An operator is a token of its own length. -/
theorem TextAt.fixed {opening : List Char} (h : TextAt source start (opening ++ rest))
      (kind : TokenKind)
    (hopening : isNarrow opening = true) :
    LexStep.token kind start (start + opening.length) = .ofLexeme start ⟨.token kind, opening⟩ := by
  have hlength :
      opening.length = byteSize opening := by rw [← length_bytes, bytes_of_narrow hopening]
  rw [hlength]
  exact h.token_eq hsize kind

end

/-- The round reads the lexeme that starts with `c`, of a kind and length that were found for it. -/
def Finds (start : Nat) (c : Char) (cs : List Char) (round : Guarded LexStep)
    (found : LexemeKind × Nat) :
    Prop :=
  round = .ok (.ofLexeme start ⟨found.1, c :: cs.take found.2⟩)

theorem Finds.ite {start : Nat} {c : Char} {cs : List Char} {x y : Guarded LexStep}
    {a b : LexemeKind × Nat}
    {p q : Prop} [Decidable p] [Decidable q] (hpq : p ↔ q) (hx : q → Finds start c cs x a)
    (hy : ¬ q → Finds start c cs y b) :
    Finds start c cs (if p then x else y) (if q then a else b) := by
  by_cases hq : q
  · rw [if_pos hq, if_pos (hpq.2 hq)]
    exact hx hq
  · rw [if_neg hq, if_neg fun hp => hq (hpq.1 hp)]
    exact hy hq

theorem Finds.starts {start : Nat} {c o : Char} {cs opening : List Char} {x y : Guarded LexStep}
    {a b : LexemeKind × Nat} (hnarrow : isNarrow (o :: opening) = true)
    (hx : ∀ rest, c = o → cs = opening ++ rest → Finds start c cs x a) (hy : Finds start c cs y b) :
    Finds start c cs
      (if (Guarded.bytes (o :: opening)).isPrefixOf (Guarded.bytes (c :: cs)) = true then x else y)
      (if (o :: opening).isPrefixOf (c :: cs) = true then a else b) := by
  refine .ite (by rw [isPrefixOf_bytes hnarrow]) (fun hprefix => ?_) fun _ => hy
  obtain ⟨rest, hrest⟩ := List.isPrefixOf_iff_prefix.1 hprefix
  obtain ⟨hc, hcs⟩ := List.cons.inj hrest
  exact hx rest hc.symm hcs.symm

/-! Tests of the first byte are tests of the character that it begins. -/

section

variable {source cs bs : List Char} {b c a : Char} {start : Nat}

theorem ByteWise.head_iff {test : Char → Bool} (h : ByteWise test) (hb : encode c = b :: bs) :
    test b = true ↔ test c = true := by
  rw [h.eq_of_mem_encode (hb ▸ List.mem_cons_self)]

theorem head_eq_iff (hb : encode c = b :: bs) (ha : Text.isWide a = false) : b = a ↔ c = a := by
  rw [← beq_iff_eq, (byteWise_beq ha).head_iff hb, beq_iff_eq]

theorem TextAt.beginsName_iff (h : TextAt source start (c :: cs)) (hb : encode c = b :: bs)
    (ha : Text.isWide a = false) :
    b = a ∧ Guarded.startsNameAt source (start + 1) = true ↔
      c = a ∧ Lexeme.startsName cs = true := by
  rw [head_eq_iff hb ha]
  refine and_congr_right fun hc => ?_
  rw [(h.next_narrow (hc ▸ ha)).startsNameAt]

end

section

variable {source cs bs : List Char} {b c : Char} {start : Nat} (hsize : byteSize source < 2 ^ 32)
include hsize

/-- The opening is an operator. -/
theorem TextAt.finds_fixed (h : TextAt source start (c :: cs)) {o : Char} {opening : List Char}
    {kind : TokenKind} (hnarrow : isNarrow (o :: opening) = true) (rest : List Char) (hc : c = o)
    (hcs : cs = opening ++ rest) :
    Finds start c cs (pure (.token kind start (start + (opening.length + 1))))
      (.token kind, opening.length) := by
  subst hc hcs
  have hall : TextAt source start ((c :: opening) ++ rest) := h
  rw [Finds, List.take_left, ← hall.fixed hsize kind hnarrow]
  rfl

/-- A character that opens nothing begins a name or a number, or stands by itself. -/
theorem TextAt.finds_word (h : TextAt source start (c :: cs)) (hb : encode c = b :: bs) :
    Finds start c cs
      (if b = '$' ∧ Guarded.startsNameAt source (start + 1) = true then
          Guarded.variableName source start
        else if b.isDigit = true then Guarded.number source start
        else if b = '\\' ∧ Guarded.startsNameAt source (start + 1) = true then
          Guarded.absoluteName source start
        else if Lexeme.isNameStart b = true then Guarded.relativeName source start
        else Guarded.character source start)
      (Lexeme.nextWord c cs) := by
  rw [Lexeme.nextWord]
  simp only [Bool.and_eq_true, decide_eq_true_eq, Bool.or_eq_true]
  refine .ite (h.beginsName_iff hb rfl) (fun hvariable => ?_) fun _ => ?_
  · obtain ⟨rfl, _⟩ := hvariable
    exact h.variableName hsize
  refine .ite (byteWise_isDigit.head_iff hb) (h.number hsize) fun _ => ?_
  rw [ite_or]
  refine .ite (h.beginsName_iff hb rfl) (fun habsolute => ?_) fun _ => ?_
  · obtain ⟨rfl, _⟩ := habsolute
    exact h.absoluteName hsize
  exact .ite (byteWise_isNameStart.head_iff hb) (h.relativeName hsize) fun _ => h.character hsize

theorem TextAt.finds_string (h : TextAt source start (c :: cs)) (hb : encode c = b :: bs)
    (hquote : c = '\'' ∨ c = '"' ∨ c = '`') :
    Finds start c cs (Guarded.string source start b) (Lexeme.quoted c cs) := by
  have hnarrow : Text.isWide c = false := by
    rcases hquote with rfl | rfl | rfl <;> rfl
  rw [(head_eq_iff hb hnarrow).2 rfl]
  exact h.string hsize hquote

/-- A round reads the next lexeme. -/
theorem TextAt.lexStep (h : TextAt source start (c :: cs)) :
    Finds start c cs (lexStep source start) (Lexeme.next c cs) := by
  obtain ⟨b, bs, hb⟩ := exists_encode_eq c
  have hbyte : At (Guarded.bytes source) start (b :: (bs ++ Guarded.bytes cs)) := by
    have hbytes := h.bytes
    rwa [bytes_cons, hb] at hbytes
  rw [Guarded.lexStep, hbyte.index, ok_bind, h.bytes.range_end, ok_bind, lexRound, Lexeme.next_eq]
  refine .ite (byteWise_isGap.head_iff hb) (fun hgap => ?_) fun _ => ?_
  · rw [Finds, ← utf8Size_of_narrow (narrow_of_isGap hgap)]
    rfl
  refine .starts rfl (fun rest hc hcs => ?_) ?_
  · subst hc hcs
    exact h.lineComment (by decide)
  refine .starts rfl (fun rest hc hcs => ?_) ?_
  · subst hc hcs
    exact h.heredoc hsize
  refine .starts rfl (h.finds_fixed hsize rfl) ?_
  refine .starts rfl (h.finds_fixed hsize rfl) ?_
  refine .starts rfl (fun rest hc hcs => ?_) ?_
  · subst hc hcs
    exact h.lineComment (by decide)
  refine .ite (head_eq_iff hb rfl) (fun hc => ?_) fun _ => ?_
  · subst hc
    exact h.lineComment (by decide)
  refine .starts rfl (fun rest hc hcs => ?_) ?_
  · subst hc hcs
    exact h.blockComment hsize
  refine .ite (or_congr (head_eq_iff hb rfl) (or_congr (head_eq_iff hb rfl) (head_eq_iff hb rfl)))
    (h.finds_string hsize hb) fun _ => ?_
  refine .starts rfl (h.finds_fixed hsize rfl) ?_
  refine .starts rfl (h.finds_fixed hsize rfl) ?_
  refine .starts rfl (h.finds_fixed hsize rfl) ?_
  exact h.finds_word hsize hb

theorem TextAt.lexFrom (h : TextAt source start cs) :
    lexFrom source start = .ok (.ofLexemes start (Lexeme.split cs)) := by
  fun_induction Lexeme.split cs generalizing start with
  | case1 =>
    rw [Guarded.lexFrom, if_neg (by rw [length_bytes, h.byteSize_eq]; simp)]
    rfl
  | case2 c cs kind n hnext ih =>
    have hround := h.lexStep hsize
    have htext : TextAt source start ((c :: cs.take n) ++ cs.drop n) := by
      rwa [List.cons_append, List.take_append_drop]
    have hprogress : left (Guarded.bytes source) (start + byteSize (c :: cs.take n)) <
        left (Guarded.bytes source) start := by
      have hpos := c.utf8Size_pos
      rw [htext.skip.left_eq, htext.left_eq, Text.byteSize_append, Text.byteSize_cons]
      omega
    have hinside : start < (Guarded.bytes source).length := by
      have hpos := c.utf8Size_pos
      rw [length_bytes, h.byteSize_eq, Text.byteSize_cons]
      omega
    rw [hnext] at hround
    rw [Guarded.lexFrom, if_pos hinside, hround, ok_bind]
    refine (dif_pos hprogress).trans ?_
    have hlater : Guarded.lexFrom source (LexStep.ofLexeme start ⟨kind, c :: cs.take n⟩).pos = _ :=
      ih htext.skip
    rw [hlater]
    rfl

end

/-- The offset lexer meets no trap and gives the token stream of the text. -/
theorem tokenize_eq_ok {source : List Char} (hsize : byteSize source < 2 ^ 32) :
    tokenize source = .ok (.ofText source) := (TextAt.zero source).lexFrom hsize

end Guarded
end ModuleVisibility
