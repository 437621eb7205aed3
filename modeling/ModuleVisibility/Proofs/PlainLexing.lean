import Mathlib.Data.List.TakeWhile
import ModuleVisibility.Proofs.PlainSyntax
import ModuleVisibility.Proofs.TokenText

/-!
The tokens of plain texts. A piece is read as the one lexeme that it is, if what follows does not go
on with it; the pieces of a plain unit stand so that none does.
-/
namespace ModuleVisibility

namespace Lexeme

/-- A text starts with a lexeme, if that is the next one there. -/
theorem split_of_next {c : Char} {cs after : List Char} {kind : LexemeKind}
    (h : next c (cs ++ after) = (kind, cs.length)) :
    split (c :: cs ++ after) = ⟨kind, c :: cs⟩ :: split after := by
  rw [List.cons_append, split, h]
  simp

/-! Names. -/

theorem isNameStart_eq_false_of_isGap {c : Char} (h : isGap c = true) : isNameStart c = false := by
  simp only [isGap, Bool.or_eq_true, beq_iff_eq] at h
  rcases h with ((rfl | rfl) | rfl) | rfl <;> decide

theorem isDigit_eq_false_of_isNameStart {c : Char} (h : isNameStart c = true) :
    c.isDigit = false := by
  by_contra hdigit
  rw [Bool.not_eq_false, Char.isDigit, Bool.and_eq_true, decide_eq_true_eq,
    decide_eq_true_eq] at hdigit
  have hlast : c.val.toNat ≤ 57 := hdigit.2
  have hupper : c.isUpper = true → 65 ≤ c.val.toNat := fun h => (of_decide_eq_true h).1
  have hlower : c.isLower = true → 97 ≤ c.val.toNat := fun h =>
    of_decide_eq_true (Bool.and_eq_true_iff.1 h).1
  rw [isNameStart, Bool.or_eq_true, Bool.or_eq_true] at h
  rcases h with (halpha | hunderscore) | hwide
  · rcases Bool.or_eq_true_iff.1 halpha with h | h
    · have := hupper h
      omega
    · have := hlower h
      omega
  · rw [beq_iff_eq.1 hunderscore] at hlast
    exact absurd hlast (by decide)
  · have : 128 ≤ c.val.toNat := of_decide_eq_true hwide
    omega

/-- A name goes as far as the characters of names. -/
theorem next_of_isNameStart {c : Char} (hc : isNameStart c = true) (cs : List Char) :
    next c cs = named c cs (qualifiedLength cs) := by
  have hdollar : ¬ (decide (c = '$') && startsName cs) = true := by
    intro h
    rw [Bool.and_eq_true, decide_eq_true_iff] at h
    rw [h.1] at hc
    cases hc
  have hdigit : ¬ c.isDigit = true := by simp [isDigit_eq_false_of_isNameStart hc]
  have hname : (decide (c = '\\') && startsName cs || isNameStart c) =
      true := by rw [hc, Bool.or_true]
  fun_cases next c cs with
  | case1 =>
    rw [isNameStart_eq_false_of_isGap ‹isGap c = true›] at hc
    cases hc
  | case17 | case18 | case19 | case20 => simp only [if_neg hdollar, if_neg hdigit, if_pos hname]
  | _ => cases hc

/-- A name starts with a character that it can go on with. -/
theorem isNameChar_of_isNameStart {c : Char} (h : isNameStart c = true) : isNameChar c = true := by
  simp only [isNameStart, isNameChar, Char.isAlphanum, Bool.or_eq_true] at h ⊢
  tauto

variable {cs after : List Char}

/-- The name behind a dollar sign is that of a variable. -/
theorem next_dollar (h : startsName cs = true) : next '$' cs =
    (.token (.variable (String.ofList (cs.take (nameLength cs)))), nameLength cs) := if_pos h

/-- A colon is one by itself, unless another follows. -/
theorem next_colon (h : ∀ c ∈ cs.head?, c ≠ ':') : next ':' cs = (.token (.punct ':'), 0) := by
  have hgap : isGap ':' = false := by decide
  cases cs with
  | nil => rfl
  | cons c cs => simp [next, hgap, h c rfl, isNameStart, Text.isWide]

/-- Two angles open attributes, unless a third makes them a heredoc. -/
theorem next_angles (h : ∀ c ∈ cs.head?, c ≠ '<') :
    next '<' ('<' :: cs) = (.token .attrOpen, 1) := by
  have hgap : isGap '<' = false := by decide
  cases cs with
  | nil => rfl
  | cons c cs => simp [next, hgap, h c rfl]

theorem takeWhile_append_of_head {p : Char → Bool} (hcs : ∀ c ∈ cs, p c = true)
    (hafter : ∀ c ∈ after.head?, p c = false) : (cs ++ after).takeWhile p = cs := by
  rw [List.takeWhile_append_of_pos hcs]
  cases after with
  | nil => simp
  | cons c after => rw [List.takeWhile_cons_of_neg (by simp [hafter c rfl]), List.append_nil]

theorem qualifiedLength_append (hcs : ∀ c ∈ cs, isNameChar c = true)
    (hafter : ∀ c ∈ after.head?, (isNameChar c || c == '\\') = false) :
    qualifiedLength (cs ++ after) = cs.length := by
  induction cs with
  | nil =>
    cases after with
    | nil => rfl
    | cons c after =>
      have hc := hafter c rfl
      rw [Bool.or_eq_false_iff, beq_eq_false_iff_ne] at hc
      simp [qualifiedLength, hc.1, hc.2]
  | cons c cs ih =>
    have hc : isNameChar c = true := hcs c List.mem_cons_self
    rw [List.cons_append, qualifiedLength, hc, Bool.true_or, if_pos rfl,
      ih fun d hd => hcs d (List.mem_cons_of_mem c hd), List.length_cons]

end Lexeme

namespace Plain

/-- A word starts like a name and goes on like one. -/
theorem Word.exists_toList_eq (w : Word) : ∃ c cs, w.name.toList = c :: cs ∧
    Lexeme.isNameStart c = true ∧ ∀ d ∈ cs, Lexeme.isNameChar d = true := by
  have h := w.isSimple
  rw [Plain.isSimple, Bool.and_eq_true, List.all_eq_true] at h
  cases hname : w.name.toList with
  | nil =>
    rw [hname] at h
    cases h.1
  | cons c cs =>
    rw [hname] at h
    exact ⟨c, cs, rfl, h.1, fun d hd => h.2 d (List.mem_cons_of_mem c hd)⟩

namespace Piece

/-- Whether the piece ends where this character follows. -/
def endsBefore : Piece → Char → Bool
  | word _, c => !(Lexeme.isNameChar c || c == '\\')
  | .variable _, c => !Lexeme.isNameChar c
  | zero, c => !Lexeme.isNumberChar c
  | sign .colon, c => c != ':'
  | attrOpen, c => c != '<'
  | openTag, c => c == '\n'
  | _, _ => true

theorem split_text_append {p : Piece} {after : List Char}
    (h : ∀ c ∈ after.head?, p.endsBefore c = true) :
    Lexeme.split (p.lexeme.text ++ after) = p.lexeme :: Lexeme.split after := by
  cases p with
  | word w =>
    obtain ⟨c, cs, hname, hc, hcs⟩ := w.exists_toList_eq
    have hnext : Lexeme.next c (cs ++ after) = (.token (.ident w.name), cs.length) := by
      rw [Lexeme.next_of_isNameStart hc, Lexeme.qualifiedLength_append hcs fun c hc => by
        simpa [endsBefore] using h c hc, Lexeme.named, List.take_left, ← hname,
          String.ofList_toList]
    simp only [lexeme, hname]
    exact Lexeme.split_of_next hnext
  | «variable» w =>
    obtain ⟨c, cs, hname, hc, hcs⟩ := w.exists_toList_eq
    have hlength : Lexeme.nameLength (w.name.toList ++ after) = w.name.toList.length := by
      rw [Lexeme.nameLength, Lexeme.takeWhile_append_of_head]
      · rw [hname]
        exact List.forall_mem_cons.2 ⟨Lexeme.isNameChar_of_isNameStart hc, hcs⟩
      · intro c hc
        simpa [endsBefore] using h c hc
    refine Lexeme.split_of_next (Lexeme.next_dollar ?_ |>.trans ?_)
    · rw [hname]
      exact hc
    · rw [hlength, List.take_left, String.ofList_toList]
  | zero =>
    have hnumber : ([] ++ after).takeWhile Lexeme.isNumberChar = [] :=
      Lexeme.takeWhile_append_of_head (fun _ hc => nomatch hc) fun c hc => by
        simpa [endsBefore] using h c hc
    exact Lexeme.split_of_next (congrArg (fun cs : List Char => (_, cs.length)) hnumber)
  | sign s =>
    cases s with
    | colon =>
      refine Lexeme.split_of_next (Lexeme.next_colon fun c hc => ?_)
      simpa [endsBefore] using h c hc
    | _ => exact Lexeme.split_of_next rfl
  | doubleColon => exact Lexeme.split_of_next rfl
  | arrow => exact Lexeme.split_of_next rfl
  | attrOpen =>
    refine Lexeme.split_of_next (Lexeme.next_angles fun c hc => ?_)
    simpa [endsBefore] using h c hc
  | attrClose => exact Lexeme.split_of_next rfl
  | space => exact Lexeme.split_of_next rfl
  | newline => exact Lexeme.split_of_next rfl
  | openTag =>
    have hline : (['?', 'h', 'h'] ++ after).takeWhile (· != '\n') = ['?', 'h', 'h'] :=
      Lexeme.takeWhile_append_of_head (by simp) fun c hc => by simpa [endsBefore] using h c hc
    exact Lexeme.split_of_next (congrArg (fun cs : List Char => (_, cs.length)) hline)

/-- The first character of the piece. -/
def first (p : Piece) : Char := p.lexeme.text.headD ' '

theorem text_eq_cons (p : Piece) : ∃ cs, p.lexeme.text = p.first :: cs := by
  cases p with
  | word w =>
    obtain ⟨c, cs, hname, _⟩ := w.exists_toList_eq
    exact ⟨cs, by simp [first, lexeme, hname]⟩
  | _ => exact ⟨_, rfl⟩

/-- Whether something can go on with the piece. -/
def goesOn : Piece → Bool
  | word _ | .variable _ | zero | sign .colon | attrOpen | openTag => true
  | _ => false

theorem endsBefore_of_not_goesOn {p : Piece} (h : p.goesOn = false) (c : Char) :
    p.endsBefore c = true := by
  cases p with
  | sign s =>
    cases s with
    | colon => cases h
    | _ => rfl
  | word | «variable» | zero | attrOpen | openTag => cases h
  | _ => rfl

/-- Whether the piece ends where these pieces follow, and with none of them where anything does. -/
def endsBeforePieces (p : Piece) (ps : List Piece) : Bool :=
  !p.goesOn || ps.head?.any fun q => p.endsBefore q.first

theorem endsBeforePieces_append {p : Piece} {ps : List Piece} (h : p.endsBeforePieces ps = true)
    (qs : List Piece) : p.endsBeforePieces (ps ++ qs) = true := by
  cases ps with
  | nil =>
    rw [endsBeforePieces, List.head?_nil, Option.any_none, Bool.or_false] at h
    rw [endsBeforePieces, h, Bool.true_or]
  | cons => exact h

end Piece

/-- Whether every piece ends where the next one starts, and the last one where anything does. -/
def closed : List Piece → Bool
  | [] => true
  | p :: ps => p.endsBeforePieces ps && closed ps

theorem closed_append {ps qs : List Piece} (hps : closed ps = true) (hqs : closed qs = true) :
    closed (ps ++ qs) = true := by
  induction ps with
  | nil => exact hqs
  | cons p ps ih =>
    rw [closed, Bool.and_eq_true] at hps
    rw [List.cons_append, closed, Bool.and_eq_true]
    exact ⟨Piece.endsBeforePieces_append hps.1 qs, ih hps.2⟩

theorem closed_flatMap {α : Type} {pieces : α → List Piece} (h : ∀ a, closed (pieces a) = true)
    (as : List α) : closed (as.flatMap pieces) = true := by
  induction as with
  | nil => rfl
  | cons a as ih =>
    rw [List.flatMap_cons]
    exact closed_append (h a) ih

theorem split_of_closed {ps : List Piece} (h : closed ps = true) :
    Lexeme.split (ps.flatMap fun p => p.lexeme.text) = ps.map Piece.lexeme := by
  induction ps with
  | nil => rw [List.flatMap_nil, Lexeme.split, List.map_nil]
  | cons p ps ih =>
    rw [closed, Bool.and_eq_true, Piece.endsBeforePieces, Bool.or_eq_true, Bool.not_eq_true'] at h
    rw [List.flatMap_cons, Piece.split_text_append, ih h.2, List.map_cons]
    intro c hc
    rcases h.1 with hends | hends
    · exact Piece.endsBefore_of_not_goesOn hends c
    · cases ps with
      | nil => cases hends
      | cons q ps =>
        obtain ⟨cs, hq⟩ := q.text_eq_cons
        rw [List.flatMap_cons, hq] at hc
        cases hc
        exact hends

/-! The pieces of a unit. -/

theorem closed_statement (s : Statement) : closed s.pieces = true := by
  cases s <;> rfl

theorem closed_modifier (visibility : Option Visibility) : closed (modifier visibility) = true := by
  rcases visibility with _ | _ | _ <;> rfl

theorem closed_body (body : List Statement) :
    closed (body.flatMap Statement.pieces ++ [.sign .closeBrace, .newline]) = true :=
  closed_append (closed_flatMap closed_statement body) rfl

theorem closed_names {between : List Piece} (first : Ident) (others : List Ident)
    (h : ∀ (word : Ident) (ps : List Piece), closed ps = true →
      closed (.word word.toWord :: (between ++ ps)) = true) :
    closed (names between first others) = true := by
  induction others generalizing first with
  | nil => rfl
  | cons next others ih => exact h first _ (ih next)

theorem closed_item (i : Item) : closed i.pieces = true := by
  cases i with
  | uses first others => exact closed_names first others fun _ _ h => h
  | method visibility name body =>
    exact closed_append (closed_modifier visibility) (closed_body body)
  | constant visibility name => exact closed_append (closed_modifier visibility) rfl
  | property visibility name => exact closed_append (closed_modifier visibility) rfl

theorem closed_items (is : List Item) :
    closed (is.flatMap Item.pieces ++ [.sign .closeBrace, .newline]) = true :=
  closed_append (closed_flatMap closed_item is) rfl

theorem closed_content (name : Ident) (content : Content) :
    closed (content.pieces name) = true := by
  cases content with
  | function body => exact closed_body body
  | «class» is => exact closed_items is
  | trait _ is => exact closed_items is
  | constant => rfl

theorem closed_attributes (content : Content) : closed content.attributes = true := by
  rcases content with _ | _ | ⟨_ | _, _⟩ | _ <;> rfl

theorem closed_declaration (d : Declaration) : closed d.pieces = true :=
  closed_append (closed_attributes d.content)
    (closed_append (closed_modifier d.visibility) (closed_content d.name d.content))

theorem closed_moduleName (n : ModuleName) : closed n.pieces = true :=
  closed_names n.first n.others fun _ _ h => h

theorem Unit.closed_pieces (u : Unit) : closed u.pieces = true :=
  closed_append (closed_flatMap closed_moduleName u.directive.toList)
    (closed_flatMap closed_declaration u.declarations)

/-! Tokens. -/

/-- The tokens are those of the pieces, wherever they stand. -/
def Spells : List Piece → List Token → Prop
  | [], ts => ts = []
  | p :: ps, ts =>
    match p.lexeme.tokenKind? with
    | none => Spells ps ts
    | some kind => ∃ span after, ts = ⟨kind, span⟩ :: after ∧ Spells ps after

theorem spells_ofLexemes (start : Nat) (ps : List Piece) :
    Spells ps (TokenStream.ofLexemes start (ps.map Piece.lexeme)).tokens := by
  induction ps generalizing start with
  | nil => rfl
  | cons p ps ih =>
    rw [List.map_cons, TokenStream.ofLexemes, Spells]
    split
    · next hkind =>
      rw [hkind]
      exact ih _
    · next kind hkind =>
      rw [hkind]
      exact ⟨_, _, rfl, ih _⟩

theorem errors_ofLexemes (start : Nat) (ps : List Piece) :
    (TokenStream.ofLexemes start (ps.map Piece.lexeme)).errors = [] := by
  induction ps generalizing start with
  | nil => rfl
  | cons p ps ih =>
    have hfault : p.lexeme.fault? = none := by cases p <;> rfl
    rw [List.map_cons, TokenStream.ofLexemes, hfault, ih]
    rfl

theorem Spells.exists_append {ps qs : List Piece} {ts : List Token} (h : Spells (ps ++ qs) ts) :
    ∃ front back, ts = front ++ back ∧ Spells ps front ∧ Spells qs back := by
  induction ps generalizing ts with
  | nil => exact ⟨[], ts, rfl, rfl, h⟩
  | cons p ps ih =>
    rw [List.cons_append, Spells] at h
    cases hkind : p.lexeme.tokenKind? with
    | none =>
      rw [hkind] at h
      obtain ⟨front, back, rfl, hfront, hback⟩ := ih h
      refine ⟨front, back, rfl, ?_, hback⟩
      rw [Spells, hkind]
      exact hfront
    | some kind =>
      rw [hkind] at h
      obtain ⟨span, after, rfl, hafter⟩ := h
      obtain ⟨front, back, rfl, hfront, hback⟩ := ih hafter
      refine ⟨⟨kind, span⟩ :: front, back, rfl, ?_, hback⟩
      rw [Spells, hkind]
      exact ⟨span, front, rfl, hfront⟩

theorem Spells.exists_of_mem {ps : List Piece} {ts : List Token} (h : Spells ps ts) {t : Token}
    (ht : t ∈ ts) :
    ∃ p ∈ ps, p.lexeme.tokenKind? = some t.kind := by
  induction ps generalizing ts with
  | nil =>
    cases h
    cases ht
  | cons p ps ih =>
    have hlater : ∀ {ts}, Spells ps ts → t ∈ ts →
        ∃ q ∈ p :: ps, q.lexeme.tokenKind? = some t.kind := by
      intro ts h ht
      obtain ⟨q, hq, hkind⟩ := ih h ht
      exact ⟨q, List.mem_cons_of_mem p hq, hkind⟩
    rw [Spells] at h
    split at h
    · exact hlater h ht
    · next kind hkind =>
      obtain ⟨span, after, rfl, hafter⟩ := h
      rcases List.mem_cons.1 ht with rfl | ht
      · exact ⟨p, List.mem_cons_self, hkind⟩
      · exact hlater hafter ht

/-- The text of a unit is read into the tokens that its pieces are. -/
theorem Unit.spells_ofText (u : Unit) : Spells u.pieces (TokenStream.ofText u.text.toList).tokens ∧
    (TokenStream.ofText u.text.toList).errors = [] := by
  rw [TokenStream.ofText, Unit.text, String.toList_ofList, split_of_closed u.closed_pieces]
  exact ⟨spells_ofLexemes 0 u.pieces, errors_ofLexemes 0 u.pieces⟩

end Plain
end ModuleVisibility
