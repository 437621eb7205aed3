import Mathlib.Data.List.Flatten
import ModuleVisibility.Proofs.TokenReading
import ModuleVisibility.Proofs.TokenSpelling

/-!
How `new` is spelled. A `new` makes an object in capitals as well, but only a small one hides the
class behind it from the rest of the scan. So with every such word in small letters the scan finds
the same, less what the classes behind the others start: those are read twice, and no other token
is.
-/
namespace ModuleVisibility

namespace Token

/-- Whether the token, with these before it, makes an object: it is no member and no class to be
made. -/
def startsNew (before : List Token) (t : Token) : Bool :=
  t.isNew && !Reference.headIs (fun p => p.kind == .arrow || p.kind == .doubleColon || p.isNew)
    before

/-- The token with the word that makes an object in small letters. -/
def respelled (before : List Token) (t : Token) : Token :=
  if t.startsNew before then ⟨.ident "new", t.span⟩ else t

end Token

def respellFrom (before : List Token) : List Token → List Token
  | [] => []
  | t :: ts => t.respelled before :: respellFrom (t :: before) ts

/-- The tokens with each word that makes an object in small letters. -/
def respell (tokens : List Token) : List Token := respellFrom [] tokens

/-- The same for tokens nearest first. -/
def respellBefore : List Token → List Token
  | [] => []
  | t :: before => t.respelled before :: respellBefore before

namespace Place

/-- Whether the place is behind a word that makes an object and is not spelled `new`. -/
def behindOther (p : Place) : Bool :=
  match p.before with
  | [] => false
  | t :: before => t.startsNew before && !t.isWord "new"

/-- Whether it holds the class that such a word makes. -/
def isMadeByOther (p : Place) : Bool := p.token.ident?.isSome && p.behindOther

def respell (p : Place) : Place :=
  ⟨respellBefore p.before, p.token.respelled p.before, respellFrom (p.token :: p.before) p.after⟩

theorem placesFrom_respellFrom (before tokens : List Token) :
    placesFrom (respellBefore before) (respellFrom before tokens) =
      (placesFrom before tokens).map respell := by
  induction tokens generalizing before with
  | nil => rfl
  | cons t tokens ih =>
    rw [respellFrom, placesFrom, placesFrom, List.map_cons, ← ih (t :: before)]; rfl

end Place

namespace Token

variable {before : List Token} {t : Token}

/-- A token is changed only if it is a name. -/
theorem respelled_eq (before : List Token) (t : Token) : t.respelled before = t ∨
    ∃ name, t.kind = .ident name ∧ Text.lowerAscii name = "new" ∧ t.startsNew before = true ∧
      t.respelled before = ⟨.ident "new", t.span⟩ := by
  unfold respelled
  split
  · next hstarts =>
    obtain ⟨hnew, -⟩ := Bool.and_eq_true_iff.1 hstarts
    obtain ⟨name, hname, hlower⟩ := (Option.any_eq_true ..).1 hnew
    refine .inr ⟨name, ?_, by simpa using hlower, hstarts, rfl⟩
    unfold ident? at hname
    split at hname
    · next hkind => rw [hkind, Option.some.inj hname]
    · cases hname
  · exact .inl rfl

@[simp] theorem span_respelled : (t.respelled before).span = t.span := by
  rcases respelled_eq before t with h | ⟨_, _, _, _, h⟩ <;> rw [h]

@[simp] theorem isSome_ident?_respelled : (t.respelled before).ident?.isSome = t.ident?.isSome := by
  rcases respelled_eq before t with h | ⟨name, hkind, _, _, h⟩
  · rw [h]
  · simp [h, ident?, hkind]

/-- No other test of a kind tells the spellings apart. -/
theorem beq_respelled {kind : TokenKind} (h : ∀ name, kind = .ident name →
      Text.lowerAscii name ≠ "new") :
    ((t.respelled before).kind == kind) = (t.kind == kind) := by
  rcases respelled_eq before t with heq | ⟨name, hkind, hnew, _, heq⟩
  · rw [heq]
  · have hne : TokenKind.ident "new" ≠ kind := fun hother => h "new" hother.symm (by decide)
    have hne' : TokenKind.ident name ≠ kind := fun hother => h name hother.symm hnew
    simp [heq, hkind, hne, hne']

@[simp] theorem isPunct_respelled (c : Char) : (t.respelled before).isPunct c = t.isPunct c :=
  beq_respelled fun _ h => nomatch h

theorem isWord_respelled {word : String} (h : Text.lowerAscii word ≠ "new") :
    (t.respelled before).isWord word = t.isWord word := by
  refine beq_respelled fun name hname => ?_
  cases hname
  exact h

theorem isWord_new_respelled :
    (t.respelled before).isWord "new" = (t.isWord "new" || t.startsNew before) := by
  unfold respelled
  split
  · next hstarts => simp [isWord, hstarts]
  · next hstarts => simp [hstarts]

/-- What stands behind an arrow, two colons or `new` is not changed. -/
theorem respelled_of_access {p : Token} (h : p.kind = .arrow ∨ p.kind = .doubleColon ∨
      p.isNew = true) :
    t.respelled (p :: before) = t := by
  have haccess : startsNew (p :: before) t = false := by
    rcases h with h | h | h <;> simp [startsNew, Reference.headIs, h]
  simp [respelled, haccess]

end Token

/-- Of two such words next to each other only the first makes an object. -/
theorem Place.behindOther_of_startsNew {p : Place} (h : p.token.startsNew p.before = true) :
    p.behindOther = false := by
  unfold behindOther
  split
  · rfl
  · next t before hbefore =>
    rw [hbefore] at h
    simp only [Token.startsNew, Reference.headIs, List.head?_cons, Option.any_some,
      Bool.and_eq_true, Bool.not_eq_true', Bool.or_eq_false_iff] at h
    simp [Token.startsNew, h.2.2]

namespace Reference

variable {ns name : String} {before after : List Token} {t : Token} {test : Token → Bool}

/-! What stands around a name. -/

theorem headIs_respellBefore (h : ∀ before t, test (t.respelled before) = test t)
      (before : List Token) :
    headIs test (respellBefore before) = headIs test before := by
  cases before with
  | nil => rfl
  | cons t before => exact h before t

theorem headIs_respellFrom (h : ∀ before t, test (t.respelled before) = test t)
      (before after : List Token) :
    headIs test (respellFrom before after) = headIs test after := by
  cases after with
  | nil => rfl
  | cons t after => exact h before t

theorem gluedToName_respellBefore (before : List Token) (t : Token) :
    gluedToName (respellBefore before) t = gluedToName before t :=
  headIs_respellBefore (fun before t => by simp) before

theorem insideTypeArguments_respellBefore (depth : Nat) (before : List Token) :
    insideTypeArguments depth (respellBefore before) = insideTypeArguments depth before := by
  induction before generalizing depth with
  | nil => rfl
  | cons t before ih =>
    rw [respellBefore]
    rcases Token.respelled_eq before t with h | ⟨name, hkind, _, _, h⟩
    · rw [h]
      unfold insideTypeArguments
      simp only [ih, gluedToName_respellBefore]
    · rw [h]
      unfold insideTypeArguments
      simp only [hkind, ih]

theorem followsSignature_respellBefore (before : List Token) :
    followsSignature (respellBefore before) = followsSignature before := by
  rcases before with _ | ⟨colon, _ | ⟨paren, before⟩⟩
  · rfl
  · rfl
  · simp [respellBefore, followsSignature]

theorem takesTypeArguments_respellFrom (before after : List Token) (t : Token) :
    takesTypeArguments t (respellFrom before after) = takesTypeArguments t after := by
  rcases after with _ | ⟨angle, _ | ⟨argument, after⟩⟩
  · rfl
  · rfl
  · simp [respellFrom, takesTypeArguments]

theorem isTypePosition_respell (before before' after : List Token) (t : Token) :
    isTypePosition (respellBefore before) t (respellFrom before' after) =
      isTypePosition before t after := by
  unfold isTypePosition
  rw [followsSignature_respellBefore, takesTypeArguments_respellFrom,
    insideTypeArguments_respellBefore, headIs_respellFrom fun before t => ?_,
    headIs_respellBefore fun before t => ?_]
  · rw [Token.isWord_respelled, Token.isWord_respelled, Token.isWord_respelled,
      Token.isWord_respelled] <;> decide
  · rcases Token.respelled_eq before t with h | ⟨name, hkind, _, _, h⟩
    · rw [h]
    · rw [h, hkind]

/-- A word that makes an object passes over the name behind it, as `new` does. -/
theorem followsAccess_respell (p : Place) :
    followsAccess p.respell.before = (followsAccess p.before || p.behindOther) := by
  rcases p with ⟨_ | ⟨t, before⟩, token, after⟩
  · rfl
  · have hkind : ∀ kind, kind = .arrow ∨ kind = .doubleColon →
        ((t.respelled before).kind == kind) = (t.kind == kind) := by
      rintro _ (rfl | rfl) <;> exact Token.beq_respelled fun _ h => nomatch h
    simp only [Place.respell, respellBefore, followsAccess, headIs, List.head?_cons,
      Option.any_some, Place.behindOther, hkind _ (.inl rfl), hkind _ (.inr rfl),
      Token.isWord_new_respelled]
    rw [Token.isWord_respelled, Token.isWord_respelled]
    · cases t.isWord "new" <;> cases t.startsNew before <;> simp
    · decide
    · decide

/-! What is behind a name. -/

theorem closeParen?_respellFrom (depth : Nat) (before after : List Token) : ∃ before',
    closeParen? depth (respellFrom before after) =
      (closeParen? depth after).map (respellFrom before') := by
  induction after generalizing depth before with
  | nil => exact ⟨before, rfl⟩
  | cons t after ih =>
    simp only [respellFrom, closeParen?, Token.isPunct_respelled]
    split
    · exact ih _ _
    · split
      · split
        · exact ⟨t :: before, rfl⟩
        · exact ih _ _
      · exact ih _ _

theorem afterArguments?_respellFrom (before after : List Token) :
    ∃ before', afterArguments? (respellFrom before after) =
      (afterArguments? after).map (respellFrom before') := by
  cases after with
  | nil => exact ⟨before, rfl⟩
  | cons t after =>
    simp only [respellFrom, afterArguments?, Token.isPunct_respelled]
    split
    · exact closeParen?_respellFrom 0 _ _
    · exact ⟨before, rfl⟩

theorem headIs_isPunct_respellFrom (c : Char) (before after : List Token) :
    headIs (·.isPunct c) (respellFrom before after) = headIs (·.isPunct c) after :=
  headIs_respellFrom (fun _ _ => Token.isPunct_respelled c) before after

theorem headIs_isPunct_respellBefore (c : Char) (before : List Token) :
    headIs (·.isPunct c) (respellBefore before) = headIs (·.isPunct c) before :=
  headIs_respellBefore (fun _ _ => Token.isPunct_respelled c) before

theorem instanceMember_respellFrom (harrow : t.kind = .arrow) (owner : ClassRef)
    (before after : List Token) :
    instanceMember owner (respellFrom (t :: before) after) = instanceMember owner after := by
  cases after with
  | nil => rfl
  | cons u after =>
    rw [respellFrom, Token.respelled_of_access (.inl harrow)]
    unfold instanceMember
    simp only [headIs_isPunct_respellFrom]

theorem staticMember_respellFrom (hcolons : t.kind = .doubleColon)
    (owner : ClassRef) (start : Token)
    (before after : List Token) :
    staticMember owner start (respellFrom (t :: before) after) =
      staticMember owner start after := by
  cases after with
  | nil => rfl
  | cons u after =>
    rw [respellFrom, Token.respelled_of_access (.inr (.inl hcolons))]
    unfold staticMember
    simp only [headIs_isPunct_respellFrom]

theorem newObjectMember_respellFrom (owner : ClassRef) (before after : List Token) :
    newObjectMember owner (respellFrom before after) = newObjectMember owner after := by
  obtain ⟨before', hafter⟩ := afterArguments?_respellFrom before after
  unfold newObjectMember
  rw [hafter]
  rcases afterArguments? after with _ | _ | ⟨close, _ | ⟨arrow, rest⟩⟩
  · rfl
  · rfl
  · rfl
  · have harrow : ((arrow.respelled (close :: before')).kind == .arrow) = (arrow.kind == .arrow) :=
      Token.beq_respelled fun _ h => nomatch h
    simp only [Option.map_some, respellFrom, Token.isPunct_respelled, harrow]
    split
    · next hends =>
      exact instanceMember_respellFrom (beq_iff_eq.1 (Bool.and_eq_true_iff.1 hends).2) owner _ rest
    · rfl

theorem newReferences_respell (ns : String) (hnew : t.isNew = true)
    (before before' after : List Token) :
    newReferences ns (respellBefore before) (t.respelled before')
      (respellFrom (t :: before) after) =
      newReferences ns before t after := by
  cases after with
  | nil => rfl
  | cons owner after =>
    rw [respellFrom, Token.respelled_of_access (.inr (.inr hnew))]
    unfold newReferences
    simp only [Token.span_respelled, newObjectMember_respellFrom, headIs_isPunct_respellBefore]

/-! What a place starts. -/

theorem instanceMember_tail_respellFrom (h : headIs (·.kind == .arrow) after = true)
      (owner : ClassRef)
    (before : List Token) :
    instanceMember owner (respellFrom before after).tail = instanceMember owner after.tail := by
  obtain ⟨arrow, hhead, harrow⟩ := headIs_iff.1 h
  obtain ⟨rest, rfl⟩ := List.head?_eq_some_iff.1 hhead
  exact instanceMember_respellFrom (beq_iff_eq.1 harrow) owner before rest

theorem staticMember_tail_respellFrom (h : headIs (·.kind == .doubleColon) after = true)
      (owner : ClassRef)
    (start : Token) (before : List Token) :
    staticMember owner start (respellFrom before after).tail =
      staticMember owner start after.tail := by
  obtain ⟨colons, hhead, hcolons⟩ := headIs_iff.1 h
  obtain ⟨rest, rfl⟩ := List.head?_eq_some_iff.1 hhead
  exact staticMember_respellFrom (beq_iff_eq.1 hcolons) owner start before rest

theorem headIs_kind_respellFrom {kind : TokenKind} (h : kind = .arrow ∨ kind = .doubleColon)
    (before after : List Token) :
    headIs (·.kind == kind) (respellFrom before after) = headIs (·.kind == kind) after := by
  refine headIs_respellFrom (fun before t => Token.beq_respelled fun name hname => ?_) before after
  rcases h with rfl | rfl <;> cases hname

theorem nameReferences_respell {p : Place} (hsame : p.token.respelled p.before = p.token)
    (hname : p.token.kind = .ident name) (hbehind : p.behindOther = false) :
    nameReferences ns p.respell.before p.token name p.respell.after =
      nameReferences ns p.before p.token name p.after := by
  unfold nameReferences
  rw [followsAccess_respell, hbehind, Bool.or_false]
  split
  · rfl
  · split
    · next hnew =>
      have hisNew : p.token.isNew = true := by simp [Token.isNew, Token.ident?, hname, hnew]
      have hreferences := newReferences_respell ns hisNew p.before p.before p.after
      rwa [hsame] at hreferences
    · simp only [Place.respell, headIs_kind_respellFrom (.inr rfl), headIs_isPunct_respellFrom,
        isTypePosition_respell]
      split
      · next hcolons => simp only [staticMember_tail_respellFrom hcolons]
      · rfl

/-- The scan finds at a place what it found there, unless that was read twice. -/
theorem startingAt_respell (p : Place) :
    startingAt ns p.respell.before p.respell.token p.respell.after =
    if p.isMadeByOther then [] else startingAt ns p.before p.token p.after := by
  have htoken : p.respell.token = p.token.respelled p.before := rfl
  have hbefore : p.isMadeByOther = (p.token.ident?.isSome && p.behindOther) := rfl
  rcases Token.respelled_eq p.before p.token with hsame | ⟨name, hname, hnew, hstarts, hnow⟩
  · rw [htoken, hsame]
    unfold startingAt
    split
    · next name hname =>
      rw [hbefore, Token.ident?, hname, Option.isSome_some, Bool.true_and]
      cases hbehind : p.behindOther with
      | true => simp [nameReferences, followsAccess_respell, hbehind]
      | false => exact nameReferences_respell hsame hname hbehind
    · next name hname =>
      rw [hbefore, Token.ident?, hname, Option.isSome_none, Bool.false_and]
      simp only [Place.respell, headIs_kind_respellFrom (.inl rfl)]
      split
      · next hthis =>
          exact instanceMember_tail_respellFrom (Bool.and_eq_true_iff.1 hthis).2 .current _
      · rfl
    · rw [ite_self]
  · have hbehind := Place.behindOther_of_startsNew hstarts
    have hisNew : p.token.isNew = true := (Bool.and_eq_true_iff.1 hstarts).1
    have hreferences := newReferences_respell ns hisNew p.before p.before p.after
    have hlower : Text.lowerAscii "new" = "new" := by decide
    rw [hnow] at hreferences
    rw [htoken, hnow, hbefore, hbehind, Bool.and_false]
    simp only [startingAt, hname, nameReferences, followsAccess_respell, hbehind,
      Bool.or_false, hnew, hlower]
    split
    · rfl
    · exact hreferences

/-- The scan of a respelled body. -/
theorem scanReferences_respell (ns : String) (tokens : List Token) :
    scanReferences ns (respell tokens) =
    ((places tokens).filter (!·.isMadeByOther)).flatMap fun p =>
      startingAt ns p.before p.token p.after := by
  have hplaces := Place.placesFrom_respellFrom [] tokens
  rw [respellBefore] at hplaces
  rw [scanReferences, respell, scanFrom_eq_flatMap, hplaces, places]
  induction Place.placesFrom [] tokens with
  | nil => rfl
  | cons p ps ih =>
    rw [List.map_cons, List.flatMap_cons, ih, startingAt_respell, List.filter_cons]
    cases p.isMadeByOther <;> rfl

end Reference

/-- Leaving out members changes nothing exactly if nothing came of them. -/
theorem flatMap_filter_eq_iff {α β : Type} {test : α → Bool} {f : α → List β} {l : List α} :
    (l.filter test).flatMap f = l.flatMap f ↔ ∀ a ∈ l, test a = false → f a = [] := by
  induction l with
  | nil => simp
  | cons a l ih =>
    rw [List.forall_mem_cons, ← ih, List.flatMap_cons, List.filter_cons]
    cases htest : test a with
    | true => simp
    | false =>
      have hle := ((List.filter_sublist (p := test) (l := l)).flatMap f).length_le
      constructor
      · intro heq
        have hnone : f a = [] := by
          rw [← List.length_eq_zero_iff]
          have hlength := congrArg List.length heq
          simp only [List.length_append, Bool.false_eq_true, if_false] at hlength
          omega
        exact ⟨fun _ => hnone, by simpa [hnone] using heq⟩
      · rintro ⟨hnone, heq⟩
        simpa [hnone rfl] using heq

/-- The tokens of a text are ordered. -/
theorem ordered_tokenize (source : String) : Reference.Ordered (tokenize source).tokens where
  apart := TokenStream.pairwise_apart 0 (Lexeme.split source.toList)
  width t ht := by
    obtain ⟨before, l, after, hsplit, _, hspan⟩ := TokenStream.exists_of_mem_tokens ht
    have hpos : 0 < Text.byteSize l.text :=
      Lexeme.byteSize_pos_of_mem_split (hsplit ▸ List.mem_append_right _ (.head _))
    rw [hspan]
    exact Nat.lt_add_of_pos_right hpos

/-- The references of a text meet exactly where a class is read twice, behind a `new` in other
letters. With such words in small letters the scan finds the same but for what these classes start,
so it finds the same exactly if they start nothing. -/
theorem read_once_but_behind_other_new (ns source : String) :
    let tokens := (tokenize source).tokens
    (scanReferences ns tokens).Pairwise
        (fun r r' => r.span.Meets r'.span ↔ Reference.SharesClass tokens r r') ∧
      scanReferences ns (respell tokens) = ((places tokens).filter (!·.isMadeByOther)).flatMap
        (fun p => Reference.startingAt ns p.before p.token p.after) ∧
      (scanReferences ns (respell tokens) = scanReferences ns tokens ↔ ∀ p ∈ places tokens,
        p.isMadeByOther = true → Reference.startingAt ns p.before p.token p.after = []) := by
  intro tokens
  have hrespell := Reference.scanReferences_respell ns tokens
  refine ⟨Reference.pairwise_scanReferences (ordered_tokenize source) ns, hrespell, ?_⟩
  rw [hrespell, scanReferences, Reference.scanFrom_eq_flatMap, ← places, flatMap_filter_eq_iff]
  simp

/-- The class behind a `new` in capitals is also taken for a function that is called. -/
theorem not_read_once_behind_capitals :
    let tokens := (tokenize "NEW C();").tokens
    ¬ (scanReferences "" tokens).Pairwise (fun r r' => ¬ r.span.Meets r'.span) ∧
      scanReferences "" (respell tokens) = [⟨.new (.named "C"), ⟨0, 5⟩⟩] ∧
      scanReferences "" tokens = [⟨.new (.named "C"), ⟨0, 5⟩⟩, ⟨.call "C" none, ⟨4, 5⟩⟩] := by
  intro tokens
  have htokens : tokens = [⟨.ident "NEW", ⟨0, 3⟩⟩, ⟨.ident "C", ⟨4, 5⟩⟩, ⟨.punct '(', ⟨5, 6⟩⟩,
      ⟨.punct ')', ⟨6, 7⟩⟩, ⟨.punct ';', ⟨7, 8⟩⟩] := by
    decide +kernel
  rw [htokens]
  decide

end ModuleVisibility
