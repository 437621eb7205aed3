import ModuleVisibility.Proofs.ExtendedCheck

/-!
Where the references of a body stand. A body is scanned token by token, and bodies of one text may
overlap; yet of the references that start at one place either all go through the running class or
none does, since the tokens around that place decide it.
-/
namespace ModuleVisibility
namespace Reference

/-! Parentheses. -/

theorem closeParen?_length {depth : Nat} {ts rest : List Token}
    (h : closeParen? depth ts = some rest) : rest <:+ ts ∧ rest.length < ts.length := by
  induction ts generalizing depth with
  | nil => cases h
  | cons t ts ih =>
    have hlater : ∀ {depth}, closeParen? depth ts = some rest →
        rest <:+ t :: ts ∧ rest.length < (t :: ts).length := by
      intro depth h
      obtain ⟨hsuffix, hlt⟩ := ih h
      exact ⟨hsuffix.trans (List.suffix_cons t ts), Nat.lt_succ_of_lt hlt⟩
    unfold closeParen? at h
    split at h
    · exact hlater h
    · split at h
      · split at h
        · cases h
          exact ⟨List.suffix_cons .., Nat.lt_succ_self _⟩
        · exact hlater h
      · exact hlater h

theorem closeParen?_append {depth : Nat} {ts rest : List Token}
    (h : closeParen? depth ts = some rest) (more : List Token) :
    closeParen? depth (ts ++ more) = some (rest ++ more) := by
  induction ts generalizing depth with
  | nil => cases h
  | cons t ts ih =>
    unfold closeParen? at h
    rw [List.cons_append]
    unfold closeParen?
    split at h
    · next hopen => rw [if_pos hopen, ih h]
    · next hopen =>
      rw [if_neg hopen]
      split at h
      · next hclose =>
        rw [if_pos hclose]
        cases depth with
        | zero =>
          cases h
          rfl
        | succ depth => exact ih h
      · next hclose => rw [if_neg hclose, ih h]

/-- The parentheses that are open are closed from the inside. -/
theorem closeParen?_add (outer inner : Nat) (ts : List Token) :
    closeParen? (outer + inner + 1) ts = (closeParen? inner ts).bind (closeParen? outer) := by
  induction ts generalizing inner with
  | nil => rfl
  | cons t ts ih =>
    by_cases hopen : t.isPunct '(' = true
    · simp only [closeParen?, if_pos hopen]
      exact ih (inner + 1)
    · by_cases hclose : t.isPunct ')' = true
      · simp only [closeParen?, if_neg hopen, if_pos hclose]
        cases inner with
        | zero => rfl
        | succ inner => exact ih inner
      · simp only [closeParen?, if_neg hopen, if_neg hclose]
        exact ih inner

/-- Arguments are closed before what is open around them. -/
theorem closeParen?_afterArguments {ts rest : List Token} (h : afterArguments? ts = some rest)
    (depth : Nat) : closeParen? depth ts = closeParen? depth rest := by
  cases ts with
  | nil =>
    cases h
    rfl
  | cons t ts =>
    simp only [afterArguments?] at h
    split at h
    · next hopen =>
      have hadd := closeParen?_add depth 0 ts
      rw [h, Option.bind_some] at hadd
      simp only [closeParen?, if_pos hopen]
      exact hadd
    · cases h
      rfl

/-- On the way to the end of a parenthesis every place before it is passed. -/
theorem closeParen?_of_suffix {depth : Nat} {ts rest inner : List Token}
    (h : closeParen? depth ts = some rest) (hsuffix : inner <:+ ts)
    (hlonger : rest.length < inner.length) : ∃ d, closeParen? d inner = some rest := by
  induction ts generalizing depth with
  | nil => cases h
  | cons t ts ih =>
    rcases List.suffix_cons_iff.1 hsuffix with rfl | hsuffix
    · exact ⟨depth, h⟩
    · unfold closeParen? at h
      split at h
      · exact ih h hsuffix
      · split at h
        · split at h
          · cases h
            have hle := hsuffix.length_le
            omega
          · exact ih h hsuffix
        · exact ih h hsuffix

/-! The places of references. -/

/-- The words for the class by which the running member was reached. -/
def isRunningWord (name : String) : Bool :=
  Text.lowerAscii name == "self" || Text.lowerAscii name == "static"

/-- Whether what starts with the token goes through the running class: where it is `new`, the name
behind it decides. -/
def startsRunning (t : Token) (after : List Token) : Bool :=
  t.ident?.any fun name =>
    if Text.lowerAscii name = "new" then (after.head?.bind Token.ident?).any isRunningWord
    else isRunningWord name

/-- The object before an arrow, which `rest` starts with, and whether it is one of the running
class: `$this`, or a new object in parentheses that `last` closes. -/
inductive Object (tokens : List Token) (last : Token) (rest : List Token) : Bool → Prop
  | this (hthis : last.kind = .variable "this") : Object tokens last rest true
  | new {front paren word name behind} (htokens : tokens = front ++ paren :: word :: name :: behind)
    (hopen : paren.isPunct '(' = true) (hword : word.ident?.isSome) (hname : name.ident?.isSome)
    (hbehind : afterArguments? behind = some (last :: rest)) (hclose : last.isPunct ')' = true) :
    Object tokens last rest (name.ident?.any isRunningWord)

/-- Where a reference stands among the tokens of its text. -/
inductive Stands (tokens : List Token) (r : Reference) : Prop
  /-- It starts with a token that no arrow stands before. -/
  | start {front t after} (htokens : tokens = front ++ t :: after) (hplace : r.span.lo = t.span.lo)
    (hfree : ∀ p ∈ front.getLast?, p.kind ≠ .arrow)
    (hrunning : r.kind.isCurrent = startsRunning t after) : Stands tokens r
  /-- It is the member behind an object and an arrow. -/
  | member {front last arrow t after} (htokens : tokens = front ++ last :: arrow :: t :: after)
    (harrow : arrow.kind = .arrow) (hplace : r.span.lo = t.span.lo)
    (hobject : Object tokens last (arrow :: t :: after) r.kind.isCurrent) : Stands tokens r

theorem afterArguments?_suffix {ts rest : List Token} (h : afterArguments? ts = some rest) :
    rest <:+ ts := by
  cases ts with
  | nil =>
    cases h
    exact List.suffix_rfl
  | cons t ts =>
    simp only [afterArguments?] at h
    split at h
    · exact (closeParen?_length h).1.trans (List.suffix_cons t ts)
    · cases h
      exact List.suffix_rfl

/-- Tokens are told apart by where they start. -/
theorem split_unique {tokens : List Token}
    (hpairs : tokens.Pairwise fun a b => a.span.lo < b.span.lo)
    {front front' after after' : List Token} {t t' : Token} (h : tokens = front ++ t :: after)
    (h' : tokens = front' ++ t' :: after') (hplace : t.span.lo = t'.span.lo) :
    front = front' ∧ t = t' ∧ after = after' := by
  induction front generalizing front' tokens with
  | nil =>
    cases front' with
    | nil =>
      cases h.symm.trans h'
      exact ⟨rfl, rfl, rfl⟩
    | cons first front' =>
      cases h.symm.trans h'
      have hlt := (List.pairwise_cons.1 (h' ▸ hpairs)).1 t' (by simp)
      omega
  | cons first front ih =>
    cases front' with
    | nil =>
      cases h.symm.trans h'
      have hlt := (List.pairwise_cons.1 (h' ▸ hpairs)).1 t (by simp)
      omega
    | cons first' front' =>
      cases h
      obtain ⟨rfl, hrest⟩ := List.cons_eq_cons.1 h'
      obtain ⟨rfl, rfl, rfl⟩ := ih (List.pairwise_cons.1 hpairs).2 rfl hrest
      exact ⟨rfl, rfl, rfl⟩

theorem closeParen?_of_ident {t : Token} (h : t.ident?.isSome) (depth : Nat) (ts : List Token) :
    closeParen? depth (t :: ts) = closeParen? depth ts := by
  have hpunct : ∀ c, t.isPunct c = false := by
    intro c
    refine Bool.eq_false_iff.2 fun hpunct => ?_
    unfold Token.ident? at h
    rw [beq_iff_eq.1 hpunct] at h
    cases h
  simp [closeParen?, hpunct]

theorem closeParen?_of_close {t : Token} (h : t.isPunct ')' = true) {depth : Nat}
    {ts rest : List Token} (hrest : closeParen? depth (t :: ts) = some rest) :
    rest.length ≤ ts.length := by
  have hopen : ¬ t.isPunct '(' = true := by
    rw [Token.isPunct, beq_iff_eq.1 h]
    decide
  simp only [closeParen?, if_neg hopen, if_pos h] at hrest
  cases depth with
  | zero =>
    cases hrest
    exact Nat.le_refl _
  | succ depth => exact Nat.le_of_lt (closeParen?_length hrest).2

/-- No object ends where another does whose parenthesis is opened among its arguments. -/
theorem not_inner_object {behind inner more : List Token} {word name last : Token}
    (hword : word.ident?.isSome) (hname : name.ident?.isSome)
    (hbehind : afterArguments? behind = some (last :: more))
    (hinner : afterArguments? inner = some (last :: more)) (hclose : last.isPunct ')' = true)
    (hsuffix : word :: name :: inner <:+ behind.tail) : False := by
  have hlength := (afterArguments?_suffix hinner).length_le
  have hlonger := hsuffix.length_le
  simp only [List.length_cons] at hlength hlonger
  cases behind with
  | nil => cases hbehind
  | cons t behind =>
    simp only [afterArguments?] at hbehind
    split at hbehind
    · have hshorter : (last :: more).length < (word :: name :: inner).length := by
        simp only [List.length_cons]
        omega
      obtain ⟨depth, hdepth⟩ := closeParen?_of_suffix hbehind hsuffix hshorter
      rw [closeParen?_of_ident hword, closeParen?_of_ident hname, closeParen?_afterArguments hinner]
        at hdepth
      have hle := closeParen?_of_close hclose hdepth
      simp only [List.length_cons] at hle
      omega
    · cases hbehind
      simp only [List.tail_cons] at hlonger
      omega

/-- The parenthesis that is closed before an arrow was not opened behind another such. -/
theorem object_length_le {front front' behind behind' more : List Token}
    {paren paren' word word' name name' last : Token}
    (h : front ++ paren :: word :: name :: behind = front' ++ paren' :: word' :: name' :: behind')
    (hopen' : paren'.isPunct '(' = true) (hword : word.ident?.isSome) (hname : name.ident?.isSome)
    (hword' : word'.ident?.isSome) (hname' : name'.ident?.isSome)
    (hbehind : afterArguments? behind = some (last :: more))
    (hbehind' : afterArguments? behind' = some (last :: more))
    (hclose : last.isPunct ')' = true) : front'.length ≤ front.length := by
  by_contra hlonger
  obtain ⟨middle, rfl, hmiddle⟩ | ⟨middle, rfl, _⟩ := List.append_eq_append_iff.1 h
  · cases middle with
    | nil => simp at hlonger
    | cons first middle =>
      obtain ⟨rfl, hinside⟩ := List.cons_eq_cons.1 hmiddle
      have hnot : ∀ {t : Token}, t.ident?.isSome → paren' ≠ t := by
        rintro t ht rfl
        unfold Token.ident? at ht
        rw [beq_iff_eq.1 hopen'] at ht
        cases ht
      have hsuffix : paren' :: word' :: name' :: behind' <:+ word :: name :: behind :=
        ⟨middle, hinside.symm⟩
      rcases List.suffix_cons_iff.1 hsuffix with heq | hsuffix
      · exact hnot hword (List.cons_eq_cons.1 heq).1
      · rcases List.suffix_cons_iff.1 hsuffix with heq | hsuffix
        · exact hnot hname (List.cons_eq_cons.1 heq).1
        · obtain ⟨before, rfl⟩ := hsuffix
          refine not_inner_object hword' hname' hbehind hbehind' hclose ?_
          cases before with
          | nil => exact List.suffix_rfl
          | cons b before => exact ⟨before ++ [paren'], by simp⟩
  · simp at hlonger

theorem Object.unique {tokens rest : List Token} {last : Token} {running running' : Bool}
    (h : Object tokens last rest running) (h' : Object tokens last rest running') :
    running = running' := by
  have hnot : ∀ {c : Char}, last.kind = .variable "this" → last.isPunct c = true → False := by
    intro c hthis hpunct
    rw [Token.isPunct, hthis] at hpunct
    cases hpunct
  cases h with
  | this hthis =>
    cases h' with
    | this _ => rfl
    | new _ _ _ _ _ hclose => exact (hnot hthis hclose).elim
  | new htokens hopen hword hname hbehind hclose =>
    cases h' with
    | this hthis => exact (hnot hthis hclose).elim
    | new htokens' hopen' hword' hname' hbehind' _ =>
      have h := htokens.symm.trans htokens'
      have hlength := Nat.le_antisymm
        (object_length_le h.symm hopen hword' hname' hword hname hbehind' hbehind hclose)
        (object_length_le h hopen' hword hname hword' hname' hbehind hbehind' hclose)
      cases List.append_inj_right h hlength
      rfl

section

variable {tokens : List Token} (hpairs : tokens.Pairwise fun a b => a.span.lo < b.span.lo)
  {r r' : Reference}
include hpairs

/-- Behind an arrow nothing starts by itself. -/
theorem not_start_member {front front' after after' : List Token} {t t' last arrow : Token}
    (h : tokens = front ++ t :: after) (h' : tokens = front' ++ last :: arrow :: t' :: after')
    (hplace : t.span.lo = t'.span.lo) (hfree : ∀ p ∈ front.getLast?, p.kind ≠ .arrow)
    (harrow : arrow.kind = .arrow) : False := by
  have h' : tokens = (front' ++ [last, arrow]) ++ t' :: after' := by simp [h']
  obtain ⟨rfl, _⟩ := split_unique hpairs h h' hplace
  exact hfree arrow (by simp) harrow

/-- References that start at one place all go through the running class, or none does. -/
theorem Stands.isCurrent_eq (h : Stands tokens r) (h' : Stands tokens r')
    (hplace : r.span.lo = r'.span.lo) : r.kind.isCurrent = r'.kind.isCurrent := by
  cases h with
  | start htokens hlo hfree hrunning =>
    cases h' with
    | start htokens' hlo' hfree' hrunning' =>
      obtain ⟨_, rfl, rfl⟩ :=
        split_unique hpairs htokens htokens' (hlo.symm.trans (hplace.trans hlo'))
      rw [hrunning, hrunning']
    | member htokens' harrow' hlo' _ =>
      exact (not_start_member hpairs htokens htokens' (hlo.symm.trans (hplace.trans hlo')) hfree
        harrow').elim
  | @member front last arrow t after htokens harrow hlo hobject =>
    cases h' with
    | start htokens' hlo' hfree' _ =>
      exact (not_start_member hpairs htokens' htokens
        (hlo'.symm.trans (hplace.symm.trans hlo)) hfree'
        harrow).elim
    | @member front' last' arrow' t' after' htokens' harrow' hlo' hobject' =>
      have hsplit : tokens = (front ++ [last, arrow]) ++ t :: after := by simp [htokens]
      have hsplit' : tokens = (front' ++ [last', arrow']) ++ t' :: after' := by simp [htokens']
      obtain ⟨hfront, rfl, rfl⟩ :=
        split_unique hpairs hsplit hsplit' (hlo.symm.trans (hplace.trans hlo'))
      obtain ⟨_, hlast⟩ := List.append_inj' hfront rfl
      cases hlast
      exact hobject.unique hobject'

end

/-! The scan. -/

theorem headIs_iff {test : Token → Bool} {ts : List Token} :
    headIs test ts = true ↔ ∃ t ∈ ts.head?, test t = true := by
  simp [headIs, Option.any_eq_true]

theorem lowerAscii_ne_new {name : String} (h : isReserved name = false) :
    Text.lowerAscii name ≠ "new" := by
  intro hnew
  rw [isReserved, hnew] at h
  revert h
  decide

/-- The class that a word stands for: the running one, or what it names in the namespace. -/
def classOf (ns name : String) : ClassRef :=
  if isRunningWord name then .current else .named (Name.resolveClass ns name)

@[simp] theorem isCurrent_classOf (ns name : String) :
    (ReferenceKind.new (classOf ns name)).isCurrent = isRunningWord name := by
  unfold classOf
  cases isRunningWord name <;> rfl

theorem eq_of_newClass? {ns name : String} {owner : ClassRef} (h : newClass? ns name = some owner) :
    owner = classOf ns name := by
  unfold newClass? at h
  unfold classOf isRunningWord
  dsimp only at h
  split at h
  · next hword =>
    cases h
    rw [if_pos (by simpa using hword)]
  · next hword =>
    split at h
    · cases h
    · cases h
      rw [if_neg (by simpa using hword)]

@[simp] theorem isCurrent_member (owner : ClassRef) (name : String) (kind : MemberKind)
    (isStatic : Bool) : (ReferenceKind.member owner name kind isStatic).isCurrent =
      (ReferenceKind.new owner).isCurrent := by
  cases owner <;> rfl

theorem isRunningWord_of_isReserved {name : String} (h : isReserved name = false) :
    isRunningWord name = false := by
  unfold isRunningWord
  refine Bool.or_eq_false_iff.2 ⟨beq_eq_false_iff_ne.2 ?_, beq_eq_false_iff_ne.2 ?_⟩ <;>
  · intro hword
    rw [isReserved, hword] at h
    revert h
    decide

theorem eq_of_staticClass? {ns name : String} {owner : ClassRef}
    (h : staticClass? ns name = some owner) :
    owner = classOf ns name := by
  unfold staticClass? at h
  unfold classOf
  dsimp only at h
  split at h
  · next hword =>
    cases h
    rw [if_pos (by simpa [isRunningWord] using hword)]
  · split at h
    · cases h
    · next hreserved =>
      cases h
      rw [isRunningWord_of_isReserved (Bool.eq_false_iff.2 hreserved)]
      rfl

theorem exists_of_mem_instanceMember {owner : ClassRef} {ts : List Token} {r : Reference}
    (h : r ∈ instanceMember owner ts) :
    ∃ t after name kind, ts = t :: after ∧ t.ident? = some name ∧
      r = ⟨.member owner name kind false, t.span⟩ := by
  unfold instanceMember at h
  split at h
  · cases h
  · next t after =>
    split at h
    · cases h
    · next name hname => exact ⟨t, after, name, _, rfl, hname, List.mem_singleton.1 h⟩

theorem exists_of_mem_staticMember {owner : ClassRef} {start : Token}
    {ts : List Token} {r : Reference}
    (h : r ∈ staticMember owner start ts) : ∃ t after name kind, ts = t :: after ∧
      (t.kind = .variable name ∨ t.kind = .ident name) ∧
        r = ⟨.member owner name kind true, ⟨start.span.lo, t.span.hi⟩⟩ := by
  unfold staticMember at h
  split at h
  · cases h
  · next t after =>
    dsimp only at h
    split at h
    · next name hkind => exact ⟨t, after, name, _, rfl, .inl hkind, List.mem_singleton.1 h⟩
    · next name hkind =>
      split at h
      · cases h
      · exact ⟨t, after, name, _, rfl, .inr hkind, List.mem_singleton.1 h⟩
    · cases h

theorem exists_of_mem_newObjectMember {owner : ClassRef} {after : List Token} {r : Reference}
    (h : r ∈ newObjectMember owner after) :
    ∃ close arrow rest, afterArguments? after = some (close :: arrow :: rest) ∧
      close.isPunct ')' = true ∧ arrow.kind = .arrow ∧ r ∈ instanceMember owner rest := by
  unfold newObjectMember at h
  split at h
  · next close arrow rest harguments =>
    split at h
    · next hends =>
      obtain ⟨hclose, harrow⟩ := Bool.and_eq_true_iff.1 hends
      exact ⟨close, arrow, rest, harguments, hclose, beq_iff_eq.1 harrow, h⟩
    · cases h
  · cases h

theorem exists_of_mem_newReferences {ns : String} {before after : List Token}
    {t : Token} {r : Reference}
    (h : r ∈ newReferences ns before t after) : ∃ operand rest word owner, after = operand :: rest ∧
      operand.ident? = some word ∧ newClass? ns word = some owner ∧
        (r = ⟨.new owner, t.span.join operand.span⟩ ∨
          ∃ paren outer, before = paren :: outer ∧ paren.isPunct '(' = true ∧
            r ∈ newObjectMember owner rest) := by
  unfold newReferences at h
  split at h
  · cases h
  · next operand rest =>
    split at h
    · cases h
    · next owner howner =>
      obtain ⟨word, hword, hclass⟩ := Option.bind_eq_some_iff.1 howner
      refine ⟨operand, rest, word, owner, rfl, hword, hclass, ?_⟩
      rcases List.mem_cons.1 h with rfl | hmember
      · exact .inl rfl
      · split at hmember
        · next hopen =>
          obtain ⟨paren, hparen, hopen⟩ := headIs_iff.1 hopen
          obtain ⟨outer, rfl⟩ := List.head?_eq_some_iff.1 hparen
          exact .inr ⟨paren, outer, rfl, hopen, hmember⟩
        · cases hmember

/-- How a token starts a reference. -/
inductive Starts (ns : String) (before : List Token) (t : Token) (after : List Token)
    (r : Reference) : Prop
  | new {name} (hkind : t.kind = .ident name) (hfree : followsAccess before = false)
    (hnew : Text.lowerAscii name = "new") (h : r ∈ newReferences ns before t after)
  | static {name owner colons rest} (hkind : t.kind = .ident name)
    (hfree : followsAccess before = false)
    (hnew : Text.lowerAscii name ≠ "new") (hafter : after = colons :: rest)
    (hcolons : colons.kind = .doubleColon)
    (hclass : staticClass? ns name = some owner) (h : r ∈ staticMember owner t rest)
  | call {name} (hkind : t.kind = .ident name) (hfree : followsAccess before = false)
    (hcolons : ¬ headIs (·.kind == .doubleColon) after = true) (hreserved : isReserved name = false)
    (hcalled : headIs (·.isPunct '(') after = true)
    (h : r = ⟨.call (Name.resolveFunction ns name).name
      (Name.resolveFunction ns name).fallback, t.span⟩)
  | constant {name} (hkind : t.kind = .ident name) (hfree : followsAccess before = false)
    (hcolons : ¬ headIs (·.kind == .doubleColon) after = true) (hreserved : isReserved name = false)
    (hcalled : ¬ headIs (·.isPunct '(') after = true)
      (htype : ¬ isTypePosition before t after = true)
    (h : r = ⟨.constant (Name.resolveFunction ns name).name
      (Name.resolveFunction ns name).fallback, t.span⟩)
  | this {arrow rest} (hkind : t.kind = .variable "this") (hafter : after = arrow :: rest)
    (harrow : arrow.kind = .arrow) (h : r ∈ instanceMember .current rest)

theorem starts_of_mem_startingAt {ns : String} {before after : List Token} {t : Token}
    {r : Reference} (h : r ∈ startingAt ns before t after) : Starts ns before t after r := by
  unfold startingAt at h
  split at h
  · next name hkind =>
    unfold nameReferences at h
    split at h
    · cases h
    next hfollows =>
    have hfree := Bool.eq_false_iff.2 hfollows
    split at h
    · next hnew => exact .new hkind hfree hnew h
    next hnew =>
    split at h
    · next hcolons =>
      obtain ⟨colons, hhead, hcolons⟩ := headIs_iff.1 hcolons
      obtain ⟨rest, rfl⟩ := List.head?_eq_some_iff.1 hhead
      split at h
      · next owner hclass => exact .static hkind hfree hnew rfl (beq_iff_eq.1 hcolons) hclass h
      · cases h
    next hcolons =>
    split at h
    · cases h
    next hreserved =>
    dsimp only at h
    split at h
    · next hcalled =>
      exact .call hkind hfree hcolons (Bool.eq_false_iff.2 hreserved) hcalled
        (List.mem_singleton.1 h)
    next hcalled =>
    split at h
    · cases h
    · next htype =>
      exact .constant hkind hfree hcolons (Bool.eq_false_iff.2 hreserved) hcalled htype
        (List.mem_singleton.1 h)
  · next name hkind =>
    split at h
    · next hthis =>
      obtain ⟨hname, harrow⟩ := Bool.and_eq_true_iff.1 hthis
      obtain ⟨arrow, hhead, harrow⟩ := headIs_iff.1 harrow
      obtain ⟨rest, rfl⟩ := List.head?_eq_some_iff.1 hhead
      exact .this (by rw [hkind, of_decide_eq_true hname]) rfl (beq_iff_eq.1 harrow) h
    · cases h
  · cases h

theorem afterArguments?_append {ts rest : List Token} {t : Token}
    (h : afterArguments? ts = some (t :: rest)) (more : List Token) :
    afterArguments? (ts ++ more) = some (t :: (rest ++ more)) := by
  cases ts with
  | nil => cases h
  | cons first ts =>
    simp only [afterArguments?, List.cons_append] at h ⊢
    split at h
    · next hopen =>
      rw [if_pos hopen]
      exact closeParen?_append h more
    · next hopen =>
      rw [if_neg hopen]
      cases h
      rfl

section

variable {tokens front before after more : List Token} {t : Token} {ns : String} {r : Reference}
  (hpairs : tokens.Pairwise fun a b => a.span.lo < b.span.lo)
  (htokens : tokens = (front ++ before.reverse) ++ t :: (after ++ more))
  (hfront : ∀ p ∈ front.getLast?, p.kind ≠ .arrow)

include hfront in
theorem free_of_followsAccess (h : followsAccess before = false) :
    ∀ p ∈ (front ++ before.reverse).getLast?, p.kind ≠ .arrow := by
  cases before with
  | nil => simpa using hfront
  | cons last before =>
    intro p hp harrow
    rw [List.reverse_cons, ← List.append_assoc, List.getLast?_concat] at hp
    cases hp
    simp [followsAccess, headIs, harrow] at h

include htokens in
theorem stands_of_mem_newObjectMember {paren operand : Token} {before' after' : List Token}
    (hbefore : before = paren :: before') (hopen : paren.isPunct '(' = true)
      (hident : t.ident?.isSome)
    (hafter : after = operand :: after') {word : String} {owner : ClassRef}
    (hword : operand.ident? = some word)
    (hclass : newClass? ns word = some owner) (h : r ∈ newObjectMember owner after') :
    Stands tokens r := by
  subst hbefore hafter
  obtain ⟨close, arrow, behind, harguments, hclose, harrow, hmember⟩ :=
    exists_of_mem_newObjectMember h
  obtain ⟨member, later, _, _, rfl, -, rfl⟩ := exists_of_mem_instanceMember hmember
  have hbehind := afterArguments?_append harguments more
  obtain ⟨arguments, harguments⟩ := afterArguments?_suffix hbehind
  have hopening : tokens =
      (front ++ before'.reverse) ++ paren :: t :: operand :: (after' ++ more) := by
    simp [htokens]
  have hmember : tokens = (front ++ before'.reverse ++ [paren, t, operand] ++ arguments) ++
      close :: arrow :: member :: (later ++ more) := by
    simp [hopening, ← harguments]
  have hrunning : isRunningWord word = operand.ident?.any isRunningWord := by
    rw [hword]
    rfl
  refine .member hmember harrow rfl ?_
  rw [isCurrent_member, eq_of_newClass? hclass, isCurrent_classOf, hrunning]
  exact .new hopening hopen hident (Option.isSome_of_eq_some hword) hbehind hclose

include hpairs htokens in
theorem stands_of_mem_newReferences {name : String} (hident : t.ident? = some name)
    (hnew : Text.lowerAscii name = "new")
    (hfree : ∀ p ∈ (front ++ before.reverse).getLast?, p.kind ≠ .arrow)
    (h : r ∈ newReferences ns before t after) : Stands tokens r := by
  obtain ⟨operand, after', word, owner, rfl, hword, hclass,
      rfl | ⟨paren, before', rfl, hopen, hmember⟩⟩ :=
    exists_of_mem_newReferences h
  · have hlt : t.span.lo < operand.span.lo := by
      rw [htokens] at hpairs
      have hbehind := (List.pairwise_append.1 hpairs).2.1
      exact (List.pairwise_cons.1 hbehind).1 operand (by simp)
    refine .start htokens (Nat.min_eq_left (Nat.le_of_lt hlt)) hfree ?_
    rw [eq_of_newClass? hclass, isCurrent_classOf, startsRunning, hident,
      Option.any_some, if_pos hnew]
    simp [hword]
  · exact stands_of_mem_newObjectMember htokens rfl hopen (Option.isSome_of_eq_some hident) rfl
      hword hclass hmember

include hpairs htokens hfront

/-- Whatever a token starts stands there, or behind an arrow that follows. -/
theorem stands_of_mem_startingAt (h : r ∈ startingAt ns before t after) : Stands tokens r := by
  have hident : ∀ {name}, t.kind = .ident name → t.ident? = some name :=
    fun hkind => by rw [Token.ident?, hkind]
  have hstart : ∀ {name}, t.kind = .ident name → followsAccess before = false →
    Text.lowerAscii name ≠ "new" →
      r.span.lo = t.span.lo → r.kind.isCurrent = isRunningWord name → Stands tokens r := by
    intro name hkind hfree hnew hplace hrunning
    refine .start htokens hplace (free_of_followsAccess hfront hfree) ?_
    rw [hrunning, startsRunning, hident hkind, Option.any_some, if_neg hnew]
  cases starts_of_mem_startingAt h with
  | new hkind hfree hnew hmember =>
    exact stands_of_mem_newReferences hpairs htokens (hident hkind) hnew
      (free_of_followsAccess hfront hfree) hmember
  | static hkind hfree hnew hafter hcolons hclass hmember =>
    obtain ⟨_, _, _, _, -, -, rfl⟩ := exists_of_mem_staticMember hmember
    refine hstart hkind hfree hnew rfl ?_
    rw [isCurrent_member, eq_of_staticClass? hclass, isCurrent_classOf]
  | call hkind hfree _ hreserved _ hr =>
    subst hr
    exact hstart hkind hfree (lowerAscii_ne_new hreserved) rfl
      (isRunningWord_of_isReserved hreserved).symm
  | constant hkind hfree _ hreserved _ _ hr =>
    subst hr
    exact hstart hkind hfree (lowerAscii_ne_new hreserved) rfl
      (isRunningWord_of_isReserved hreserved).symm
  | this hkind hafter harrow hmember =>
    obtain ⟨member, later, _, _, rfl, -, rfl⟩ := exists_of_mem_instanceMember hmember
    subst hafter
    refine .member htokens harrow rfl ?_
    rw [isCurrent_member]
    exact .this hkind

end

theorem exists_of_mem_scanFrom {ns : String} {before tokens : List Token} {r : Reference}
    (h : r ∈ scanFrom ns before tokens) : ∃ passed t after, tokens = passed ++ t :: after ∧
      r ∈ startingAt ns (passed.reverse ++ before) t after := by
  induction tokens generalizing before with
  | nil => cases h
  | cons t tokens ih =>
    rcases List.mem_append.1 h with hhere | hlater
    · exact ⟨[], t, tokens, rfl, hhere⟩
    · obtain ⟨passed, u, after, rfl, hu⟩ := ih hlater
      exact ⟨t :: passed, u, after, rfl, by simpa using hu⟩

/-- The references of a body stand in the text of the body, if no arrow stands before it. -/
theorem stands_of_mem_scanReferences {tokens front body more : List Token}
    (hpairs : tokens.Pairwise fun a b => a.span.lo < b.span.lo)
    (htokens : tokens = front ++ (body ++ more)) (hfront : ∀ p ∈ front.getLast?, p.kind ≠ .arrow)
    {ns : String} {r : Reference} (h : r ∈ scanReferences ns body) : Stands tokens r := by
  obtain ⟨passed, t, after, rfl, hr⟩ := exists_of_mem_scanFrom h
  have hsplit : tokens = (front ++ (passed.reverse ++ []).reverse) ++ t :: (after ++ more) := by
    simp [htokens]
  exact stands_of_mem_startingAt hpairs hsplit hfront hr

end Reference
end ModuleVisibility
