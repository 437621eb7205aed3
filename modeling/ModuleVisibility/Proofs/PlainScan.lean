import ModuleVisibility.Proofs.PlainLexing
import ModuleVisibility.Proofs.ReferenceText

/-!
The references in plain bodies. A statement is scanned from behind the semicolon of the one before
it, and leaves the scan behind its own, so a body has the references of its statements, in order.
-/
namespace ModuleVisibility
namespace Plain

/-! What a free name means. -/

namespace Ident

variable (i : Ident)

/-- No reserved word is a free name, in any case. -/
theorem lowerAscii_ne {word : String} (h : word ∈ Reference.reservedWords) :
    Text.lowerAscii i.name ≠ word := by
  rintro rfl
  have hfree := i.isFree
  rw [Reference.isReserved, List.contains_eq_mem, decide_eq_false_iff_not] at hfree
  exact hfree h

theorem ne_class : i.name ≠ "class" := by
  intro h
  have hlower : Text.lowerAscii i.name = "class" := by
    rw [h]
    decide
  exact i.lowerAscii_ne (by decide) hlower

theorem explicit?_name : Name.explicit? "" i.name = none := by
  cases hsplit : Text.splitFirst? Name.separator i.name.toList with
  | none => rw [Name.explicit?, hsplit]
  | some parts =>
    have hmem : Name.separator ∈ i.name.toList := by
      rw [Text.splitFirst?_eq hsplit]
      exact List.mem_append_right _ List.mem_cons_self
    have hsimple := i.isSimple
    rw [Plain.isSimple, Bool.and_eq_true, List.all_eq_true] at hsimple
    exact absurd (hsimple.2 _ hmem) (by decide)

theorem resolveClass_name : Name.resolveClass "" i.name = i.name := by
  rw [Name.resolveClass, explicit?_name]
  rfl

theorem resolveFunction_name : Name.resolveFunction "" i.name = ⟨i.name, none⟩ := by
  rw [Name.resolveFunction, explicit?_name]
  rfl

/-- A free name is no word for the running class. -/
theorem not_running : ¬ (Text.lowerAscii i.name = "self" ∨ Text.lowerAscii i.name = "static") :=
  fun h => h.elim (i.lowerAscii_ne (by decide)) (i.lowerAscii_ne (by decide))

theorem newClass?_name : Reference.newClass? "" i.name = some (.named i.name) := by
  have hleft : ¬ (Text.lowerAscii i.name = "parent" ∨ Text.lowerAscii i.name = "class") :=
    fun h => h.elim (i.lowerAscii_ne (by decide)) (i.lowerAscii_ne (by decide))
  unfold Reference.newClass?
  rw [if_neg i.not_running, if_neg hleft, resolveClass_name]

theorem staticClass?_name : Reference.staticClass? "" i.name = some (.named i.name) := by
  unfold Reference.staticClass?
  rw [if_neg i.not_running, if_neg (by simp [i.isFree]), resolveClass_name]

end Ident

/-! Statements. -/

open Reference

/-- Where a statement starts: nothing stands before, or the end of another. -/
inductive AtStart : List Token → Prop where
  | nil : AtStart []
  | semicolon (span : Span) (before : List Token) : AtStart (⟨.punct ';', span⟩ :: before)

section

variable {before : List Token} (hbefore : AtStart before) (i : Ident) (span next : Span)
  (after : List Token)
include hbefore

theorem AtStart.followsAccess : followsAccess before = false := by
  cases hbefore <;> rfl

/-- What is a whole statement is no type. -/
theorem AtStart.isTypePosition (t : Token) :
    isTypePosition before t (⟨.punct ';', next⟩ :: after) = false := by
  cases hbefore with
  | nil => cases after <;> rfl
  | semicolon span before => cases before <;> cases after <;> rfl

theorem nameReferences_call :
    nameReferences "" before ⟨.ident i.name, span⟩ i.name (⟨.punct '(', next⟩ :: after) =
      [⟨.call i.name none, span⟩] := by
  have hnew : Text.lowerAscii i.name ≠ "new" := i.lowerAscii_ne (by decide)
  simp only [nameReferences, hbefore.followsAccess, hnew, i.isFree, i.resolveFunction_name]
  rfl

theorem nameReferences_constant :
    nameReferences "" before ⟨.ident i.name, span⟩ i.name (⟨.punct ';', next⟩ :: after) =
      [⟨.constant i.name none, span⟩] := by
  have hnew : Text.lowerAscii i.name ≠ "new" := i.lowerAscii_ne (by decide)
  simp only [nameReferences, hbefore.followsAccess, hnew, i.isFree, i.resolveFunction_name,
    hbefore.isTypePosition]
  rfl

theorem nameReferences_owner :
    nameReferences "" before ⟨.ident i.name, span⟩ i.name (⟨.doubleColon, next⟩ :: after) =
      staticMember (.named i.name) ⟨.ident i.name, span⟩ after := by
  have hnew : Text.lowerAscii i.name ≠ "new" := i.lowerAscii_ne (by decide)
  simp only [nameReferences, hbefore.followsAccess, hnew, i.staticClass?_name]
  rfl

theorem nameReferences_self :
    nameReferences "" before ⟨.ident "self", span⟩ "self" (⟨.doubleColon, next⟩ :: after) =
      staticMember .current ⟨.ident "self", span⟩ after := by
  have hself : Text.lowerAscii "self" = "self" := by decide
  simp only [nameReferences, hbefore.followsAccess, hself, staticClass?]
  rfl

theorem newReferences_owner (t : Token) :
    newReferences "" before t (⟨.ident i.name, span⟩ :: after) =
      [⟨.new (.named i.name), t.span.join span⟩] := by
  have hparen : headIs (·.isPunct '(') before = false := by cases hbefore <;> rfl
  simp [newReferences, Token.ident?, i.newClass?_name, hparen]

end

section

variable (i : Ident) (span : Span) (before after : List Token)

theorem nameReferences_new (h : followsAccess before = false) (t : Token) :
    nameReferences "" before t "new" after = newReferences "" before t after := by
  have hnew : Text.lowerAscii "new" = "new" := by decide
  simp only [nameReferences, h, hnew]
  rfl

/-- A new object in parentheses also has the member behind them. -/
theorem newReferences_inParens (paren : Span) (t : Token) :
    newReferences "" (⟨.punct '(', paren⟩ :: before) t (⟨.ident i.name, span⟩ :: after) =
      ⟨.new (.named i.name), t.span.join span⟩ :: newObjectMember (.named i.name) after := by
  simp [newReferences, Token.ident?, i.newClass?_name, headIs, Token.isPunct]

theorem staticMember_name (owner : ClassRef) (start : Token) :
    staticMember owner start (⟨.ident i.name, span⟩ :: after) =
      [⟨.member owner i.name (if headIs (·.isPunct '(') after then .method else .constant) true,
        ⟨start.span.lo, span.hi⟩⟩] := if_neg i.ne_class

theorem startingAt_variable (h : headIs (·.kind == .arrow) after = false) (name : String) :
    startingAt "" before ⟨.variable name, span⟩ after = [] := by simp [startingAt, h]

end

/-- A statement has its references, up to its semicolon. What starts them is its first token, or the
`new` in its parentheses; the members and classes behind that start none of their own. -/
theorem map_kind_scanFrom_expression {before ts : List Token}
    (hbefore : AtStart before) (s : Statement)
    (hts : Spells s.expression ts) (stop : Span) (after : List Token) :
    (scanFrom "" before (ts ++ ⟨.punct ';', stop⟩ :: after)).map Reference.kind =
      s.references ++
        (scanFrom "" (ts.reverse ++ before) (⟨.punct ';', stop⟩ :: after)).map Reference.kind := by
  cases s with
  | call name =>
    obtain ⟨_, _, rfl, _, _, rfl, _, _, rfl, rfl⟩ := hts
    simp only [List.cons_append, List.nil_append, scanFrom, startingAt, Sign.char,
      nameReferences_call hbefore]
    rfl
  | constant name =>
    obtain ⟨_, _, rfl, rfl⟩ := hts
    simp only [List.cons_append, List.nil_append, scanFrom, startingAt,
      nameReferences_constant hbefore]
    rfl
  | new owner =>
    obtain ⟨_, _, rfl, _, _, rfl, _, _, rfl, _, _, rfl, rfl⟩ := hts
    simp only [List.cons_append, List.nil_append, scanFrom, startingAt]
    rw [nameReferences_new _ _ hbefore.followsAccess, newReferences_owner hbefore]
    rfl
  | staticCall owner method =>
    obtain ⟨_, _, rfl, _, _, rfl, _, _, rfl, _, _, rfl, _, _, rfl, rfl⟩ := hts
    simp only [List.cons_append, List.nil_append, scanFrom, startingAt]
    rw [nameReferences_owner hbefore, staticMember_name]
    rfl
  | classConstant owner name =>
    obtain ⟨_, _, rfl, _, _, rfl, _, _, rfl, rfl⟩ := hts
    simp only [List.cons_append, List.nil_append, scanFrom, startingAt]
    rw [nameReferences_owner hbefore, staticMember_name]
    rfl
  | staticProperty owner name =>
    obtain ⟨_, _, rfl, _, _, rfl, _, _, rfl, rfl⟩ := hts
    simp only [List.cons_append, List.nil_append, scanFrom]
    rw [startingAt_variable _ _ _ rfl]
    simp only [startingAt]
    rw [nameReferences_owner hbefore]
    rfl
  | selfCall method =>
    obtain ⟨_, _, rfl, _, _, rfl, _, _, rfl, _, _, rfl, _, _, rfl, rfl⟩ := hts
    simp only [List.cons_append, List.nil_append, scanFrom, startingAt]
    rw [nameReferences_self hbefore, staticMember_name]
    rfl
  | thisCall method =>
    obtain ⟨_, _, rfl, _, _, rfl, _, _, rfl, _, _, rfl, _, _, rfl, rfl⟩ := hts
    rfl
  | thisProperty name =>
    obtain ⟨_, _, rfl, _, _, rfl, _, _, rfl, rfl⟩ := hts
    rfl
  | newCall owner method =>
    obtain ⟨_, _, rfl, _, _, rfl, _, _, rfl, _, _, rfl, _, _, rfl, _, _, rfl, _, _, rfl, _,
      _, rfl, _, _, rfl, _, _, rfl, rfl⟩ := hts
    simp only [List.cons_append, List.nil_append, scanFrom, startingAt]
    rw [nameReferences_new _ _ rfl, Sign.char, newReferences_inParens]
    rfl

/-- So has a whole body, wherever its first statement starts. -/
theorem map_kind_scanFrom_body {before ts : List Token} (hbefore : AtStart before)
    (body : List Statement) (hts : Spells (body.flatMap Statement.pieces) ts) :
    (scanFrom "" before ts).map Reference.kind = body.flatMap Statement.references := by
  induction body generalizing before ts with
  | nil =>
    cases hts
    rfl
  | cons s body ih =>
    rw [List.flatMap_cons] at hts
    obtain ⟨statement, rest, rfl, hstatement, hrest⟩ := hts.exists_append
    obtain ⟨expression, _, rfl, hexpression, stop, _, rfl, rfl⟩ := hstatement.exists_append
    rw [List.append_assoc, List.cons_append, List.nil_append, List.flatMap_cons]
    refine (map_kind_scanFrom_expression hbefore s hexpression stop rest).trans ?_
    -- The semicolon refers to nothing, and behind it is a start again.
    have hlater := ih (.semicolon stop (expression.reverse ++ before)) hrest
    exact congrArg (s.references ++ ·) hlater

/-- A plain body is scanned to the references that it means. -/
theorem unplaced_scanReferences {ts : List Token} (body : List Statement)
    (hts : Spells (body.flatMap Statement.pieces) ts) :
    (scanReferences "" ts).map Reference.unplaced = bodyMeaning body := by
  have hkinds := map_kind_scanFrom_body .nil body hts
  rw [bodyMeaning, ← hkinds, List.map_map]
  rfl

end Plain
end ModuleVisibility
