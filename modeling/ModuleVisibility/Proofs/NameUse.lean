import Mathlib.Data.List.Forall2
import ModuleVisibility.Proofs.Scan
import ModuleVisibility.Proofs.TypeArguments

/-!
The uses of names in a body. A free name is a call if a parenthesis follows, and else the use of a
constant, unless the scan takes it for a type. The calls and constants that the scan finds are
exactly these, one for each, in order. What is taken for a type goes by the nearest tokens alone: a
colon behind a parenthesis, an angle glued to a name. So besides types also a branch of a
conditional and the operands of a comparison are passed over; the places of types are defined here,
too, to tell them apart.
-/
namespace ModuleVisibility

/-- A token of a body with the tokens before it, nearest first, and those behind it. -/
structure Place where
  before : List Token
  token : Token
  after : List Token
  deriving DecidableEq

namespace Place

def placesFrom (before : List Token) : List Token → List Place
  | [] => []
  | t :: after => ⟨before, t, after⟩ :: placesFrom (t :: before) after

end Place

/-- The places of a body, in order. -/
def places (tokens : List Token) : List Place := Place.placesFrom [] tokens

namespace Place

theorem mem_placesFrom {before tokens : List Token} {p : Place} : p ∈ placesFrom before tokens ↔
    ∃ passed, p.before = passed.reverse ++ before ∧ tokens = passed ++ p.token :: p.after := by
  induction tokens generalizing before with
  | nil => simp [placesFrom]
  | cons t tokens ih =>
    rw [placesFrom, List.mem_cons, ih]
    constructor
    · rintro (rfl | ⟨passed, hbefore, rfl⟩)
      · exact ⟨[], rfl, rfl⟩
      · exact ⟨t :: passed, by simp [hbefore], rfl⟩
    · rintro ⟨_ | ⟨u, passed⟩, hbefore, htokens⟩
      · obtain ⟨rfl, rfl⟩ := List.cons_eq_cons.1 htokens
        exact .inl (by rw [← hbefore.trans (List.nil_append before)])
      · obtain ⟨rfl, rfl⟩ := List.cons_eq_cons.1 htokens
        exact .inr ⟨passed, by simp [hbefore], rfl⟩

/-- Each token of the body is at one of its places. -/
theorem mem_places {tokens : List Token} {p : Place} :
    p ∈ places tokens ↔ tokens = p.before.reverse ++ p.token :: p.after := by
  rw [places, mem_placesFrom]
  constructor
  · rintro ⟨passed, hbefore, rfl⟩
    simp [hbefore]
  · exact fun h => ⟨p.before.reverse, by simp, h⟩

/-! Free names. -/

variable (p : Place)

/-- The token is a free name: no reserved word and no member, no name that is declared, made anew or
goes before two colons. -/
structure FreeName (name : String) : Prop where
  token : p.token.kind = .ident name
  free : Reference.isReserved name = false
  before : ∀ q ∈ p.before.head?,
    q.kind ∉ [.arrow, .doubleColon, .ident "function", .ident "new", .ident "const"]
  after : ∀ q ∈ p.after.head?, q.kind ≠ .doubleColon

/-- A parenthesis follows. -/
def IsCalled : Prop := ∃ q ∈ p.after.head?, q.kind = .punct '('

/-- A variable follows, as a parameter does its type. -/
def BeforeVariable : Prop := ∃ q ∈ p.after.head?, ∃ name, q.kind = .variable name

/-- It is the operand of a word that takes a type. -/
def IsOperand : Prop := ∃ q ∈ p.before.head?,
  q.kind ∈ [.ident "as", .ident "is", .ident "instanceof", .ident "catch"]

/-- A closing parenthesis and a colon stand before. -/
def BehindColon : Prop := ∃ colon paren rest, p.before = colon :: paren :: rest ∧
  colon.kind = .punct ':' ∧ paren.kind = .punct ')'

/-- A glued angle and a name stand behind. -/
def BeforeAngle : Prop := ∃ angle argument rest name, p.after = angle :: argument :: rest ∧
  angle.kind = .punct '<' ∧ p.token.span.hi = angle.span.lo ∧ argument.kind = .ident name

/-- An angle glued to a name is open before, if not closed by what type arguments consist of. -/
def BehindAngle : Prop := Reference.OpensBefore 0 p.before

/-- The scan takes the name for a type. -/
def LooksLikeType : Prop :=
  p.BeforeVariable ∨ p.IsOperand ∨ p.BehindColon ∨ p.BeforeAngle ∨ p.BehindAngle

/-- The token is a free name that is called, or else not taken for a type. -/
def IsUse : Prop := ∃ name, p.FreeName name ∧ (p.IsCalled ∨ ¬ p.LooksLikeType)

/-- What the free name refers to. -/
inductive Refers (ns : String) : Reference → Prop
  | call {name} (h : p.FreeName name) (hcalled : p.IsCalled) : Refers ns
    ⟨.call (Name.resolveFunction ns name).name
      (Name.resolveFunction ns name).fallback, p.token.span⟩
  | constant {name} (h : p.FreeName name) (hcalled : ¬ p.IsCalled) (htype : ¬ p.LooksLikeType) :
    Refers ns
    ⟨.constant (Name.resolveFunction ns name).name
      (Name.resolveFunction ns name).fallback, p.token.span⟩

/-! Types. -/

/-- Whether all angles are closed, where `depth` are open. -/
def closesAngles : Nat → List Token → Bool
  | _, [] => false
  | depth, t :: ts =>
    let left := depth + Reference.anglesOpened t - Reference.anglesClosed t
    left == 0 || closesAngles left ts

/-- What follows the signature of an anonymous function: its body, the variables that it takes
along, or the arrow of a lambda. -/
inductive EndsSignature : List Token → Prop
  | body {brace rest} (h : brace.kind = .punct '\x7b') : EndsSignature (brace :: rest)
  | captures {word rest} (h : word.kind = .ident "use") : EndsSignature (word :: rest)
  | lambda {first second angle rest} (hfirst : first.kind = .punct '=')
    (hsecond : second.kind = .punct '=')
    (hangle : angle.kind = .punct '>') : EndsSignature (first :: second :: angle :: rest)

/-- It is the result type of an anonymous function, perhaps with type arguments. -/
def IsResult : Prop := p.BehindColon ∧ EndsSignature (Reading.skipTypeArguments p.after)

/-- A glued angle stands behind, and it is closed. -/
def IsHead : Prop := ∃ angle rest, p.after = angle :: rest ∧ angle.kind = .punct '<' ∧
  p.token.span.hi = angle.span.lo ∧ closesAngles 1 rest = true

/-- It stands between an angle glued to a name and the end of that angle. -/
def IsArgument : Prop := ∃ inside angle outside, p.before = inside.reverse ++ angle :: outside ∧
  angle.kind = .punct '<' ∧ Reference.Glued outside angle ∧ closesAngles 1 inside = false ∧
    closesAngles 1 (inside ++ p.token :: p.after) = true

/-- The name stands where types do: before a variable, as an operand that is a type, as the result
type of an anonymous function, or as head or argument of a generic type. -/
def IsType : Prop := p.BeforeVariable ∨ p.IsOperand ∨ p.IsResult ∨ p.IsHead ∨ p.IsArgument

end Place

/-- Whether it is a call or the use of a constant. -/
def ReferenceKind.isUse : ReferenceKind → Bool
  | call .. | constant .. => true
  | _ => false

namespace Reference

variable {ns name : String} {before after : List Token} {t : Token} {r : Reference}

/-! What the scan looks at. -/

theorem followsAccess_eq_false_iff : followsAccess before = false ↔ ∀ q ∈ before.head?,
    q.kind ∉ [.arrow, .doubleColon, .ident "function", .ident "new", .ident "const"] := by
  rw [← Bool.not_eq_true, followsAccess, headIs_iff]
  simp [Token.isWord, or_assoc]

theorem doubleColon_iff : ¬ headIs (·.kind == .doubleColon) after = true ↔
    ∀ q ∈ after.head?, q.kind ≠ .doubleColon := by
  rw [headIs_iff]
  simp

theorem followsSignature_iff : followsSignature before = true ↔
      (⟨before, t, after⟩ : Place).BehindColon := by
  unfold followsSignature Place.BehindColon
  split
  · simp [Token.isPunct]
  · next hshort =>
    simp only [Bool.false_eq_true, false_iff]
    rintro ⟨colon, paren, rest, rfl, _⟩
    exact hshort _ _ _ rfl

theorem takesTypeArguments_iff : takesTypeArguments t after = true ↔
    (⟨before, t, after⟩ : Place).BeforeAngle := by
  unfold takesTypeArguments Place.BeforeAngle
  split
  · next angle argument rest =>
    rcases argument with ⟨kind, span⟩
    cases kind <;> simp [Token.isPunct, Token.ident?, and_assoc]
  · next hshort =>
    simp only [Bool.false_eq_true, false_iff]
    rintro ⟨angle, argument, rest, _, rfl, _⟩
    exact hshort _ _ _ rfl

/-- A name is taken for a type by what stands around it. -/
theorem isTypePosition_iff (p : Place) :
    isTypePosition p.before p.token p.after = true ↔ p.LooksLikeType := by
  have hoperand : headIs (fun q => q.isWord "as" || q.isWord "is" || q.isWord "instanceof" ||
      q.isWord "catch") p.before = true ↔ p.IsOperand := by
    rw [headIs_iff]
    simp [Place.IsOperand, Token.isWord, or_assoc]
  unfold isTypePosition Place.LooksLikeType
  rw [Bool.or_eq_true, Bool.or_eq_true, Bool.or_eq_true, Bool.or_eq_true, or_assoc,
    or_assoc, or_assoc]
  refine or_congr ?_ (or_congr hoperand (or_congr followsSignature_iff
    (or_congr takesTypeArguments_iff insideTypeArguments_iff)))
  rw [headIs_iff]
  refine exists_congr fun q => and_congr_right fun _ => ?_
  rcases q with ⟨kind, span⟩
  cases kind <;> simp

/-! What a token starts. -/

theorem isUse_instanceMember {owner : ClassRef} {ts : List Token}
    (h : r ∈ instanceMember owner ts) :
    r.kind.isUse = false := by
  obtain ⟨_, _, _, _, -, -, rfl⟩ := exists_of_mem_instanceMember h
  rfl

theorem isUse_staticMember {owner : ClassRef} {start : Token} {ts : List Token}
    (h : r ∈ staticMember owner start ts) : r.kind.isUse = false := by
  obtain ⟨_, _, _, _, -, -, rfl⟩ := exists_of_mem_staticMember h
  rfl

theorem isUse_newReferences (h : r ∈ newReferences ns before t after) : r.kind.isUse = false := by
  obtain ⟨_, _, _, _, -, -, -, rfl | ⟨_, _, -, -, hmember⟩⟩ := exists_of_mem_newReferences h
  · rfl
  · obtain ⟨_, _, _, -, -, -, hmember⟩ := exists_of_mem_newObjectMember hmember
    exact isUse_instanceMember hmember

theorem isCalled_iff (p : Place) : headIs (·.isPunct '(') p.after = true ↔ p.IsCalled := by
  rw [headIs_iff]
  simp [Place.IsCalled, Token.isPunct]

/-- The free names among the places start what they refer to, -/
theorem startingAt_of_refers {p : Place} (h : p.Refers ns r) :
    startingAt ns p.before p.token p.after = [r] := by
  have hname : ∀ {name}, p.FreeName name → startingAt ns p.before p.token p.after =
      if headIs (·.isPunct '(') p.after then
        [⟨.call (Name.resolveFunction ns name).name
          (Name.resolveFunction ns name).fallback, p.token.span⟩]
      else if isTypePosition p.before p.token p.after then []
      else [⟨.constant (Name.resolveFunction ns name).name (Name.resolveFunction ns name).fallback,
        p.token.span⟩] := by
    intro name hfree
    simp only [startingAt, hfree.token, nameReferences, followsAccess_eq_false_iff.2 hfree.before,
      lowerAscii_ne_new hfree.free, if_neg (doubleColon_iff.2 hfree.after), hfree.free]
    rfl
  cases h with
  | call hfree hcalled => rw [hname hfree, if_pos ((isCalled_iff p).2 hcalled)]
  | constant hfree hcalled htype =>
    rw [hname hfree, if_neg (mt (isCalled_iff p).1 hcalled),
      if_neg (mt (isTypePosition_iff p).1 htype)]

/-- and no other use starts anywhere. -/
theorem refers_of_mem_startingAt {p : Place} (h : r ∈ startingAt ns p.before p.token p.after)
    (huse : r.kind.isUse = true) : p.Refers ns r := by
  have hnot : r.kind.isUse = false → p.Refers ns r := fun hother => absurd huse (by simp [hother])
  cases starts_of_mem_startingAt h with
  | new _ _ _ hmember => exact hnot (isUse_newReferences hmember)
  | static _ _ _ _ _ _ hmember => exact hnot (isUse_staticMember hmember)
  | call hkind hfree hcolons hreserved hcalled hr =>
    rw [hr]
    exact .call ⟨hkind, hreserved, followsAccess_eq_false_iff.1 hfree, doubleColon_iff.1 hcolons⟩
      ((isCalled_iff p).1 hcalled)
  | constant hkind hfree hcolons hreserved hcalled htype hr =>
    rw [hr]
    exact .constant ⟨hkind, hreserved, followsAccess_eq_false_iff.1 hfree,
      doubleColon_iff.1 hcolons⟩
      (mt (isCalled_iff p).2 hcalled) (mt (isTypePosition_iff p).2 htype)
  | this _ _ _ hmember => exact hnot (isUse_instanceMember hmember)

/-- The scan goes from place to place. -/
theorem scanFrom_eq_flatMap (ns : String) (before tokens : List Token) : scanFrom ns before tokens =
    (Place.placesFrom before tokens).flatMap fun p => startingAt ns p.before p.token p.after := by
  induction tokens generalizing before with
  | nil => rfl
  | cons t tokens ih => rw [scanFrom, Place.placesFrom, List.flatMap_cons, ih]

end Reference

namespace Place

open Reference

/-! Uses. -/

/-- Whether the token is used as a free name. -/
def isUse (p : Place) : Bool :=
  match p.token.kind with
  | .ident name =>
    !isReserved name && !followsAccess p.before && !headIs (·.kind == .doubleColon) p.after &&
    (headIs (·.isPunct '(') p.after || !isTypePosition p.before p.token p.after)
  | _ => false

theorem isUse_iff (p : Place) : p.isUse = true ↔ p.IsUse := by
  have hfree : ∀ {name}, p.token.kind = .ident name → (p.FreeName name ↔ isReserved name = false ∧
      followsAccess p.before = false ∧ ¬ headIs (·.kind == .doubleColon) p.after = true) := by
    intro name hkind
    rw [followsAccess_eq_false_iff, doubleColon_iff]
    exact ⟨fun h => ⟨h.free, h.before, h.after⟩, fun h => ⟨hkind, h.1, h.2.1, h.2.2⟩⟩
  unfold isUse IsUse
  split
  · next name hkind =>
    have hname : (∃ other, p.FreeName other ∧ (p.IsCalled ∨ ¬ p.LooksLikeType)) ↔
        p.FreeName name ∧ (p.IsCalled ∨ ¬ p.LooksLikeType) := by
      constructor
      · rintro ⟨other, h, hrest⟩
        cases hkind.symm.trans h.token
        exact ⟨h, hrest⟩
      · exact fun h => ⟨name, h⟩
    rw [hname, hfree hkind, ← isCalled_iff, ← isTypePosition_iff]
    simp [and_assoc]
  · next hother =>
    simp only [Bool.false_eq_true, false_iff]
    rintro ⟨name, h, _⟩
    exact hother name h.token

instance (p : Place) : Decidable p.IsUse := decidable_of_iff _ p.isUse_iff

variable {p : Place} {ns : String} {r : Reference}

theorem isUse_of_refers (h : p.Refers ns r) : p.IsUse ∧ r.kind.isUse = true := by
  cases h with
  | call hfree hcalled => exact ⟨⟨_, hfree, .inl hcalled⟩, rfl⟩
  | constant hfree _ htype => exact ⟨⟨_, hfree, .inr htype⟩, rfl⟩

theorem IsUse.exists_refers (h : p.IsUse) (ns : String) : ∃ r, p.Refers ns r := by
  obtain ⟨name, hfree, h⟩ := h
  by_cases hcalled : p.IsCalled
  · exact ⟨_, .call hfree hcalled⟩
  · exact ⟨_, .constant hfree hcalled (h.resolve_left hcalled)⟩

/-- A place starts one call or constant if it is a use, and none if not. -/
theorem forall₂_startingAt (p : Place) (ns : String) : List.Forall₂ (fun p r => p.Refers ns r)
    ([p].filter (·.IsUse)) ((startingAt ns p.before p.token p.after).filter (·.kind.isUse)) := by
  by_cases h : p.IsUse
  · obtain ⟨r, hr⟩ := h.exists_refers ns
    have huse : [r].filter (·.kind.isUse) = [r] := List.filter_cons_of_pos (isUse_of_refers hr).2
    have hplace : [p].filter (·.IsUse) = [p] := List.filter_cons_of_pos (decide_eq_true h)
    rw [startingAt_of_refers hr, huse, hplace]
    exact .cons hr .nil
  · have hnone : (startingAt ns p.before p.token p.after).filter (·.kind.isUse) = [] := by
      refine List.filter_eq_nil_iff.2 fun r hr huse => h ?_
      exact (isUse_of_refers (refers_of_mem_startingAt hr huse)).1
    have hplace : [p].filter (·.IsUse) = [] := List.filter_cons_of_neg (by simpa using h)
    rw [hnone, hplace]
    exact .nil

theorem forall₂_flatMap (ps : List Place) (ns : String) : List.Forall₂ (fun p r => p.Refers ns r)
    (ps.filter (·.IsUse))
    ((ps.flatMap fun p => startingAt ns p.before p.token p.after).filter (·.kind.isUse)) := by
  induction ps with
  | nil => exact .nil
  | cons p ps ih =>
    rw [List.flatMap_cons, List.filter_append, ← List.singleton_append, List.filter_append]
    exact List.rel_append (forall₂_startingAt p ns) ih

/-! Where no angle is closed. -/

theorem closesAngles_eq_false {depth : Nat} {ts : List Token} (h : ∀ t ∈ ts, anglesClosed t = 0)
    (hdepth : depth ≠ 0) : closesAngles depth ts = false := by
  induction ts generalizing depth with
  | nil => rfl
  | cons t ts ih =>
    obtain ⟨ht, hts⟩ := List.forall_mem_cons.1 h
    have hleft : depth + anglesOpened t - anglesClosed t ≠ 0 := by omega
    simp only [closesAngles, ih hts hleft, beq_false_of_ne hleft, Bool.or_false]

/-- Without an angle that closes there are no generic types. -/
theorem isType_of_unclosed {tokens : List Token} (hp : p ∈ places tokens)
    (h : ∀ t ∈ tokens, anglesClosed t = 0) (htype : p.IsType) :
    p.BeforeVariable ∨ p.IsOperand ∨ p.IsResult := by
  rw [mem_places.1 hp] at h
  rcases htype with hvariable | hoperand | hresult | ⟨angle, rest, hafter, _, _, hcloses⟩ |
    ⟨inside, angle, outside, hbefore, _, _, _, hcloses⟩
  · exact .inl hvariable
  · exact .inr (.inl hoperand)
  · exact .inr (.inr hresult)
  · rw [closesAngles_eq_false (fun t ht => h t (by simp [hafter, ht])) Nat.one_ne_zero] at hcloses
    cases hcloses
  · rw [closesAngles_eq_false (fun t ht => h t ?_) Nat.one_ne_zero] at hcloses
    · cases hcloses
    · rw [hbefore, List.reverse_append, List.reverse_reverse]
      simp only [List.mem_append] at ht ⊢
      exact ht.imp_left .inr

end Place

/-- The calls and constants that a body is scanned for are those of its uses, one for each, in
order. A free name that is no type is a use, if it is called or stands at none of three places:
behind a colon and a closing parenthesis, before an angle that is glued to it and a name, or behind
an angle that is glued to a name. -/
theorem uses_scanReferences (ns : String) (tokens : List Token) :
    List.Forall₂ (fun p r => p.Refers ns r) ((places tokens).filter (·.IsUse))
        ((scanReferences ns tokens).filter (·.kind.isUse)) ∧
      ∀ p ∈ places tokens, ∀ name, p.FreeName name → ¬ p.IsType →
        (p.IsUse ↔ p.IsCalled ∨ ¬ (p.BehindColon ∨ p.BeforeAngle ∨ p.BehindAngle)) := by
  refine ⟨?_, fun p _ name hfree htype => ?_⟩
  · rw [scanReferences, Reference.scanFrom_eq_flatMap]
    exact Place.forall₂_flatMap (places tokens) ns
  · have huse : p.IsUse ↔ p.IsCalled ∨ ¬ p.LooksLikeType :=
      ⟨fun ⟨_, _, h⟩ => h, fun h => ⟨name, hfree, h⟩⟩
    obtain ⟨hvariable, hrest⟩ := not_or.1 htype
    have hoperand := (not_or.1 hrest).1
    rw [huse]
    simp only [Place.LooksLikeType, hvariable, hoperand, false_or]

/-- The second branch of a conditional and both operands of a comparison are no types, and not
found. -/
theorem not_found_branch_operands :
    let tokens := (tokenize "$c ? f(1) : LIMIT; $b = MAX<LOW;").tokens
    ∀ name ∈ ["LIMIT", "MAX", "LOW"], ∃ p ∈ places tokens, p.FreeName name ∧ ¬ p.IsType ∧
      ∀ r ∈ scanReferences "" tokens, r.kind.isUse = true → r.span ≠ p.token.span := by
  intro tokens
  have htokens : tokens = [⟨.variable "c", ⟨0, 2⟩⟩, ⟨.punct '?', ⟨3, 4⟩⟩, ⟨.ident "f", ⟨5, 6⟩⟩,
      ⟨.punct '(', ⟨6, 7⟩⟩, ⟨.literal, ⟨7, 8⟩⟩, ⟨.punct ')', ⟨8, 9⟩⟩, ⟨.punct ':', ⟨10, 11⟩⟩,
      ⟨.ident "LIMIT", ⟨12, 17⟩⟩, ⟨.punct ';', ⟨17, 18⟩⟩, ⟨.variable "b", ⟨19, 21⟩⟩,
      ⟨.punct '=', ⟨22, 23⟩⟩,
      ⟨.ident "MAX", ⟨24, 27⟩⟩, ⟨.punct '<', ⟨27, 28⟩⟩, ⟨.ident "LOW", ⟨28, 31⟩⟩,
      ⟨.punct ';', ⟨31, 32⟩⟩] := by
    decide +kernel
  have hscan : ∀ r ∈ scanReferences "" tokens, r.kind.isUse = true → r.span = ⟨5, 6⟩ := by
    rw [htokens]
    decide +kernel
  have hunclosed : ∀ t ∈ tokens, Reference.anglesClosed t = 0 := by
    rw [htokens]
    decide
  have hplace : ∀ (n : Nat) (p : Place), (places tokens)[n]? = some p →
    p.token.span ≠ ⟨5, 6⟩ → ∀ {name},
      p.FreeName name → ¬ (p.BeforeVariable ∨ p.IsOperand ∨ p.IsResult) →
        ∃ p ∈ places tokens, p.FreeName name ∧ ¬ p.IsType ∧
          ∀ r ∈ scanReferences "" tokens, r.kind.isUse = true → r.span ≠ p.token.span := by
    intro n p hn hspan name hfree htype
    have hp := List.mem_of_getElem? hn
    exact ⟨p, hp, hfree, mt (Place.isType_of_unclosed hp hunclosed) htype, fun r hr huse hr' =>
      hspan (hr'.symm.trans (hscan r hr huse))⟩
  simp only [List.mem_cons, List.not_mem_nil, or_false]
  have hresult : ∀ {span rest}, ¬ Place.EndsSignature (⟨.punct ';', span⟩ :: rest) := by
    rintro span rest (h | h | ⟨h, _, _⟩) <;> cases h
  rintro name (rfl | rfl | rfl)
  · refine hplace 7 _ (by rw [htokens]; rfl) (by decide) (by constructor <;> decide) ?_
    rintro (h | h | h)
    · simp [Place.BeforeVariable] at h
    · simp [Place.IsOperand] at h
    · exact hresult h.2
  · refine hplace 11 _ (by rw [htokens]; rfl) (by decide) (by constructor <;> decide) ?_
    simp [Place.BeforeVariable, Place.IsOperand, Place.IsResult, Place.BehindColon]
  · refine hplace 13 _ (by rw [htokens]; rfl) (by decide) (by constructor <;> decide) ?_
    simp [Place.BeforeVariable, Place.IsOperand, Place.IsResult, Place.BehindColon]

end ModuleVisibility
