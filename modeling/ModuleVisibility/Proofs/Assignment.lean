import ModuleVisibility.Proofs.Brackets
import ModuleVisibility.Unit.Parser

/-!
Assignments, as constants and properties are declared: names with what they are assigned, and commas
between. The readings of such a statement look for its end, for its names and for where each
initializer ends, each with a count of its own, and here each is given by what it finds in the
statement as a whole.
-/
namespace ModuleVisibility

open ModuleVisibility.Bracket

namespace Place

/-- The name that is read as a constant: one outside brackets, right before an equals sign. -/
def assigned? (p : Place) : Option (String × Span) :=
  if depth all p.before = 0 ∧ Reference.headIs (·.isPunct '=') p.after = true then
    p.token.ident?.map (·, p.token.span)
  else none

/-- The same with the tokens behind it. -/
def declarator? (p : Place) : Option Declarator := p.assigned?.map fun found =>
      ⟨found.1, found.2, p.after⟩

/-- Whether the variable is read as a property: it ends the statement or stands before an equals
sign or comma, and what it stands behind is a comma or has no equals sign. -/
def isProperty (p : Place) : Bool :=
  (p.after.isEmpty || Reference.headIs (fun n => n.isPunct '=' || n.isPunct ',') p.after) &&
    (!p.before.any (·.isPunct '=') || Reference.headIs (·.isPunct ',') p.before)

def property? (p : Place) : Option Declarator :=
  match p.token.kind with
  | .variable name => if p.isProperty then some ⟨name, p.token.span, p.after⟩ else none
  | _ => none

/-- Whether the token is a comma outside parentheses and square brackets. -/
def isCut (p : Place) : Bool := p.token.isPunct ',' && depth noBrace p.before == 0

end Place

/-- The names in tokens that are read as constants. -/
def assignedNames (ts : List Token) : List (String × Span) := (places ts).filterMap Place.assigned?

/-- The tokens before the first comma outside parentheses and square brackets. -/
def beforeCut (ts : List Token) : List Token := ((places ts).takeWhile (!·.isCut)).map Place.token

variable {ts before xs ys : List Token} {count : Nat} {t : Token}

/-! What the readings find. -/

namespace Declarator

theorem assigned_eq (h : Counted all count before ts) :
    assigned count ts = (Place.placesFrom before ts).filterMap Place.declarator? := by
  induction ts generalizing count before with
  | nil => rfl
  | cons t ts ih =>
    have hbracket : t.ident? = none →
      (Place.placesFrom before (t :: ts)).filterMap Place.declarator? =
        (Place.placesFrom (t :: before) ts).filterMap Place.declarator? := by
      intro hident
      rw [Place.placesFrom, List.filterMap_cons_none]
      simp [Place.declarator?, Place.assigned?, hident]
    rcases h.cases (change_all t) with ⟨hopens, hlater⟩ | ⟨hopens, hcloses, -, hlater⟩ | ⟨hopens,
      hcloses, hlater⟩
    · have hident : t.ident? = none := ident?_eq_none (by rw [change_all, if_pos hopens]; decide)
      rw [assigned, if_pos hopens, ih hlater, hbracket hident]
    · have hident : t.ident? = none := ident?_eq_none (by
        rw [change_all, if_neg (by simp [hopens]), if_pos hcloses]
        decide)
      rw [assigned, if_neg (by simp [hopens]), if_pos hcloses, ih hlater, hbracket hident]
    · rw [assigned, if_neg (by simp [hopens]), if_neg (by simp [hcloses]), ih hlater]
      cases hident : t.ident? with
      | none => rw [hbracket hident]
      | some name =>
        rw [Place.placesFrom, List.filterMap_cons]
        simp only [Place.declarator?, Place.assigned?, hident, ← h.eq_zero_iff, Bool.and_eq_true,
          decide_eq_true_eq]
        split <;> rfl

theorem properties_eq (before ts : List Token) :
    properties (before.any (·.isPunct '=')) (Reference.headIs (·.isPunct ',') before) ts =
      (Place.placesFrom before ts).filterMap Place.property? := by
  induction ts generalizing before with
  | nil => rfl
  | cons t ts ih =>
    have hlater := ih (t :: before)
    rw [List.any_cons, Bool.or_comm] at hlater
    rw [Place.placesFrom, List.filterMap_cons, ← hlater, properties]
    by_cases hvariable : ∃ name, t.kind = .variable name
    · obtain ⟨name, hkind⟩ := hvariable
      have hproperty : Place.isProperty ⟨before, t, ts⟩ =
          ((ts.isEmpty || Reference.headIs (fun n => n.isPunct '=' || n.isPunct ',') ts) &&
            (!before.any (·.isPunct '=') || Reference.headIs (·.isPunct ',') before)) := rfl
      simp only [Place.property?, hkind, ← hproperty]
      cases Place.isProperty ⟨before, t, ts⟩ <;> rfl
    · have hnone : Place.property? ⟨before, t, ts⟩ = none := by
        unfold Place.property?
        split
        · next name hkind => exact absurd ⟨name, hkind⟩ hvariable
        · rfl
      rw [hnone]
      dsimp only
      split
      · next name hkind => exact absurd ⟨name, hkind⟩ hvariable
      · rfl

theorem upToComma_eq (h : Counted noBrace count before ts)
    (hend : depth noBrace before + depth noBrace ts = 0)
    {rest : List Token} (hrest : ∀ t ∈ rest.head?, t.isPunct ',' = true) :
    upToComma count (ts ++ rest) =
      ((Place.placesFrom before ts).takeWhile (!·.isCut)).map Place.token := by
  induction ts generalizing count before with
  | nil =>
    rw [depth_nil, Int.add_zero] at hend
    obtain rfl := h.eq_zero_iff.2 hend
    cases rest with
    | nil => rfl
    | cons comma rest =>
      have hcomma := beq_iff_eq.1 (hrest comma rfl)
      simp [upToComma, Place.placesFrom, Token.isPunct, hcomma]
  | cons t ts ih =>
    rw [depth_cons, ← Int.add_assoc, Int.add_comm _ (change noBrace t), ← depth_cons] at hend
    have hbrackets : (Reading.opensBracket t = (t.isPunct '(' || t.isPunct '[')) ∧
        Reading.closesBracket t = (t.isPunct ')' || t.isPunct ']') := ⟨rfl, rfl⟩
    have hcut : t.isPunct ',' = false → Place.isCut ⟨before, t, ts⟩ = false := fun hcomma => by
      simp [Place.isCut, hcomma]
    rw [List.cons_append, upToComma, Place.placesFrom, List.takeWhile_cons,
      ← hbrackets.1, ← hbrackets.2]
    rcases h.cases (change_noBrace t) with ⟨hopens, hlater⟩ | ⟨hopens, hcloses, -,
      hlater⟩ | ⟨hopens, hcloses, hlater⟩
    · have hcomma : t.isPunct ',' = false :=
        not_isPunct isPlain_comma (by rw [change_noBrace, if_pos hopens]; decide)
      rw [if_pos hopens, ih hlater hend, hcut hcomma]
      rfl
    · have hcomma : t.isPunct ',' = false := not_isPunct isPlain_comma (by
        rw [change_noBrace, if_neg (by simp [hopens]), if_pos hcloses]
        decide)
      rw [if_neg (by simp [hopens]), if_pos hcloses, ih hlater hend, hcut hcomma]
      rfl
    · have hzero : (count == 0) = (depth noBrace before == 0) := by
        rw [Bool.eq_iff_iff, beq_iff_eq, beq_iff_eq, h.eq_zero_iff]
      rw [if_neg (by simp [hopens]), if_neg (by simp [hcloses]), ih hlater hend, hzero]
      simp only [Place.isCut]
      split
      · next hcut => simp [hcut]
      · next hcut => simp [Bool.eq_false_iff.2 hcut]

end Declarator

theorem Reading.memberStatement_eq (stop : Span) (h : Counted all count before ts)
    (hend : depth all before + depth all ts = 0)
    (hsemicolons : ∀ p ∈ Place.placesFrom before ts, p.token.kind = .punct ';' →
      depth all p.before ≠ 0)
    (semicolon : Span) (rest : List Token) :
    memberStatement stop count (ts ++ ⟨.punct ';', semicolon⟩ :: rest) = success ts rest := by
  induction ts generalizing count before with
  | nil =>
    rw [depth_nil, Int.add_zero] at hend
    obtain rfl := h.eq_zero_iff.2 hend
    rfl
  | cons t ts ih =>
    rw [depth_cons, ← Int.add_assoc, Int.add_comm _ (change all t), ← depth_cons] at hend
    obtain ⟨hsemicolon, hsemicolons⟩ := List.forall_mem_cons.1 hsemicolons
    have hgroups : (Declarator.opensGroup t = (opensBracket t || t.isPunct '\x7b')) ∧
        Declarator.closesGroup t = (closesBracket t || t.isPunct '\x7d') := ⟨rfl, rfl⟩
    rw [List.cons_append]
    unfold memberStatement
    rw [← hgroups.1]
    rcases h.cases (change_all t) with ⟨hopens, hlater⟩ | ⟨hopens, hcloses, hpos, hlater⟩ | ⟨hopens,
      hcloses, hlater⟩
    · rw [if_pos hopens, ih hlater hend hsemicolons]
      rfl
    · rw [if_neg (by simp [hopens])]
      rw [hgroups.2, Bool.or_eq_true] at hcloses
      split
      · rw [ih hlater hend hsemicolons]
        rfl
      · next hbracket =>
        rw [if_pos (hcloses.resolve_left hbracket)]
        obtain ⟨left, rfl⟩ := Nat.exists_eq_succ_of_ne_zero (Nat.ne_of_gt hpos)
        replace hlater : Counted all left (t :: before) ts := hlater
        dsimp only
        rw [ih hlater hend hsemicolons]
        rfl
    · rw [hgroups.2, Bool.or_eq_false_iff] at hcloses
      rw [if_neg (by simp [hopens]), if_neg (by simp [hcloses.1]),
        if_neg (by simp [hcloses.2]), if_neg, ih hlater hend hsemicolons]
      · rfl
      · rw [Bool.and_eq_true, beq_iff_eq, h.eq_zero_iff]
        rintro ⟨hkind, hzero⟩
        exact hsemicolon (beq_iff_eq.1 hkind) hzero

/-! Statements. -/

/-- A name with what it is assigned: its brackets match, and a comma or semicolon stands in
brackets. -/
structure Assignment where
  name : String
  span : Span
  equals : Span
  initializer : List Token
  balanced : Balanced initializer
  commas : Encloses all ',' initializer
  semicolons : Encloses all ';' initializer

/-- Assignments with commas between, behind the tokens of a type. -/
structure Assignments where
  type : List Token
  first : Assignment
  others : List (Span × Assignment)
  balanced : Balanced type
  semicolons : Encloses all ';' type

variable {spell : String → TokenKind}

/-- The tokens of the assignment, its name spelled as a constant or a property. -/
def Assignment.tokens (spell : String → TokenKind) (a : Assignment) : List Token :=
  ⟨spell a.name, a.span⟩ :: ⟨.punct '=', a.equals⟩ :: a.initializer

namespace Assignments

variable (spell) (s : Assignments)

def all : List Assignment := s.first :: s.others.map (·.2)

/-- The tokens of assignments behind commas. -/
def laterTokens (others : List (Span × Assignment)) : List Token :=
  others.flatMap fun o => ⟨.punct ',', o.1⟩ :: o.2.tokens spell

def tokens : List Token := s.type ++ (s.first.tokens spell ++ laterTokens spell s.others)

theorem laterTokens_cons (o : Span × Assignment) (others : List (Span × Assignment)) :
    laterTokens spell (o :: others) =
      ⟨.punct ',', o.1⟩ :: (o.2.tokens spell ++ laterTokens spell others) := rfl

/-- Where the assignment stands: no bracket is open there, and a comma or nothing follows. -/
structure Stands (a : Assignment) (before rest : List Token) : Prop where
  mem : (⟨before, ⟨spell a.name, a.span⟩,
    ⟨.punct '=', a.equals⟩ :: (a.initializer ++ rest)⟩ : Place) ∈
    places (s.tokens spell)
  depth : ∀ kinds, depth kinds before = 0
  rest : ∀ t ∈ rest.head?, t.isPunct ',' = true

end Assignments

section

variable (hspell : ∀ name c, spell name ≠ .punct c)

include hspell

theorem Assignment.balanced_tokens (a : Assignment) : Balanced (a.tokens spell) :=
  .cons (isPlain_of_kind (hspell a.name))
    (.cons (isPlain_of_punct rfl fun b => by cases b <;> decide) a.balanced)

theorem Assignment.semicolons_tokens (a : Assignment) :
    Encloses Bracket.all ';' (a.tokens spell) := by
  have hhead : Balanced [⟨spell a.name, a.span⟩, ⟨.punct '=', a.equals⟩] :=
    .cons (isPlain_of_kind (hspell a.name))
      (isPlain_of_punct rfl fun b => by cases b <;> decide).balanced
  refine .append hhead (encloses_of_not_mem fun t ht => ?_) a.semicolons
  simp only [List.mem_cons, List.not_mem_nil, or_false] at ht
  rcases ht with rfl | rfl
  · exact hspell a.name ';'
  · simp

namespace Assignments

theorem balanced_laterTokens (others : List (Span × Assignment)) :
    Balanced (laterTokens spell others) := by
  induction others with
  | nil => exact balanced_nil
  | cons o others ih =>
    exact .cons (isPlain_of_punct rfl isPlain_comma) ((o.2.balanced_tokens hspell).append ih)

theorem balanced_tokens (s : Assignments) : Balanced (s.tokens spell) :=
  s.balanced.append ((s.first.balanced_tokens hspell).append (balanced_laterTokens hspell s.others))

theorem semicolons_laterTokens (others : List (Span × Assignment)) :
    Encloses Bracket.all ';' (laterTokens spell others) := by
  induction others with
  | nil => exact encloses_of_not_mem fun _ h => nomatch h
  | cons o others ih =>
    have hcomma : Balanced [⟨.punct ',', o.1⟩] := (isPlain_of_punct rfl isPlain_comma).balanced
    have hbehind : Encloses Bracket.all ';' (o.2.tokens spell ++ laterTokens spell others) :=
      .append (o.2.balanced_tokens hspell) (o.2.semicolons_tokens hspell) ih
    rw [laterTokens_cons]
    refine .append hcomma (encloses_of_not_mem fun t ht => ?_) hbehind
    rw [List.mem_singleton.1 ht]
    simp

theorem semicolons_tokens (s : Assignments) : Encloses Bracket.all ';' (s.tokens spell) :=
  .append s.balanced s.semicolons (.append (s.first.balanced_tokens hspell)
    (s.first.semicolons_tokens hspell)
    (semicolons_laterTokens hspell s.others))

/-- The statement of the assignments is read up to its semicolon. -/
theorem memberStatement_tokens (s : Assignments) (stop semicolon : Span) (rest : List Token) :
    Reading.memberStatement stop 0 (s.tokens spell ++ ⟨.punct ';', semicolon⟩ :: rest) =
      Reading.success (s.tokens spell) rest :=
  Reading.memberStatement_eq stop ((s.balanced_tokens hspell).counted depth_nil)
    (by rw [(s.balanced_tokens hspell).depth_eq]; rfl) (s.semicolons_tokens hspell) semicolon rest

omit hspell in
theorem head?_laterTokens (others : List (Span × Assignment)) :
    ∀ t ∈ (laterTokens spell others).head?, t.isPunct ',' = true := by
  cases others with
  | nil => exact fun _ h => nomatch h
  | cons o others =>
    rintro _ ⟨⟩
    rfl

omit hspell in
/-- The first assignment stands behind the type, -/
theorem stands_first (s : Assignments) :
    s.Stands spell s.first s.type.reverse (laterTokens spell s.others) where
  mem := by simp [Place.mem_places, tokens, Assignment.tokens]
  depth kinds := by rw [depth_reverse, s.balanced.depth_eq]
  rest := head?_laterTokens s.others

/-- and the others stand behind commas. -/
theorem exists_stands {s : Assignments} {a : Assignment} (ha : a ∈ s.others.map (·.2)) :
    ∃ before rest, s.Stands spell a before rest ∧
      Reference.headIs (·.isPunct ',') before = true := by
  obtain ⟨o, ho, rfl⟩ := List.mem_map.1 ha
  obtain ⟨front, back, hothers⟩ := List.append_of_mem ho
  have hfront : Balanced (s.type ++ (s.first.tokens spell ++ laterTokens spell front)) :=
    s.balanced.append ((s.first.balanced_tokens hspell).append (balanced_laterTokens hspell front))
  refine ⟨⟨.punct ',', o.1⟩ ::
    (s.type ++ (s.first.tokens spell ++ laterTokens spell front)).reverse,
    laterTokens spell back, ⟨?_, fun kinds => ?_, head?_laterTokens back⟩, rfl⟩
  · simp [Place.mem_places, tokens, laterTokens, hothers, Assignment.tokens]
  · rw [depth_cons, depth_reverse, hfront.depth_eq, (isPlain_of_punct rfl isPlain_comma).change_eq]
    rfl

end Assignments

end

/-! The names in a statement. -/

theorem Place.assigned?_within (h : depth Bracket.all before = 0) (p : Place) :
    (p.within before []).assigned? = p.assigned? := by
  simp [assigned?, within, h]

theorem assignedNames_cons (ht : IsPlain t) (ts : List Token) : assignedNames (t :: ts) =
    (Place.assigned? ⟨[], t, ts⟩).toList ++ assignedNames ts := by
  have hbefore : depth Bracket.all [t] = 0 := by simp [ht.change_eq]
  rw [assignedNames, places, Place.placesFrom, List.filterMap_cons, Place.placesFrom_eq,
    List.filterMap_map]
  simp only [Function.comp_def, Place.assigned?_within hbefore]
  cases Place.assigned? ⟨[], t, ts⟩ <;> rfl

theorem assignedNames_append (hx : Balanced xs) (hy : Reference.headIs (·.isPunct '=') ys = false) :
    assignedNames (xs ++ ys) = assignedNames xs ++ assignedNames ys := by
  have hbefore : depth Bracket.all xs.reverse = 0 := by rw [depth_reverse, hx.depth_eq]
  have hafter : ∀ p : Place, (p.within [] ys).assigned? = p.assigned? := by
    intro p
    have hhead : Reference.headIs (·.isPunct '=') (p.after ++ ys) =
        Reference.headIs (·.isPunct '=') p.after := by
      cases hp : p.after with
      | nil => exact hy
      | cons u after => rfl
    simp only [Place.assigned?, Place.within, List.append_nil, hhead]
  rw [assignedNames, Place.places_append, List.filterMap_append, List.filterMap_map,
    List.filterMap_map]
  simp only [Function.comp_def, Place.assigned?_within hbefore, hafter]
  rfl

/-- The names that are read in a statement: those in the type, and each name with those in its
initializer. -/
theorem Assignments.assignedNames_tokens (s : Assignments) : assignedNames (s.tokens .ident) =
    assignedNames s.type ++ s.all.flatMap fun a =>
      (a.name, a.span) :: assignedNames a.initializer := by
  have hfree : ∀ {ts : List Token}, (∀ t ∈ ts.head?, t.isPunct ',' = true) →
      Reference.headIs (·.isPunct '=') ts = false := by
    rintro (_ | ⟨t, ts⟩) ht
    · rfl
    · have hkind := beq_iff_eq.1 (ht t rfl)
      simp [Reference.headIs, Token.isPunct, hkind]
  have hnames : ∀ a : Assignment,
      assignedNames (a.tokens .ident) = (a.name, a.span) :: assignedNames a.initializer := by
    intro a
    have hequals : Place.assigned? ⟨[], ⟨.punct '=', a.equals⟩, a.initializer⟩ = none := by
      simp [Place.assigned?, Token.ident?]
    rw [Assignment.tokens, assignedNames_cons (isPlain_of_kind (by simp)),
      assignedNames_cons (isPlain_of_punct rfl fun b => by cases b <;> decide), hequals]
    rfl
  have hlater : ∀ others, assignedNames (laterTokens .ident others) =
      others.flatMap fun o => (o.2.name, o.2.span) :: assignedNames o.2.initializer := by
    intro others
    induction others with
    | nil => rfl
    | cons o others ih =>
      rw [laterTokens_cons, assignedNames_cons (isPlain_of_punct rfl isPlain_comma),
        assignedNames_append (o.2.balanced_tokens (by simp)) (hfree (head?_laterTokens others)),
        hnames, ih]
      rfl
  rw [tokens, assignedNames_append s.balanced (by rfl),
    assignedNames_append (s.first.balanced_tokens (by simp)) (hfree (head?_laterTokens s.others)),
    hnames, hlater, all, List.flatMap_cons, List.flatMap_map]

end ModuleVisibility
