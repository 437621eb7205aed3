import ModuleVisibility.Proofs.Assignment

/-!
The constants of a statement, of a unit or of a class. A name is read as one where an equals sign
follows it outside brackets. So each name that is assigned is read, but also what an initializer
compares with two equals signs, whose first is an equals sign like any other. The statement declares
what it assigns exactly if no initializer does so.
-/
namespace ModuleVisibility

open ModuleVisibility.Bracket

/-- What is read with these declarations before it. -/
def UnitReading.behind (declarations : List Declaration) (r : UnitReading) : UnitReading :=
  ⟨{ r.unit with declarations := declarations ++ r.unit.declarations }, r.errors⟩

/-- The rest of a class body behind a statement that holds these members. -/
def Reading.classItemsBehind (stop : Span) (ns : String) (brace : Token) (members : List Member)
    (errors : List SyntaxError) (rest : List Token) : Reading ClassBody :=
  let later := classItems stop ns brace none rest
  ⟨later.value?.map (ClassBody.append ⟨[], members⟩), errors ++ later.errors, later.rest⟩

variable (s : Assignments)

/-- The statement is read as its places tell. -/
theorem Declarator.constants_tokens :
    constants (s.tokens .ident) = (places (s.tokens .ident)).filterMap Place.declarator? := by
  have hassigned : assigned 0 (s.tokens .ident) =
      (places (s.tokens .ident)).filterMap Place.declarator? :=
    assigned_eq ((s.balanced_tokens (by simp)).counted depth_nil)
  have hfirst : Place.declarator? ⟨s.type.reverse, ⟨.ident s.first.name, s.first.span⟩,
      ⟨.punct '=', s.first.equals⟩ ::
      (s.first.initializer ++ Assignments.laterTokens .ident s.others)⟩ ≠ none := by
    simp [Place.declarator?, Place.assigned?, s.balanced.depth_eq, Reference.headIs,
      Token.isPunct, Token.ident?]
  unfold constants
  split
  · next hnone =>
    rw [hassigned, List.filterMap_eq_nil_iff] at hnone
    exact absurd (hnone _ s.stands_first.mem) hfirst
  · exact hassigned

/-- The names of the constants. -/
theorem Declarator.map_constants_tokens :
    (constants (s.tokens .ident)).map (fun d => (d.name, d.span)) =
      assignedNames (s.tokens .ident) := by
  rw [constants_tokens, assignedNames, List.map_filterMap]
  congr 1
  funext p
  cases h : p.assigned? <;> simp [Place.declarator?, h]

section

variable (stop semicolon : Span) (rest : List Token)

theorem Reading.classConstants_tokens (ns : String) (visibility : Visibility)
    (hword : Reference.headIs (·.isWord "type") (s.tokens .ident) = false) :
    classConstants stop ns visibility (s.tokens .ident ++ ⟨.punct ';', semicolon⟩ :: rest) =
      success ((Declarator.constants (s.tokens .ident)).map (·.toMember ns .constant visibility))
        rest := by
  rw [classConstants, s.memberStatement_tokens (by simp)]
  simp [success, map, hword]

theorem Reading.classItems_constants (ns : String) (brace : Token) (pending : Option Visibility)
    (keyword : Span)
    (hword : Reference.headIs (·.isWord "type") (s.tokens .ident) = false) :
    classItems stop ns brace pending
        (⟨.ident "const", keyword⟩ :: (s.tokens .ident ++ ⟨.punct ';', semicolon⟩ :: rest)) =
      classItemsBehind stop ns brace
        ((Declarator.constants (s.tokens .ident)).map
          (·.toMember ns .constant (pending.getD .public))) [] rest := by
  have hstart : ClassBody.ItemStart.ofToken ⟨.ident "const", keyword⟩ = .constants := rfl
  rw [classItems_of_item (by simp [Token.isPunct]), bodyItem, hstart]
  dsimp only
  rw [classConstants_tokens s stop semicolon rest ns _ hword]
  rfl

theorem Reading.upToSemicolon_append {ts : List Token} (h : ∀ t ∈ ts, t.kind ≠ .punct ';') :
    upToSemicolon stop (ts ++ ⟨.punct ';', semicolon⟩ :: rest) = success ts rest := by
  induction ts with
  | nil => rfl
  | cons t ts ih =>
    obtain ⟨ht, hts⟩ := List.forall_mem_cons.1 h
    rw [List.cons_append, upToSemicolon, if_neg (by simpa [Token.isPunct] using ht), ih hts]
    rfl

theorem readUnit_constants (c : UnitContext) (keyword : Span)
    (hfree : ∀ t ∈ s.tokens .ident, t.kind ≠ .punct ';') :
    readUnit stop c (⟨.ident "const", keyword⟩ ::
      (s.tokens .ident ++ ⟨.punct ';', semicolon⟩ :: rest)) =
      (readUnit stop c.settled rest).behind
        ((assignedNames (s.tokens .ident)).map fun found =>
          c.declaration found.1 found.2 .constant) := by
  have hstep : UnitStep.ofTokens stop c ⟨.ident "const", keyword⟩
      (s.tokens .ident ++ ⟨.punct ';', semicolon⟩ :: rest) =
        ⟨c.settled, [], (assignedNames (s.tokens .ident)).map fun found =>
          c.declaration found.1 found.2 .constant, [], rest⟩ := by
    have hword : UnitStep.ofTokens stop c ⟨.ident "const", keyword⟩
        (s.tokens .ident ++ ⟨.punct ';', semicolon⟩ :: rest) = UnitStep.ofReading c
          (Reading.constants stop c (s.tokens .ident ++ ⟨.punct ';', semicolon⟩ :: rest))
          (UnitStep.declare c.settled) := rfl
    rw [hword, Reading.constants, Reading.upToSemicolon_append stop semicolon rest hfree,
      ← Declarator.map_constants_tokens, List.map_map]
    rfl
  rw [readUnit, hstep]
  rfl

end

/-- Between the members of a list and before it nothing is put exactly if the list stays as it
was. -/
theorem append_flatMap_cons_eq_map_iff {α β : Type} {front : List β} {f : α → β}
    {g : α → List β} {l : List α} :
    front ++ l.flatMap (fun a => f a :: g a) = l.map f ↔ front = [] ∧ ∀ a ∈ l, g a = [] := by
  have hle : ∀ l : List α, l.length ≤ (l.flatMap fun a => f a :: g a).length := by
    intro l
    induction l with
    | nil => exact Nat.le_refl 0
    | cons a l ih =>
      rw [List.flatMap_cons, List.length_append, List.length_cons, List.length_cons]
      omega
  induction l generalizing front with
  | nil => simp
  | cons a l ih =>
    have hlater : g a ++ l.flatMap (fun a => f a :: g a) = l.map f ↔
        g a = [] ∧ ∀ a ∈ l, g a = [] := ih
    rw [List.forall_mem_cons, ← hlater, List.flatMap_cons, List.map_cons, List.cons_append]
    constructor
    · intro h
      have hlength := congrArg List.length h
      simp only [List.length_append, List.length_cons, List.length_map] at hlength
      have hnone : front = [] := List.length_eq_zero_iff.1 (by have := hle l; omega)
      subst hnone
      exact ⟨rfl, (List.cons_eq_cons.1 h).2⟩
    · rintro ⟨rfl, h⟩
      rw [List.nil_append, h]

/-- A statement of constants, of a unit or of a class, is read as the names it assigns and, behind
each, those that its initializer has before an equals sign. So these are the names it assigns
exactly if no initializer has any, nor the type. -/
theorem constants_read (keyword semicolon : Span)
    (hfree : ∀ t ∈ s.tokens .ident, t.kind ≠ .punct ';')
    (hword : Reference.headIs (·.isWord "type") (s.tokens .ident) = false) :
    let names := s.all.map fun a => (a.name, a.span)
    let found := assignedNames s.type ++ s.all.flatMap fun a =>
      (a.name, a.span) :: assignedNames a.initializer
    (∀ stop c rest,
      readUnit stop c (⟨.ident "const", keyword⟩ ::
        (s.tokens .ident ++ ⟨.punct ';', semicolon⟩ :: rest)) =
        (readUnit stop c.settled rest).behind
        (found.map fun n => c.declaration n.1 n.2 .constant)) ∧
      (∀ stop ns brace pending rest, ∃ members,
        members.map (fun m => (m.name, m.kind, m.visibility, m.span)) =
            found.map (fun n => (n.1, MemberKind.constant, pending.getD .public, n.2)) ∧
          Reading.classItems stop ns brace pending
              (⟨.ident "const", keyword⟩ :: (s.tokens .ident ++ ⟨.punct ';', semicolon⟩ :: rest)) =
            Reading.classItemsBehind stop ns brace members [] rest) ∧
      (found = names ↔ assignedNames s.type = [] ∧
        ∀ a ∈ s.all, assignedNames a.initializer = []) := by
  intro names found
  have hfound : assignedNames (s.tokens .ident) = found := s.assignedNames_tokens
  refine ⟨fun stop c rest => ?_, fun stop ns brace pending rest => ?_,
    append_flatMap_cons_eq_map_iff⟩
  · rw [readUnit_constants s stop semicolon rest c keyword hfree, hfound]
  · refine ⟨_, ?_, Reading.classItems_constants s stop semicolon rest ns brace
      pending keyword hword⟩
    rw [← hfound, ← Declarator.map_constants_tokens, List.map_map, List.map_map]
    rfl

/-- Nothing is read but what is assigned where an initializer is a map with an arrow in brackets. -/
theorem constants_read_map :
    let map : List Token :=
  [⟨.ident "dict", ⟨12, 16⟩⟩, ⟨.punct '[', ⟨16, 17⟩⟩, ⟨.ident "K", ⟨17, 18⟩⟩,
      ⟨.punct '=', ⟨19, 20⟩⟩, ⟨.punct '>', ⟨20, 21⟩⟩, ⟨.literal, ⟨22, 23⟩⟩, ⟨.punct ']', ⟨23, 24⟩⟩]
    let s : Assignments :=
      ⟨[⟨.ident "T", ⟨6, 7⟩⟩], ⟨"A", ⟨8, 9⟩, ⟨10, 11⟩, map, by decide, by decide, by decide⟩,
      [(⟨24, 25⟩, ⟨"B", ⟨26, 27⟩, ⟨28, 29⟩,
        [⟨.literal, ⟨30, 31⟩⟩], by decide, by decide, by decide⟩)],
      by decide, by decide⟩
    (∀ t ∈ s.tokens .ident, t.kind ≠ .punct ';') ∧
      Reference.headIs (·.isWord "type") (s.tokens .ident) = false ∧
      assignedNames s.type ++ (s.all.flatMap fun a =>
        (a.name, a.span) :: assignedNames a.initializer) =
        [("A", ⟨8, 9⟩), ("B", ⟨26, 27⟩)] := by
  intro map s
  have hfree : ∀ t ∈ s.tokens .ident, t.kind ≠ .punct ';' := by decide
  have hword : Reference.headIs (·.isWord "type") (s.tokens .ident) = false := by decide
  exact ⟨hfree, hword, (constants_read s ⟨0, 5⟩ ⟨31, 32⟩ hfree hword).2.2.2 ⟨by decide, by decide⟩⟩

/-- The operand of a comparison is read as a constant of its own. -/
theorem not_read_exactly_comparison :
    let file : SourceFile := ⟨"a.php", "<?hh\nconst A = B == 1;\n"⟩
    ∃ (s : Assignments) (keyword semicolon : Span), (tokenize file.text).tokens =
        ⟨.ident "const", keyword⟩ :: (s.tokens .ident ++ [⟨.punct ';', semicolon⟩]) ∧
      s.all.map (·.name) = ["A"] ∧ (parseUnit file).unit.declarations.map (·.name) =
        ["A", "B"] := by
  refine ⟨⟨[], ⟨"A", ⟨11, 12⟩, ⟨13, 14⟩,
    [⟨.ident "B", ⟨15, 16⟩⟩, ⟨.punct '=', ⟨17, 18⟩⟩, ⟨.punct '=', ⟨18, 19⟩⟩,
    ⟨.literal, ⟨20, 21⟩⟩], by decide, by decide, by decide⟩, [], by decide, by decide⟩, ⟨5, 10⟩,
      ⟨21, 22⟩, ?_, rfl, ?_⟩
  · decide +kernel
  · decide +kernel

end ModuleVisibility
