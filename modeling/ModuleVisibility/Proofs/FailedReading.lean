import ModuleVisibility.Unit.Parser

/-!
A construct is never given up without a word: whatever could not be read, an error tells why.
-/
namespace ModuleVisibility

namespace Reading

/-- A reading that fails reports why. -/
structure Explains {α : Type} (r : Reading α) : Prop where
  errors : r.value? = none → r.errors ≠ []

section

variable {α β : Type}

theorem Explains.failure (fault : SyntaxFault) (span : Span) (rest : List Token) :
    (failure fault span rest : Reading α).Explains := ⟨fun _ => List.cons_ne_nil _ _⟩

theorem Explains.success (a : α) (rest : List Token) : (success a rest).Explains :=
  ⟨fun h => nomatch h⟩

theorem Explains.map {r : Reading α} (h : r.Explains) (f : α → β) : (r.map f).Explains :=
  ⟨fun hnone => h.errors (Option.map_eq_none_iff.1 hnone)⟩

theorem Explains.andThen {r : Reading α} {next : α → List Token → Reading β} (hr : r.Explains)
    (hnext : ∀ a, (next a r.rest).Explains) : (r.andThen next).Explains := by
  cases hvalue : r.value? with
  | none =>
    rw [andThen_of_none _ hvalue]
    exact ⟨fun _ => hr.errors hvalue⟩
  | some a =>
    rw [andThen_of_some _ hvalue]
    exact ⟨fun hnone => List.append_ne_nil_of_right_ne_nil _ ((hnext a).errors hnone)⟩

end

variable (stop : Span) (ns : String) (ts : List Token)

theorem explains_expectName (role : NameRole) : (expectName stop role ts).Explains := by
  unfold expectName
  split
  · exact .failure _ _ _
  · split
    · exact .success _ _
    · exact .failure _ _ _

theorem explains_moduleSegments (name : String) (span : Span) :
    (moduleSegments stop name span ts).Explains := by
  fun_induction moduleSegments stop name span ts with
  | case1 | case3 | case6 => exact .success _ _
  | case2 | case5 => exact .failure _ _ _
  | case4 _ _ _ _ _ _ _ _ ih => exact ih

theorem explains_moduleName : (moduleName stop ts).Explains :=
  (explains_expectName stop ts .moduleName).andThen fun (name, span) =>
    explains_moduleSegments stop _ name span

theorem explains_directiveEnd (mention : ModuleMention) :
    (directiveEnd stop mention ts).Explains := by
  unfold directiveEnd
  split
  · exact .failure _ _ _
  · split
    · exact .success _ _
    · exact .failure _ _ _

theorem explains_moduleDirective : (moduleDirective stop ts).Explains :=
  (explains_moduleName stop ts).andThen fun (name, span) =>
    explains_directiveEnd stop _ ⟨name, span⟩

theorem explains_block (brace : Token) : (block brace ts).Explains := by
  unfold block
  split
  · exact .success _ _
  · exact .failure _ _ _

theorem explains_definitionBlock (mention : ModuleMention) :
    (definitionBlock stop mention ts).Explains := by
  unfold definitionBlock
  split
  · exact .failure _ _ _
  · split
    · exact (explains_block _ _).map _
    · exact .failure _ _ _

theorem explains_moduleDefinition : (moduleDefinition stop ts).Explains :=
  (explains_moduleName stop ts).andThen fun (name, span) =>
    explains_definitionBlock stop _ ⟨name, span⟩

theorem explains_skipStatement : (skipStatement ts).Explains := by
  fun_induction skipStatement ts with
  | case1 | case2 => exact .success _ _
  | case3 => exact (explains_block _ _).map _
  | case4 _ _ _ _ ih => exact ih

theorem explains_signature (depth : Nat) : (signature stop depth ts).Explains := by
  fun_induction signature stop depth ts with
  | case1 | case7 => exact .failure _ _ _
  | case5 => exact .success _ _
  | case6 => exact explains_block _ _
  | case2 _ _ _ _ ih => exact ih
  | case3 _ _ _ _ _ ih => exact ih
  | case4 _ _ _ _ _ _ ih => exact ih
  | case8 _ _ _ _ _ _ _ _ _ ih => exact ih

theorem explains_upToSemicolon : (upToSemicolon stop ts).Explains := by
  fun_induction upToSemicolon stop ts with
  | case1 => exact .failure _ _ _
  | case2 => exact .success _ _
  | case3 _ _ _ ih => exact ih.map _

theorem explains_memberStatement (depth : Nat) : (memberStatement stop depth ts).Explains := by
  fun_induction memberStatement stop depth ts with
  | case1 | case4 => exact .failure _ _ _
  | case6 => exact .success _ _
  | case2 _ _ _ _ ih => exact ih.map _
  | case3 _ _ _ _ _ ih => exact ih.map _
  | case5 _ _ _ _ _ _ ih => exact ih.map _
  | case7 _ _ _ _ _ _ _ ih => exact ih.map _

theorem explains_useClauses : (useClauses stop ns ts).Explains := by
  fun_induction useClauses stop ns ts with
  | case1 | case2 | case3 | case7 => exact .failure _ _ _
  | case4 => rename_i ih; exact ih.map _
  | case5 => exact .success _ _
  | case6 => exact (explains_block _ _).map _

theorem explains_attributes (depth : Nat) (found : Bool) :
    (attributes stop depth found ts).Explains := by
  fun_induction attributes stop depth found ts with
  | case1 =>
    constructor
    intro h
    cases h
  | case2 => exact .success _ _
  | case3 _ _ _ _ _ _ ih => exact ih
  | case4 _ _ _ _ _ _ _ ih => exact ih
  | case5 _ _ _ _ _ _ _ ih => exact ih

theorem explains_properties (visibility : Visibility) (t : Token) :
    (properties stop ns visibility t ts).Explains := by
  refine (explains_memberStatement ..).andThen fun statement => ?_
  split
  · exact ⟨fun h => nomatch h⟩
  · exact .success _ _

theorem explains_bodyItem (pending : Option Visibility) (t : Token) :
    (bodyItem stop ns pending t ts).Explains := by
  unfold bodyItem
  dsimp only
  split
  · exact .success _ _
  · exact .success _ _
  · exact (explains_attributes ..).map _
  · exact (explains_useClauses ..).map _
  · exact ((explains_expectName stop ts .method).andThen fun _ =>
      (explains_signature ..).map _).map _
  · exact ((explains_memberStatement ..).map _).map _
  · exact (explains_memberStatement ..).map _
  · exact (explains_properties ..).map _

theorem explains_classItems (brace : Token) (pending : Option Visibility) :
    (classItems stop ns brace pending ts).Explains := by
  fun_induction classItems stop ns brace pending ts with
  | case1 => exact .failure _ _ _
  | case2 => exact .success _ _
  | case3 pending t ts h item hnone =>
    exact ⟨fun _ => (explains_bodyItem stop ns ts pending t).errors hnone⟩
  | case4 pending t ts h item found hfound later ih =>
    exact ⟨fun hnone => List.append_ne_nil_of_right_ne_nil
      _ (ih.errors (Option.map_eq_none_iff.1 hnone))⟩

theorem explains_classBody : (classBody stop ns ts).Explains := by
  fun_induction classBody stop ns ts with
  | case1 | case3 => exact .failure _ _ _
  | case2 => exact explains_classItems ..
  | case4 _ _ _ _ ih => exact ih

theorem explains_function (c : UnitContext) : (function stop c ts).Explains :=
  (explains_expectName stop ts .function).andThen fun _ => (explains_signature ..).map _

theorem explains_classLike (c : UnitContext) (role : NameRole)
    (content : ClassBody → DeclarationContent) :
    (classLike stop c role content ts).Explains :=
  (explains_expectName stop ts role).andThen fun _ => (explains_classBody ..).map _

theorem explains_constants (c : UnitContext) : (constants stop c ts).Explains :=
  (explains_upToSemicolon stop ts).map _

end Reading
end ModuleVisibility
