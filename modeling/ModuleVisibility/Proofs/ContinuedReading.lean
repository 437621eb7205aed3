import ModuleVisibility.Proofs.ContinuedText

/-!
Tokens that go on. A reader that stops before the last token does the same with more tokens behind
it; one that meets the end records nothing, so more tokens take nothing back. Hence a text that is
appended behind a newline changes nothing that was read before.
-/
namespace ModuleVisibility
namespace Reading

variable {α β : Type}

/-- The reading with more tokens behind those that it leaves. -/
def followedBy (r : Reading α) (more : List Token) : Reading α :=
  ⟨r.value?, r.errors, r.rest ++ more⟩

/-- Read with more tokens behind, the reading is the same, unless it took every token. -/
def Continues (r r' : Reading α) (more : List Token) : Prop := r' = r.followedBy more ∨ r.rest = []

/-- Read with more tokens behind, the reading is the same, unless it met the end and found
nothing. -/
def Stable (r r' : Reading α) (more : List Token) : Prop :=
  r' = r.followedBy more ∨ r.value? = none ∧ r.rest = []

section

variable {r r' : Reading α} {more : List Token}

theorem stable_cutShort (fault : SyntaxFault) (span : Span) (r' : Reading α) (more : List Token) :
    (failure fault span [] : Reading α).Stable r' more := .inr ⟨rfl, rfl⟩

theorem Stable.continues (h : r.Stable r' more) : r.Continues r' more := h.imp_right And.right

theorem Stable.map (h : r.Stable r' more) (f : α → β) : (r.map f).Stable (r'.map f) more := by
  rcases h with rfl | ⟨hvalue, hrest⟩
  · exact .inl rfl
  · exact .inr ⟨by rw [Reading.map, hvalue]; rfl, hrest⟩

theorem Continues.map (h : r.Continues r' more) (f : α → β) :
    (r.map f).Continues (r'.map f) more := by
  rcases h with rfl | hrest
  · exact .inl rfl
  · exact .inr hrest

theorem stable_andThen_followedBy {next next' : α → List Token → Reading β}
    (hnext : ∀ a, r.value? = some a → (next a r.rest).Stable (next' a (r.rest ++ more)) more) :
    (r.andThen next).Stable ((r.followedBy more).andThen next') more := by
  cases hvalue : r.value? with
  | none =>
    rw [andThen_of_none next hvalue, andThen_of_none next' (r := r.followedBy more) hvalue]
    exact .inl rfl
  | some a =>
    rw [andThen_of_some next hvalue, andThen_of_some next' (r := r.followedBy more) hvalue]
    rcases hnext a hvalue with heq | ⟨hnone, hrest⟩
    · refine .inl ?_
      simp only [followedBy] at heq ⊢
      rw [heq]
    · exact .inr ⟨hnone, hrest⟩

theorem Stable.andThen (h : r.Stable r' more) {next next' : α → List Token → Reading β}
    (hnext : ∀ a, (next a r.rest).Stable (next' a (r.rest ++ more)) more) :
    (r.andThen next).Stable (r'.andThen next') more := by
  rcases h with rfl | ⟨hvalue, hrest⟩
  · exact stable_andThen_followedBy fun a _ => hnext a
  · rw [andThen_of_none next hvalue]
    exact .inr ⟨rfl, hrest⟩

theorem Stable.andThen_continues (h : r.Stable r' more) {next next' : α → List Token → Reading β}
    (hnext : ∀ a, (next a r.rest).Continues (next' a (r.rest ++ more)) more) :
    (r.andThen next).Continues (r'.andThen next') more := by
  rcases h with rfl | ⟨hvalue, hrest⟩
  · cases hvalue : r.value? with
    | none =>
      rw [andThen_of_none next hvalue, andThen_of_none next' (r := r.followedBy more) hvalue]
      exact .inl rfl
    | some a =>
      rw [andThen_of_some next hvalue, andThen_of_some next' (r := r.followedBy more) hvalue]
      refine (hnext a).imp_left fun heq => ?_
      simp only [followedBy] at heq ⊢
      rw [heq]
  · rw [andThen_of_none next hvalue]
    exact .inr hrest

/-- What needs a token behind it finds nothing where every token is taken. -/
theorem Continues.andThen (h : r.Continues r' more) {next next' : α → List Token → Reading β}
    (hnext : ∀ a, r.value? = some a → (next a r.rest).Stable (next' a (r.rest ++ more)) more)
    (hnone : ∀ a, (next a []).value? = none ∧ (next a []).rest = []) :
    (r.andThen next).Stable (r'.andThen next') more := by
  rcases h with rfl | hrest
  · exact stable_andThen_followedBy hnext
  · refine .inr ?_
    unfold Reading.andThen
    split
    · exact ⟨rfl, hrest⟩
    · rw [hrest]
      exact hnone _

end

variable (stop stop' : Span) (ts more : List Token)

/-! Names and blocks. -/

theorem stable_expectName (role : NameRole) :
    (expectName stop role ts).Stable (expectName stop' role (ts ++ more)) more := by
  cases ts with
  | nil => exact stable_cutShort ..
  | cons t ts =>
    refine .inl ?_
    rw [List.cons_append, expectName, expectName]
    split <;> rfl

theorem continues_moduleSegments (name : String) (span : Span) :
    (moduleSegments stop name span ts).Continues
      (moduleSegments stop' name span (ts ++ more)) more := by
  fun_induction moduleSegments stop name span ts with
  | case1 => exact .inr rfl
  | case2 => exact .inr rfl
  | case3 _ _ dot hdot =>
    refine .inl ?_
    cases more with
    | nil => rw [List.append_nil, moduleSegments, if_neg hdot]; rfl
    | cons t more => rw [List.singleton_append, moduleSegments, if_neg hdot]; rfl
  | case4 _ _ dot t ts hdot part hpart ih =>
    simp only [List.cons_append, moduleSegments, if_pos hdot, hpart]
    exact ih
  | case5 _ _ dot t ts hdot hpart =>
    refine .inl ?_
    simp only [List.cons_append, moduleSegments, if_pos hdot, hpart]
    rfl
  | case6 _ _ dot t ts hdot =>
    refine .inl ?_
    rw [List.cons_append, List.cons_append, moduleSegments, if_neg hdot]
    rfl

theorem continues_moduleName :
    (moduleName stop ts).Continues (moduleName stop' (ts ++ more)) more :=
  (stable_expectName stop stop' ts more _).andThen_continues fun _ => continues_moduleSegments ..

theorem splitBlock?_followed {depth : Nat} {ts inside rest : List Token}
    (h : splitBlock? depth ts = some (inside, rest)) (more : List Token) :
    splitBlock? depth (ts ++ more) = some (inside, rest ++ more) := by
  fun_induction splitBlock? depth ts generalizing inside rest with
  | case1 => cases h
  | case2 t ts ht =>
    cases h
    rw [List.cons_append, splitBlock?, if_pos ht]
  | case3 t ts ht depth ih =>
    obtain ⟨⟨i, r⟩, hi, he⟩ := Option.map_eq_some_iff.1 h
    cases he
    rw [List.cons_append, splitBlock?, if_pos ht]
    simp only [ih hi, Option.map_some]
  | case4 depth t ts ht ih =>
    obtain ⟨⟨i, r⟩, hi, he⟩ := Option.map_eq_some_iff.1 h
    cases he
    unfold splitBlock?
    simp only [List.cons_append, if_neg ht, ih hi, Option.map_some]

theorem stable_block (brace : Token) : (block brace ts).Stable (block brace (ts ++ more)) more := by
  cases h : splitBlock? 0 ts with
  | none =>
    refine .inr ?_
    rw [block, h]
    exact ⟨rfl, rfl⟩
  | some found =>
    refine .inl ?_
    rw [block, block, h, splitBlock?_followed h more]
    rfl

/-! Signatures and statements. -/

theorem stable_signature (depth : Nat) :
    (signature stop depth ts).Stable (signature stop' depth (ts ++ more)) more := by
  fun_induction signature stop depth ts with
  | case1 => exact stable_cutShort ..
  | case2 depth t ts h ih =>
    rw [List.cons_append, signature, if_pos h]
    exact ih
  | case3 depth t ts h₁ h₂ ih =>
    rw [List.cons_append, signature, if_neg h₁, if_pos h₂]
    exact ih
  | case4 depth t ts h₁ h₂ h₃ ih =>
    rw [List.cons_append, signature, if_neg h₁, if_neg h₂, if_pos h₃]
    exact ih
  | case5 depth t ts h₁ h₂ h₃ h₄ =>
    rw [List.cons_append, signature, if_neg h₁, if_neg h₂, if_neg h₃, if_pos h₄]
    exact .inl rfl
  | case6 depth t ts h₁ h₂ h₃ h₄ h₅ =>
    rw [List.cons_append, signature, if_neg h₁, if_neg h₂, if_neg h₃, if_neg h₄, if_pos h₅]
    exact stable_block ..
  | case7 depth t ts h₁ h₂ h₃ h₄ h₅ h₆ =>
    rw [List.cons_append, signature, if_neg h₁, if_neg h₂, if_neg h₃, if_neg h₄,
      if_neg h₅, if_pos h₆]
    exact .inl rfl
  | case8 depth t ts h₁ h₂ h₃ h₄ h₅ h₆ ih =>
    rw [List.cons_append, signature, if_neg h₁, if_neg h₂, if_neg h₃, if_neg h₄,
      if_neg h₅, if_neg h₆]
    exact ih

theorem continues_attributes (depth : Nat) (found : Bool) :
    (attributes stop depth found ts).Continues
      (attributes stop' depth found (ts ++ more)) more := by
  fun_induction attributes stop depth found ts with
  | case1 => exact .inr rfl
  | case2 depth found t ts h =>
    rw [List.cons_append, attributes, if_pos h]
    exact .inl rfl
  | case3 depth found t ts h₁ h₂ ih =>
    rw [List.cons_append, attributes, if_neg h₁, if_pos h₂]
    exact ih
  | case4 depth found t ts h₁ h₂ h₃ ih =>
    rw [List.cons_append, attributes, if_neg h₁, if_neg h₂, if_pos h₃]
    exact ih
  | case5 depth found t ts h₁ h₂ h₃ ih =>
    rw [List.cons_append, attributes, if_neg h₁, if_neg h₂, if_neg h₃]
    exact ih

theorem continues_skipStatement :
    (skipStatement ts).Continues (skipStatement (ts ++ more)) more := by
  fun_induction skipStatement ts with
  | case1 => exact .inr rfl
  | case2 t ts h =>
    rw [List.cons_append, skipStatement, if_pos h]
    exact .inl rfl
  | case3 t ts h₁ h₂ =>
    rw [List.cons_append, skipStatement, if_neg h₁, if_pos h₂]
    exact ((stable_block ts more t).map _).continues
  | case4 t ts h₁ h₂ ih =>
    rw [List.cons_append, skipStatement, if_neg h₁, if_neg h₂]
    exact ih

theorem stable_upToSemicolon :
    (upToSemicolon stop ts).Stable (upToSemicolon stop' (ts ++ more)) more := by
  induction ts with
  | nil => exact stable_cutShort ..
  | cons t ts ih =>
    rw [List.cons_append, upToSemicolon, upToSemicolon]
    split
    · exact .inl rfl
    · exact ih.map _

theorem stable_memberStatement (depth : Nat) :
    (memberStatement stop depth ts).Stable (memberStatement stop' depth (ts ++ more)) more := by
  induction ts generalizing depth with
  | nil => exact stable_cutShort ..
  | cons t ts ih =>
    rw [List.cons_append]
    unfold memberStatement
    split
    · exact (ih _).map _
    split
    · exact (ih _).map _
    split
    · cases depth with
      | zero => exact .inl rfl
      | succ depth => exact (ih depth).map _
    split
    · exact .inl rfl
    · exact (ih depth).map _

/-! Class bodies. -/

theorem afterTypeArguments_append (depth : Nat) : afterTypeArguments depth ts = [] ∨
    afterTypeArguments depth (ts ++ more) = afterTypeArguments depth ts ++ more := by
  induction ts generalizing depth with
  | nil => exact .inl rfl
  | cons t ts ih =>
    simp only [List.cons_append, afterTypeArguments]
    generalize (if t.isPunct '<' then depth + 1 else if t.isPunct '>' then depth - 1
      else if t.kind == .attrClose then depth - 2 else depth) = depth'
    split
    · exact .inr rfl
    · exact ih depth'

theorem skipTypeArguments_append :
    skipTypeArguments ts = [] ∨ skipTypeArguments (ts ++ more) = skipTypeArguments ts ++ more := by
  cases ts with
  | nil => exact .inl rfl
  | cons t ts =>
    have hhead : Reference.headIs (·.isPunct '<') (t :: ts ++ more) =
        Reference.headIs (·.isPunct '<') (t :: ts) := rfl
    unfold skipTypeArguments
    rw [hhead]
    split
    · exact afterTypeArguments_append ..
    · exact .inr rfl

theorem useClauses_of_skip {stop : Span} {ns name : String} {t next : Token} {ts after : List Token}
    (hname : t.ident? = some name) (hskip : skipTypeArguments ts = next :: after) :
    useClauses stop ns (t :: ts) =
      if next.isPunct ',' then (useClauses stop ns after).map
    (⟨Name.resolveClass ns name, t.span⟩ :: ·)
      else if next.isPunct ';' then success [⟨Name.resolveClass ns name, t.span⟩] after
      else if next.isPunct '\x7b' then
        (block next after).map fun _ => [⟨Name.resolveClass ns name, t.span⟩]
      else failure .useUnfinished next.span (next :: after) := by
  rw [useClauses]
  simp only [hname]
  split
  · next h => cases hskip.symm.trans h
  · next h =>
    cases hskip.symm.trans h
    rfl

theorem stable_useClauses (ns : String) :
    (useClauses stop ns ts).Stable (useClauses stop' ns (ts ++ more)) more := by
  have hmore : ∀ {ts next after}, skipTypeArguments ts = next :: after →
      skipTypeArguments (ts ++ more) = next :: (after ++ more) := by
    intro ts next after hskip
    rcases skipTypeArguments_append ts more with hnone | heq
    · cases hnone.symm.trans hskip
    · rw [heq, hskip, List.cons_append]
  fun_induction useClauses stop ns ts with
  | case1 => exact stable_cutShort ..
  | case2 t ts h =>
    rw [List.cons_append, useClauses]
    simp only [h]
    exact .inl rfl
  | case3 => exact stable_cutShort ..
  | case4 t ts name hname clause next after hskip h ih =>
    rw [List.cons_append, useClauses_of_skip hname (hmore hskip), if_pos h]
    exact ih.map _
  | case5 t ts name hname clause next after hskip h₁ h₂ =>
    rw [List.cons_append, useClauses_of_skip hname (hmore hskip), if_neg h₁, if_pos h₂]
    exact .inl rfl
  | case6 t ts name hname clause next after hskip h₁ h₂ h₃ =>
    rw [List.cons_append, useClauses_of_skip hname (hmore hskip), if_neg h₁, if_neg h₂, if_pos h₃]
    exact (stable_block ..).map _
  | case7 t ts name hname next after hskip h₁ h₂ h₃ =>
    rw [List.cons_append, useClauses_of_skip hname (hmore hskip), if_neg h₁, if_neg h₂, if_neg h₃]
    exact .inl rfl

theorem stable_method (ns : String) (visibility : Visibility) :
    (method stop ns visibility ts).Stable (method stop' ns visibility (ts ++ more)) more :=
  (stable_expectName ..).andThen fun _ => (stable_signature ..).map _

theorem stable_properties (ns : String) (visibility : Visibility) (t : Token) :
    (properties stop ns visibility t ts).Stable
      (properties stop' ns visibility t (ts ++ more)) more := by
  refine (stable_memberStatement stop stop' (t :: ts) more 0).andThen fun statement => .inl ?_
  split <;> rfl

theorem continues_bodyItem (ns : String) (pending : Option Visibility) (t : Token) :
    (bodyItem stop ns pending t ts).Continues (bodyItem stop' ns pending t (ts ++ more)) more := by
  unfold bodyItem
  cases ClassBody.ItemStart.ofToken t with
  | nothing => exact .inl rfl
  | visibility => exact .inl rfl
  | attributes => exact (continues_attributes ..).map _
  | uses => exact (stable_useClauses ..).continues.map _
  | method => exact (stable_method ..).continues.map _
  | constants => exact ((stable_memberStatement ..).map _).continues.map _
  | memberless => exact (stable_memberStatement ..).continues.map _
  | properties => exact (stable_properties ..).continues.map _

theorem stable_classItems (ns : String) (brace : Token) (pending : Option Visibility) :
    (classItems stop ns brace pending ts).Stable (classItems stop' ns brace pending (ts ++ more))
      more := by
  induction hn : ts.length using Nat.strongRecOn generalizing ts pending with
  | _ n ih =>
    cases ts with
    | nil =>
      rw [classItems]
      exact stable_cutShort ..
    | cons t ts =>
      rw [List.cons_append]
      by_cases h : t.isPunct '\x7d' = true
      · rw [classItems, classItems, if_pos h, if_pos h]
        exact .inl rfl
      rw [classItems_of_item h, classItems_of_item h]
      refine (continues_bodyItem ..).andThen (fun found hfound => ?_) fun found => ?_
      · have hle := bodyItem_rest_le (Option.isSome_of_eq_some hfound)
        rw [List.length_cons] at hn
        exact (ih _ (by omega) _ _ rfl).map _
      · rw [classItems]
        exact ⟨rfl, rfl⟩

theorem stable_classBody (ns : String) :
    (classBody stop ns ts).Stable (classBody stop' ns (ts ++ more)) more := by
  induction ts with
  | nil => exact stable_cutShort ..
  | cons t ts ih =>
    rw [List.cons_append, classBody, classBody]
    split
    · exact stable_classItems ..
    split
    · exact .inl rfl
    · exact ih

/-! Constructs of a unit. -/

theorem resume_append (depth : Nat) :
    resume depth ts = [] ∨ resume depth (ts ++ more) = resume depth ts ++ more := by
  induction ts generalizing depth with
  | nil => exact .inl rfl
  | cons t ts ih =>
    rw [List.cons_append, resume, resume]
    split
    · exact ih _
    split
    · exact ih _
    split
    · exact .inr rfl
    · exact ih depth

theorem stable_directiveEnd (mention : ModuleMention) :
    (directiveEnd stop mention ts).Stable (directiveEnd stop' mention (ts ++ more)) more := by
  cases ts with
  | nil => exact stable_cutShort ..
  | cons t ts =>
    refine .inl ?_
    rw [List.cons_append, directiveEnd, directiveEnd]
    split <;> rfl

theorem stable_moduleDirective :
    (moduleDirective stop ts).Stable (moduleDirective stop' (ts ++ more)) more :=
  (continues_moduleName ..).andThen (fun _ _ => stable_directiveEnd ..) fun _ => ⟨rfl, rfl⟩

theorem stable_definitionBlock (mention : ModuleMention) :
    (definitionBlock stop mention ts).Stable (definitionBlock stop' mention (ts ++ more)) more := by
  cases ts with
  | nil => exact stable_cutShort ..
  | cons t ts =>
    rw [List.cons_append, definitionBlock, definitionBlock]
    split
    · exact (stable_block ..).map _
    · exact .inl rfl

theorem stable_moduleDefinition :
    (moduleDefinition stop ts).Stable (moduleDefinition stop' (ts ++ more)) more :=
  (continues_moduleName ..).andThen (fun _ _ => stable_definitionBlock ..) fun _ => ⟨rfl, rfl⟩

theorem stable_namespaceHead :
    (namespaceHead stop ts).Stable (namespaceHead stop' (ts ++ more)) more := by
  have hname : (namespaceName ts).2 = [] ∨ namespaceName (ts ++ more) =
      ((namespaceName ts).1, (namespaceName ts).2 ++ more) := by
    cases ts with
    | nil => exact .inl rfl
    | cons t ts =>
      refine .inr ?_
      rw [List.cons_append, namespaceName, namespaceName]
      split <;> rfl
  unfold namespaceHead
  generalize namespaceName ts = found at hname ⊢
  obtain ⟨name, rest⟩ := found
  rcases hname with rfl | heq
  · exact stable_cutShort ..
  · rw [heq]
    cases rest with
    | nil => exact stable_cutShort ..
    | cons t after =>
      refine .inl ?_
      dsimp only [List.cons_append]
      split
      · rfl
      split <;> rfl

theorem stable_function (c : UnitContext) :
    (function stop c ts).Stable (function stop' c (ts ++ more)) more :=
  (stable_expectName ..).andThen fun _ => (stable_signature ..).map _

theorem stable_classLike (c : UnitContext) (role : NameRole)
    (content : ClassBody → DeclarationContent) :
    (classLike stop c role content ts).Stable (classLike stop' c role content (ts ++ more)) more :=
  (stable_expectName ..).andThen fun _ => (stable_classBody ..).map _

theorem stable_constants (c : UnitContext) :
    (constants stop c ts).Stable (constants stop' c (ts ++ more)) more :=
  (stable_upToSemicolon ..).map _

end Reading

namespace UnitStep

variable {c : UnitContext} {step step' : UnitStep} {more : List Token}

def followedBy (step : UnitStep) (more : List Token) : UnitStep :=
  { step with rest := step.rest ++ more }

/-- The step from context `c` adds nothing and stays in the module. -/
structure AddsNothing (c : UnitContext) (step : UnitStep) : Prop where
  definitions : step.definitions = []
  declarations : step.declarations = []
  directive : step.context.directive = c.directive

/-- Taken with more tokens behind, the step is the same, unless it added nothing up to the end. -/
def Continues (c : UnitContext) (step step' : UnitStep) (more : List Token) : Prop :=
  step' = step.followedBy more ∨ step.rest = [] ∧ AddsNothing c step

theorem continues_resume {errors : List SyntaxError} (c : UnitContext) (ts more : List Token) :
    Continues c ⟨c.settled, [], [], errors, Reading.resume 0 ts⟩
      ⟨c.settled, [], [], errors, Reading.resume 0 (ts ++ more)⟩ more := by
  rcases Reading.resume_append ts more 0 with hnone | heq
  · exact .inr ⟨hnone, rfl, rfl, rfl⟩
  · refine .inl ?_
    rw [heq]
    rfl

section

variable {α : Type} {r r' : Reading α}

theorem continues_followedBy (c : UnitContext) (r : Reading α) (use : α → UnitStep) :
    Continues c (ofReading c r use) (ofReading c (r.followedBy more) use) more := by
  unfold ofReading
  cases hvalue : r.value? with
  | none =>
    have hvalue' : (r.followedBy more).value? = none := hvalue
    rw [hvalue']
    exact continues_resume c r.rest more
  | some a =>
    have hvalue' : (r.followedBy more).value? = some a := hvalue
    rw [hvalue']
    exact .inl rfl

theorem continues_of_stable (h : r.Stable r' more) (c : UnitContext) (use : α → UnitStep) :
    Continues c (ofReading c r use) (ofReading c r' use) more := by
  rcases h with rfl | ⟨hvalue, hrest⟩
  · exact continues_followedBy ..
  · refine .inr ?_
    rw [ofReading, hvalue, hrest]
    exact ⟨rfl, rfl, rfl, rfl⟩

theorem continues_of_continues (h : r.Continues r' more) {c : UnitContext} {use : α → UnitStep}
    (huse : ∀ a, AddsNothing c (use a)) :
    Continues c (ofReading c r use) (ofReading c r' use) more := by
  rcases h with rfl | hrest
  · exact continues_followedBy ..
  · refine .inr ?_
    unfold ofReading
    rw [hrest]
    split
    · exact ⟨rfl, rfl, rfl, rfl⟩
    · next a _ => exact ⟨rfl, (huse a).definitions, (huse a).declarations, (huse a).directive⟩

end

theorem continues_ite {p : Prop} [Decidable p] {a b a' b' : UnitStep} (ha : Continues c a a' more)
    (hb : Continues c b b' more) :
    Continues c (if p then a else b) (if p then a' else b') more := by
  split
  · exact ha
  · exact hb

theorem continues_unexpected (c : UnitContext) (fault : SyntaxFault) (span : Span)
    (ts more : List Token) :
    Continues c (unexpected c fault span ts) (unexpected c fault span (ts ++ more)) more :=
  continues_resume c ts more

theorem continues_ofWord (stop stop' : Span) (c : UnitContext) (t : Token) (word : String)
    (ts more : List Token) :
    Continues c (ofWord stop c t word ts) (ofWord stop' c t word (ts ++ more)) more := by
  by_cases hnew : word = "new" ∧ ts = []
  · -- At the end `new` starts no definition, whatever may follow it.
    obtain ⟨rfl, rfl⟩ := hnew
    exact .inr ⟨rfl, rfl, rfl, rfl⟩
  have hdefinition : (word = "new" && Reference.headIs (·.isWord "module") (ts ++ more)) =
      (word = "new" && Reference.headIs (·.isWord "module") ts) := by
    cases ts with
    | nil => simp [show word ≠ "new" from fun h => hnew ⟨h, rfl⟩]
    | cons t ts => rfl
  have hmodule : (Reading.moduleDefinition stop ts.tail).Stable
      (Reading.moduleDefinition stop' (ts ++ more).tail) more := by
    cases ts with
    | nil => exact .inr ⟨rfl, rfl⟩
    | cons t ts => exact Reading.stable_moduleDefinition ..
  have hpass : ∀ c', Continues c (pass c' ts) (pass c' (ts ++ more)) more := fun _ => .inl rfl
  unfold ofWord
  rw [hdefinition]
  refine continues_ite (hpass _) (continues_ite (hpass _) (continues_ite (hpass _) ?_))
  refine continues_ite (continues_of_stable (Reading.stable_moduleDirective ..) ..) ?_
  refine continues_ite (continues_of_stable hmodule ..) ?_
  refine continues_ite (continues_of_stable (Reading.stable_namespaceHead ..) ..) ?_
  refine continues_ite
    (continues_of_continues (Reading.continues_skipStatement ..) fun _ => ⟨rfl, rfl, rfl⟩) ?_
  refine continues_ite (continues_of_stable (Reading.stable_function ..) ..) ?_
  refine continues_ite (continues_of_stable (Reading.stable_classLike ..) ..) ?_
  refine continues_ite (continues_of_stable (Reading.stable_classLike ..) ..) ?_
  exact continues_ite (continues_of_stable (Reading.stable_constants ..) ..)
    (continues_unexpected ..)

theorem continues_ofTokens (stop stop' : Span) (c : UnitContext) (t : Token)
    (ts more : List Token) :
    Continues c (ofTokens stop c t ts) (ofTokens stop' c t (ts ++ more)) more := by
  unfold ofTokens
  split
  · exact continues_ofWord ..
  · exact continues_of_continues (Reading.continues_attributes ..) fun _ => ⟨rfl, rfl, rfl⟩
  · exact .inl rfl
  · split
    · exact .inl rfl
    · exact continues_unexpected ..
  · exact continues_unexpected ..

/-! A unit stays in the module that it has joined. -/

theorem directive_ofReading {α : Type} {c : UnitContext} (r : Reading α) {use : α → UnitStep}
    {m : ModuleMention} (h : c.directive = some m)
    (huse : ∀ a, (use a).context.directive = some m) :
    (ofReading c r use).context.directive = some m := by
  unfold ofReading
  split
  · exact h
  · exact huse _

theorem directive_join {c : UnitContext} {m : ModuleMention} (h : c.directive = some m)
    (keyword : Span)
    (mention : ModuleMention) : (join c keyword mention).context.directive = some m := by
  unfold join
  rw [h]
  exact h

theorem directive_ite {p : Prop} [Decidable p] {a b : UnitStep} {m : Option ModuleMention}
    (ha : a.context.directive = m) (hb : b.context.directive = m) :
    (if p then a else b).context.directive = m := by
  split
  · exact ha
  · exact hb

theorem directive_ofTokens (stop : Span) {c : UnitContext} {m : ModuleMention}
    (h : c.directive = some m) (t : Token) (ts : List Token) :
    (ofTokens stop c t ts).context.directive = some m := by
  have hread : ∀ {α : Type} (r : Reading α) (use : α → UnitStep),
      (∀ a, (use a).context.directive = some m) → (ofReading c r use).context.directive = some m :=
    fun r _ => directive_ofReading r h
  unfold ofTokens
  split
  · refine directive_ite h (directive_ite h (directive_ite h ?_))
    refine directive_ite (hread _ _ (directive_join h _)) (directive_ite (hread _ _ fun _ => h) ?_)
    refine directive_ite (hread _ _ fun _ => h) (directive_ite (hread _ _ fun _ => h) ?_)
    refine directive_ite (hread _ _ fun _ => h) (directive_ite (hread _ _ fun _ => h) ?_)
    exact directive_ite (hread _ _ fun _ => h) (directive_ite (hread _ _ fun _ => h) h)
  · exact hread _ _ fun _ => h
  · exact h
  · split <;> exact h
  · exact h

end UnitStep

theorem directive_readUnit (stop : Span) {c : UnitContext} {m : ModuleMention}
    (h : c.directive = some m) (ts : List Token) :
    (readUnit stop c ts).unit.directive = some m := by
  fun_induction readUnit stop c ts with
  | case1 => exact h
  | case2 c t ts step later ih => exact ih (UnitStep.directive_ofTokens stop h t ts)

/-! Units. -/

/-- What the unit defines and declares comes first in the other one, which joins its module too. -/
structure CompilationUnit.Begins (u u' : CompilationUnit) : Prop where
  directive : ∀ m ∈ u.directive, u'.directive = some m
  definitions : u.definitions <+: u'.definitions
  declarations : u.declarations <+: u'.declarations

theorem begins_readUnit (stop stop' : Span) (c : UnitContext) (ts more : List Token) :
    (readUnit stop c ts).unit.Begins (readUnit stop' c (ts ++ more)).unit := by
  induction hn : ts.length using Nat.strongRecOn generalizing c ts with
  | _ n ih =>
    cases ts with
    | nil =>
      rw [readUnit]
      exact ⟨fun m hm => directive_readUnit stop' hm _, List.nil_prefix, List.nil_prefix⟩
    | cons t ts =>
      have hle := UnitStep.ofTokens_rest_le stop c t ts
      rw [List.length_cons] at hn
      rw [List.cons_append, readUnit, readUnit]
      rcases UnitStep.continues_ofTokens stop stop' c t ts more with heq | ⟨hrest, hnothing⟩
      · rw [heq]
        have hlater := ih (UnitStep.ofTokens stop c t ts).rest.length (by omega)
          (UnitStep.ofTokens stop c t ts).context _ rfl
        exact ⟨hlater.directive, (List.prefix_append_right_inj _).2 hlater.definitions,
          (List.prefix_append_right_inj _).2 hlater.declarations⟩
      · rw [hrest, readUnit, hnothing.definitions, hnothing.declarations, hnothing.directive]
        refine ⟨fun m hm => ?_, List.nil_prefix, List.nil_prefix⟩
        exact directive_readUnit stop' (UnitStep.directive_ofTokens stop' hm t _) _

/-- What stands behind a newline changes nothing that a unit has read before it. -/
theorem begins_parseUnit_newline (path s₁ s₂ : String) (h : (tokenize s₁).errors = []) :
    (parseUnit ⟨path, s₁⟩).unit.Begins (parseUnit ⟨path, s₁ ++ "\n" ++ s₂⟩).unit := by
  obtain ⟨more, hmore⟩ := TokenStream.tokens_newline h s₂.toList
  have hchars : (s₁ ++ "\n" ++ s₂).toList = s₁.toList ++ '\n' :: s₂.toList := by simp
  simp only [parseUnit, unitOfTokens, SourceFile.chars, hchars, ← hmore]
  exact begins_readUnit ..

/-- The class has no end before the newline, so it is declared only with what stands behind. -/
theorem begins_parseUnit_unclosed :
    let s := "module a;\nfunction f() \x7b g(); \x7d\nclass C \x7b"
    (tokenize s).errors = [] ∧ (parseUnit ⟨"a", s⟩).unit.Begins
      (parseUnit ⟨"a", s ++ "\n" ++ "public function m() \x7b\x7d \x7d"⟩).unit :=
  ⟨by decide +kernel, begins_parseUnit_newline _ _ _ (by decide +kernel)⟩

end ModuleVisibility
