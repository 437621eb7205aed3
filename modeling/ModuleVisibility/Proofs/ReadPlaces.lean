import ModuleVisibility.Proofs.TokenText

/-!
What reading reports and records stands where tokens stand. Every reader is followed with a set of
places that has those of the tokens and of the end, and with two places their join: faults,
declarations and use clauses are at places of the set.
-/
namespace ModuleVisibility

/-- All tokens stand at places of the set. -/
def Within (P : Span → Prop) (ts : List Token) : Prop := ∀ t ∈ ts, P t.span

namespace Within

variable {P : Span → Prop} {t : Token} {ts ts' : List Token}

theorem head (h : Within P (t :: ts)) : P t.span := h t List.mem_cons_self

theorem tail (h : Within P (t :: ts)) : Within P ts := fun u hu => h u (List.mem_cons_of_mem t hu)

theorem suffix (h : Within P ts) (hsuffix : ts' <:+ ts) : Within P ts' :=
  fun t ht => h t (hsuffix.subset ht)

end Within

namespace Reading

variable {α β : Type}

/-- All faults of the reading are at places of the set, and what is read is as `Q` says. -/
structure Placed (P : Span → Prop) (Q : α → Prop) (r : Reading α) : Prop where
  errors : ∀ e ∈ r.errors, P e.span
  value : ∀ a, r.value? = some a → Q a

section

variable {P : Span → Prop} {Q : α → Prop} {R : β → Prop} {r : Reading α}

theorem placed_success {a : α} (ha : Q a) (ts : List Token) : (success a ts).Placed P Q where
  errors e he := nomatch he
  value b hb := by
    cases hb
    exact ha

theorem placed_failure {span : Span} (hspan : P span) (fault : SyntaxFault) (ts : List Token) :
    (failure fault span ts : Reading α).Placed P Q where
  errors e he := by
    rw [List.mem_singleton.1 he]
    exact hspan
  value b hb := nomatch hb

theorem Placed.map (h : r.Placed P Q) {f : α → β} (hf : ∀ a, Q a → R (f a)) :
    (r.map f).Placed P R where
  errors := h.errors
  value b hb := by
    obtain ⟨a, ha, rfl⟩ := Option.map_eq_some_iff.1 hb
    exact hf a (h.value a ha)

theorem Placed.andThen (h : r.Placed P Q) {next : α → List Token → Reading β}
    (hnext : ∀ a, Q a → (next a r.rest).Placed P R) : (r.andThen next).Placed P R := by
  cases hvalue : r.value? with
  | none =>
    rw [andThen_of_none next hvalue]
    exact ⟨h.errors, fun b hb => nomatch hb⟩
  | some a =>
    rw [andThen_of_some next hvalue]
    have hafter := hnext a (h.value a hvalue)
    refine ⟨fun e he => ?_, hafter.value⟩
    rcases List.mem_append.1 he with hfirst | hlater
    · exact h.errors e hfirst
    · exact hafter.errors e hlater

end

section

variable {P : Span → Prop} {stop : Span} {ts : List Token}

/-! Names and blocks. -/

theorem placed_expectName (hstop : P stop) (hts : Within P ts) (role : NameRole) :
    (expectName stop role ts).Placed P fun found => P found.2 := by
  unfold expectName
  split
  · exact placed_failure hstop ..
  · split
    · refine placed_success ?_ _
      exact hts.head
    · exact placed_failure hts.head ..

theorem placed_moduleSegments (hjoin : ∀ a b, P a → P b → P (a.join b)) (hstop : P stop)
    {span : Span} (hspan : P span) (hts : Within P ts) (name : String) :
    (moduleSegments stop name span ts).Placed P fun found => P found.2 := by
  fun_induction moduleSegments stop name span ts with
  | case2 => exact placed_failure hstop ..
  | case4 _ _ _ _ _ _ _ _ ih => exact ih (hjoin _ _ hspan hts.tail.head) hts.tail.tail
  | case5 => exact placed_failure hts.tail.head ..
  | case1 | case3 | case6 =>
    refine placed_success ?_ _
    exact hspan

theorem placed_moduleName (hjoin : ∀ a b, P a → P b → P (a.join b)) (hstop : P stop)
    (hts : Within P ts) : (moduleName stop ts).Placed P fun found => P found.2 :=
  (placed_expectName hstop hts _).andThen fun _ hspan =>
    placed_moduleSegments hjoin hstop hspan (hts.suffix (expectName_rest_suffix ..)) _

theorem placed_block {brace : Token} (hbrace : P brace.span) (ts : List Token) :
    (block brace ts).Placed P fun _ => True := by
  unfold block
  split
  · exact placed_success trivial _
  · exact placed_failure hbrace ..

theorem placed_signature (hstop : P stop) (hts : Within P ts) (depth : Nat) :
    (signature stop depth ts).Placed P fun _ => True := by
  fun_induction signature stop depth ts with
  | case1 => exact placed_failure hstop ..
  | case5 => exact placed_success trivial _
  | case6 => exact placed_block hts.head _
  | case7 => exact placed_failure hts.head ..
  | case2 _ _ _ _ ih | case3 _ _ _ _ _ ih | case4 _ _ _ _ _ _ ih | case8 _ _ _ _ _ _ _ _ _ ih =>
    exact ih hts.tail

theorem placed_attributes (hstop : P stop) (depth : Nat) (found : Bool) (ts : List Token) :
    (attributes stop depth found ts).Placed P fun _ => True := by
  fun_induction attributes stop depth found ts with
  | case1 =>
    refine ⟨fun e he => ?_, fun _ _ => trivial⟩
    rw [List.mem_singleton.1 he]
    exact hstop
  | case2 => exact placed_success trivial _
  | case3 _ _ _ _ _ _ ih | case4 _ _ _ _ _ _ _ ih | case5 _ _ _ _ _ _ _ ih => exact ih

theorem placed_skipStatement (hts : Within P ts) : (skipStatement ts).Placed P fun _ => True := by
  fun_induction skipStatement ts with
  | case1 => exact placed_success trivial _
  | case2 => exact placed_success trivial _
  | case3 => exact (placed_block hts.head _).map fun _ _ => trivial
  | case4 _ _ _ _ ih => exact ih hts.tail

theorem placed_upToSemicolon (hstop : P stop) (hts : Within P ts) :
    (upToSemicolon stop ts).Placed P (Within P) := by
  fun_induction upToSemicolon stop ts with
  | case1 => exact placed_failure hstop ..
  | case2 => exact placed_success (fun _ ht => absurd ht List.not_mem_nil) _
  | case3 t ts _ ih => exact (ih hts.tail).map fun _ h => List.forall_mem_cons.2 ⟨hts.head, h⟩

theorem placed_memberStatement (hstop : P stop) (hts : Within P ts) (depth : Nat) :
    (memberStatement stop depth ts).Placed P fun _ => True := by
  fun_induction memberStatement stop depth ts with
  | case1 => exact placed_failure hstop ..
  | case4 => exact placed_failure hts.head ..
  | case6 => exact placed_success trivial _
  | case2 _ _ _ _ ih | case3 _ _ _ _ _ ih | case5 _ _ _ _ _ _ ih | case7 _ _ _ _ _ _ _ ih =>
    exact (ih hts.tail).map fun _ _ => trivial

/-! Classes and traits. -/

theorem placed_useClauses (hstop : P stop) (hts : Within P ts) (ns : String) :
    (useClauses stop ns ts).Placed P fun clauses => ∀ c ∈ clauses, P c.span := by
  have hbehind : ∀ {t next : Token} {ts after : List Token}, Within P (t :: ts) →
      skipTypeArguments ts = next :: after → Within P (next :: after) :=
    fun hts h => hts.tail.suffix (h ▸ skipTypeArguments_suffix _)
  have hone : ∀ {c : UseClause}, P c.span → ∀ d ∈ [c], P d.span := by
    intro c hc d hd
    rw [List.mem_singleton.1 hd]
    exact hc
  fun_induction useClauses stop ns ts with
  | case1 => exact placed_failure hstop ..
  | case2 => exact placed_failure hts.head ..
  | case3 => exact placed_failure hstop ..
  | case4 _ _ _ _ _ _ _ h _ ih =>
    exact (ih (hbehind hts h).tail).map fun _ hlater => List.forall_mem_cons.2 ⟨hts.head, hlater⟩
  | case5 => exact placed_success (hone hts.head) _
  | case6 _ _ _ _ _ _ _ h =>
    exact (placed_block (hbehind hts h).head _).map fun _ _ => hone hts.head
  | case7 _ _ _ _ _ _ h => exact placed_failure (hbehind hts h).head ..

theorem placed_method (hstop : P stop) (hts : Within P ts) (ns : String) (visibility : Visibility) :
    (method stop ns visibility ts).Placed P fun _ => True :=
  (placed_expectName hstop hts _).andThen fun _ _ =>
    (placed_signature hstop (hts.suffix (expectName_rest_suffix ..)) 0).map fun _ _ => trivial

theorem placed_classConstants (hstop : P stop) (hts : Within P ts) (ns : String)
    (visibility : Visibility) : (classConstants stop ns visibility ts).Placed P fun _ => True :=
  (placed_memberStatement hstop hts 0).map fun _ _ => trivial

theorem placed_properties {t : Token} (hstop : P stop) (hts : Within P (t :: ts)) (ns : String)
    (visibility : Visibility) : (properties stop ns visibility t ts).Placed P fun _ => True := by
  refine (placed_memberStatement hstop hts 0).andThen fun statement _ => ?_
  split
  · refine ⟨fun e he => ?_, fun _ _ => trivial⟩
    rw [List.mem_singleton.1 he]
    exact hts.head
  · exact placed_success trivial _

theorem placed_bodyItem {t : Token} (hstop : P stop) (hts : Within P (t :: ts)) (ns : String)
    (pending : Option Visibility) :
    (bodyItem stop ns pending t ts).Placed P fun item => ∀ c ∈ item.content.uses, P c.span := by
  have hnone : ∀ {members : List Member}, ∀ c ∈ (ClassBody.mk [] members).uses, P c.span :=
    fun _ hc => nomatch hc
  unfold bodyItem
  cases ClassBody.ItemStart.ofToken t with
  | nothing => exact placed_success hnone _
  | visibility => exact placed_success hnone _
  | attributes => exact (placed_attributes hstop ..).map fun _ _ => hnone
  | uses => exact (placed_useClauses hstop hts.tail ns).map fun _ h => h
  | method => exact (placed_method hstop hts.tail ..).map fun _ _ => hnone
  | constants => exact (placed_classConstants hstop hts.tail ..).map fun _ _ => hnone
  | memberless => exact (placed_memberStatement hstop hts.tail 0).map fun _ _ => hnone
  | properties => exact (placed_properties hstop hts ..).map fun _ _ => hnone

theorem placed_classItems {brace : Token} (hstop : P stop) (hbrace : P brace.span)
    (hts : Within P ts) (ns : String) (pending : Option Visibility) :
    (classItems stop ns brace pending ts).Placed P fun body => ∀ c ∈ body.uses, P c.span := by
  fun_induction classItems stop ns brace pending ts with
  | case1 => exact placed_failure hbrace ..
  | case2 => exact placed_success (fun _ hc => absurd hc List.not_mem_nil) _
  | case3 pending t ts =>
    exact ⟨(placed_bodyItem hstop hts ns pending).errors, fun _ hb => by cases hb⟩
  | case4 pending t ts _ item found hfound later ih =>
    have hitem := placed_bodyItem hstop hts ns pending
    have hlater := ih (hts.suffix (bodyItem_rest_suffix ..))
    refine ⟨fun e he => ?_, fun body hbody c hc => ?_⟩
    · rcases List.mem_append.1 he with hhere | hbehind
      · exact hitem.errors e hhere
      · exact hlater.errors e hbehind
    · obtain ⟨more, hmore, rfl⟩ := Option.map_eq_some_iff.1 hbody
      rcases List.mem_append.1 hc with hhere | hbehind
      · exact hitem.value found hfound c hhere
      · exact hlater.value more hmore c hbehind

theorem placed_classBody (hstop : P stop) (hts : Within P ts) (ns : String) :
    (classBody stop ns ts).Placed P fun body => ∀ c ∈ body.uses, P c.span := by
  fun_induction classBody stop ns ts with
  | case1 => exact placed_failure hstop ..
  | case2 => exact placed_classItems hstop hts.head hts.tail ns none
  | case3 => exact placed_failure hts.head ..
  | case4 _ _ _ _ ih => exact ih hts.tail

/-! Declarations. -/

theorem placed_moduleDirective (hjoin : ∀ a b, P a → P b → P (a.join b)) (hstop : P stop)
    (hts : Within P ts) : (moduleDirective stop ts).Placed P fun mention => P mention.span := by
  refine (placed_moduleName hjoin hstop hts).andThen fun ⟨name, span⟩ hspan => ?_
  have hrest := hts.suffix (moduleName_rest_suffix stop ts)
  dsimp only
  unfold directiveEnd
  split
  · exact placed_failure hstop ..
  · next t ts heq =>
    rw [heq] at hrest
    split
    · refine placed_success ?_ _
      exact hspan
    · exact placed_failure hrest.head ..

theorem placed_moduleDefinition (hjoin : ∀ a b, P a → P b → P (a.join b)) (hstop : P stop)
    (hts : Within P ts) : (moduleDefinition stop ts).Placed P fun _ => True := by
  refine (placed_moduleName hjoin hstop hts).andThen fun ⟨name, span⟩ _ => ?_
  have hrest := hts.suffix (moduleName_rest_suffix stop ts)
  dsimp only
  unfold definitionBlock
  split
  · exact placed_failure hstop ..
  · next t ts heq =>
    rw [heq] at hrest
    split
    · exact (placed_block hrest.head _).map fun _ _ => trivial
    · exact placed_failure hrest.head ..

theorem placed_namespaceHead (hstop : P stop) (hts : Within P ts) :
    (namespaceHead stop ts).Placed P fun _ => True := by
  have hrest := hts.suffix (namespaceName_suffix ts)
  unfold namespaceHead
  dsimp only
  split
  · exact placed_failure hstop ..
  · next t after heq =>
    rw [heq] at hrest
    split
    · exact placed_success trivial _
    · split
      · exact placed_success trivial _
      · exact placed_failure hrest.head ..

end

end Reading

/-- The declaration and its use clauses are at places of the set. -/
structure Declaration.Placed (P : Span → Prop) (d : Declaration) : Prop where
  span : P d.span
  uses : ∀ c ∈ d.content.uses, P c.span

namespace Declarator

theorem exists_token_of_mem_assigned {depth : Nat} {ts : List Token} {d : Declarator}
    (h : d ∈ assigned depth ts) : ∃ t ∈ ts, t.ident? = some d.name ∧ d.span = t.span := by
  have hlater :
    ∀ {t : Token} {ts : List Token}, (∃ u ∈ ts, u.ident? = some d.name ∧ d.span = u.span) →
      ∃ u ∈ t :: ts, u.ident? = some d.name ∧ d.span = u.span :=
    fun ⟨u, hu, hspan⟩ => ⟨u, List.mem_cons_of_mem _ hu, hspan⟩
  fun_induction assigned depth ts with
  | case1 => cases h
  | case4 _ t ts _ _ _ hname _ ih =>
    rcases List.mem_cons.1 h with rfl | h
    · exact ⟨_, List.mem_cons_self, hname, rfl⟩
    · exact hlater (ih h)
  | case2 _ _ _ _ ih | case3 _ _ _ _ _ ih | case5 _ _ _ _ _ _ _ _ ih | case6 _ _ _ _ _ _ ih =>
    exact hlater (ih h)

theorem exists_token_of_lastName? {ts : List Token} {d : Declarator} (h : lastName? ts = some d) :
    ∃ t ∈ ts, t.ident? = some d.name ∧ d.span = t.span := by
  induction ts with
  | nil => cases h
  | cons t ts ih =>
    unfold lastName? at h
    cases hlast : lastName? ts with
    | some last =>
      rw [hlast] at h
      cases h
      obtain ⟨u, hu, hspan⟩ := ih hlast
      exact ⟨u, List.mem_cons_of_mem t hu, hspan⟩
    | none =>
      rw [hlast] at h
      obtain ⟨name, hname, rfl⟩ := Option.map_eq_some_iff.1 h
      exact ⟨t, List.mem_cons_self, hname, rfl⟩

/-- A constant is declared where its name stands. -/
theorem exists_token_of_mem_constants {ts : List Token} {d : Declarator} (h : d ∈ constants ts) :
    ∃ t ∈ ts, t.ident? = some d.name ∧ d.span = t.span := by
  unfold constants at h
  split at h
  · exact exists_token_of_lastName? (Option.mem_toList.1 h)
  · exact exists_token_of_mem_assigned h

end Declarator

namespace Reading

variable {P : Span → Prop} {stop : Span} {ts : List Token}

theorem placed_function (hstop : P stop) (hts : Within P ts) (c : UnitContext) :
    (function stop c ts).Placed P (Declaration.Placed P) :=
  (placed_expectName hstop hts _).andThen fun _ hspan =>
    (placed_signature hstop (hts.suffix (expectName_rest_suffix ..)) 0).map fun _ _ =>
      ⟨hspan, fun _ hc => nomatch hc⟩

theorem placed_classLike (hstop : P stop) (hts : Within P ts) (c : UnitContext) (role : NameRole)
    {content : ClassBody → DeclarationContent} (hcontent : ∀ b, (content b).uses = b.uses) :
    (classLike stop c role content ts).Placed P (Declaration.Placed P) :=
  (placed_expectName hstop hts _).andThen fun _ hspan =>
    (placed_classBody hstop (hts.suffix (expectName_rest_suffix ..)) c.ns).map fun body huses =>
      ⟨hspan, fun clause hclause => huses clause (hcontent body ▸ hclause)⟩

theorem placed_constants (hstop : P stop) (hts : Within P ts) (c : UnitContext) :
    (constants stop c ts).Placed P fun ds => ∀ d ∈ ds, d.Placed P := by
  refine (placed_upToSemicolon hstop hts).map fun statement hstatement d hd => ?_
  obtain ⟨declarator, hdeclarator, rfl⟩ := List.mem_map.1 hd
  obtain ⟨t, ht, -, hspan⟩ := Declarator.exists_token_of_mem_constants hdeclarator
  exact ⟨hspan ▸ hstatement t ht, fun _ hc => nomatch hc⟩

end Reading

namespace UnitStep

variable {P : Span → Prop} {stop : Span} {c : UnitContext} {t : Token} {ts : List Token}

/-- Everything that the step reports and declares is at places of the set. -/
structure Placed (P : Span → Prop) (step : UnitStep) : Prop where
  errors : ∀ e ∈ step.errors, P e.span
  declarations : ∀ d ∈ step.declarations, d.Placed P

theorem placed_of_nil {step : UnitStep} (herrors : step.errors = [])
    (hdeclarations : step.declarations = []) : step.Placed P where
  errors e he := by
    rw [herrors] at he
    cases he
  declarations d hd := by
    rw [hdeclarations] at hd
    cases hd

theorem placed_pass (c : UnitContext) (ts : List Token) : (pass c ts).Placed P :=
  placed_of_nil rfl rfl

theorem placed_declare {ds : List Declaration} (hds : ∀ d ∈ ds, d.Placed P) (c : UnitContext) :
    (declare c ds).Placed P := ⟨fun _ he => (nomatch he), hds⟩

theorem placed_unexpected {span : Span} (hspan : P span) (c : UnitContext) (fault : SyntaxFault)
    (ts : List Token) : (unexpected c fault span ts).Placed P := by
  refine ⟨fun e he => ?_, fun _ hd => nomatch hd⟩
  rw [List.mem_singleton.1 he]
  exact hspan

theorem placed_ofReading {α : Type} {Q : α → Prop} {r : Reading α} (h : r.Placed P Q)
    {use : α → UnitStep} (huse : ∀ a, Q a → (use a).Placed P) (c : UnitContext) :
    (ofReading c r use).Placed P := by
  unfold ofReading
  split
  · exact ⟨h.errors, fun _ hd => nomatch hd⟩
  · next a ha =>
    have hstep := huse a (h.value a ha)
    refine ⟨fun e he => ?_, hstep.declarations⟩
    rcases List.mem_append.1 he with hread | hused
    · exact h.errors e hread
    · exact hstep.errors e hused

theorem placed_join {keyword : Span} {mention : ModuleMention}
    (hplace : P (keyword.join mention.span)) (c : UnitContext) :
    (join c keyword mention).Placed P := by
  unfold join
  split
  · exact placed_of_nil rfl rfl
  · refine ⟨fun e he => ?_, fun _ hd => nomatch hd⟩
    rw [List.mem_singleton.1 he]
    exact hplace

theorem placed_ite {p : Prop} [Decidable p] {a b : UnitStep} (ha : a.Placed P) (hb : b.Placed P) :
    (if p then a else b).Placed P := by
  split
  · exact ha
  · exact hb

section

variable (hjoin : ∀ a b, P a → P b → P (a.join b)) (hstop : P stop) (hts : Within P (t :: ts))
include hjoin hstop hts

theorem placed_ofWord (c : UnitContext) (word : String) : (ofWord stop c t word ts).Placed P := by
  have hone : ∀ d : Declaration, d.Placed P → (declare c.settled [d]).Placed P := by
    intro d hd
    refine placed_declare (fun other hother => ?_) _
    rw [List.mem_singleton.1 hother]
    exact hd
  have htail : Within P ts.tail := hts.tail.suffix (List.tail_suffix ts)
  refine placed_ite (placed_pass ..) (placed_ite (placed_pass ..) (placed_ite (placed_pass ..) ?_))
  refine placed_ite (placed_ofReading (Reading.placed_moduleDirective hjoin hstop hts.tail)
    (fun mention hmention => placed_join (hjoin _ _ hts.head hmention) c) c) ?_
  refine placed_ite (placed_ofReading (Reading.placed_moduleDefinition hjoin hstop htail)
    (fun _ _ => placed_of_nil rfl rfl) c) ?_
  refine placed_ite (placed_ofReading (Reading.placed_namespaceHead hstop hts.tail)
    (fun _ _ => placed_pass ..) c) ?_
  refine placed_ite (placed_ofReading (Reading.placed_skipStatement hts.tail)
    (fun _ _ => placed_pass ..) c) ?_
  refine placed_ite (placed_ofReading (Reading.placed_function hstop hts.tail c) hone c) ?_
  refine placed_ite
    (placed_ofReading (Reading.placed_classLike hstop hts.tail c _ fun _ => rfl) hone c) ?_
  refine placed_ite
    (placed_ofReading (Reading.placed_classLike hstop hts.tail c _ fun _ => rfl) hone c) ?_
  exact placed_ite (placed_ofReading (Reading.placed_constants hstop hts.tail c)
    (fun _ hds => placed_declare hds _) c) (placed_unexpected hts.head ..)

theorem placed_ofTokens (c : UnitContext) : (ofTokens stop c t ts).Placed P := by
  unfold ofTokens
  split
  · exact placed_ofWord hjoin hstop hts c _
  · exact placed_ofReading (Reading.placed_attributes hstop ..) (fun _ _ => placed_pass ..) c
  · exact placed_pass ..
  · split
    · exact placed_pass ..
    · exact placed_unexpected hts.head ..
  · exact placed_unexpected hts.head ..

end

end UnitStep

section

variable {P : Span → Prop} {stop : Span} {ts : List Token}
  (hjoin : ∀ a b, P a → P b → P (a.join b)) (hstop : P stop)
include hjoin hstop

/-- A unit reports faults and has declarations at places of the set only. -/
theorem placed_readUnit (hts : Within P ts) (c : UnitContext) :
    (∀ e ∈ (readUnit stop c ts).errors, P e.span) ∧
      ∀ d ∈ (readUnit stop c ts).unit.declarations, d.Placed P := by
  fun_induction readUnit stop c ts with
  | case1 => exact ⟨fun _ he => absurd he List.not_mem_nil, fun _ hd => absurd hd List.not_mem_nil⟩
  | case2 c t ts step later ih =>
    have hstep : step.Placed P := UnitStep.placed_ofTokens hjoin hstop hts c
    have hrest : step.rest <:+ t :: ts :=
      ((UnitStep.readsIn_ofTokens stop c t ts).mono (List.suffix_cons t ts)).rest
    obtain ⟨herrors, hdeclarations⟩ := ih (hts.suffix hrest)
    refine ⟨fun e he => ?_, fun d hd => ?_⟩
    · rcases List.mem_append.1 he with hhere | hlater
      · exact hstep.errors e hhere
      · exact herrors e hlater
    · rcases List.mem_append.1 hd with hhere | hlater
      · exact hstep.declarations d hhere
      · exact hdeclarations d hlater

end

/-- The end behind the last token is a place between characters. -/
theorem isRange_endSpan {cs : List Char} {ts : List Token} (hts : Within (Text.IsRange cs) ts) :
    Text.IsRange cs (endSpan ts) := by
  unfold endSpan
  split
  · next t ht => exact (hts t (List.mem_of_getLast? ht)).endPoint
  · exact Text.isRange_origin cs

/-- The faults, declarations and use clauses of a unit cover parts of its text. -/
theorem placed_parseUnit (file : SourceFile) :
    (∀ e ∈ (parseUnit file).errors, Text.IsRange file.chars e.span) ∧
      ∀ d ∈ (parseUnit file).unit.declarations, d.Placed (Text.IsRange file.chars) := by
  have htokens : Within (Text.IsRange file.chars) (TokenStream.ofText file.chars).tokens :=
    fun _ ht => (Token.stands_of_mem_ofText ht).isRange
  obtain ⟨herrors, hdeclarations⟩ := placed_readUnit (fun _ _ ha hb => ha.join hb)
    (isRange_endSpan htokens) htokens .start
  refine ⟨fun e he => ?_, hdeclarations⟩
  rcases List.mem_append.1 ((List.mergeSort_perm _ _).mem_iff.1 he) with hlexeme | hread
  · exact TokenStream.isRange_of_mem_errors hlexeme
  · exact herrors e hread

end ModuleVisibility
