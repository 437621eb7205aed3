import ModuleVisibility.Proofs.Nesting
import ModuleVisibility.Proofs.ReadPlaces

/-!
Braces around the names that a unit declares. A unit is read construct by construct, and a name is
at the level at which its construct begins; so only a construct that leaves a brace open behind it,
as a namespace block's head does on purpose, puts later declarations inside that brace. Reading goes
on behind whole blocks wherever a construct cannot be read, but it counts from where reading gave
up: inside a class body that makes methods of the class declarations of the unit.
-/
namespace ModuleVisibility

open Reading (LeaksItem HasLeak exists_cons_of_append)

/-- A construct of a unit: the tokens it takes, with those passed over if it cannot be read, and the
step that it makes. -/
structure Construct where
  tokens : List Token
  step : UnitStep

/-- The constructs of the rest of a unit. -/
def constructs (stop : Span) (c : UnitContext) : List Token → List Construct
  | [] => []
  | t :: ts =>
    let step := UnitStep.ofTokens stop c t ts
    ⟨(t :: ts).take (ts.length + 1 - step.rest.length), step⟩ ::
      constructs stop step.context step.rest
termination_by ts => ts.length
decreasing_by exact Nat.lt_succ_of_le (UnitStep.ofTokens_rest_le ..)

/-- The tokens are the head of a namespace block, up to its brace. -/
def OpensNamespace (tokens : List Token) (brace : Token) : Prop :=
  ∃ keyword name, tokens = keyword :: (name ++ [brace]) ∧ keyword.isWord "namespace" = true ∧
    name.length ≤ 1 ∧ (∀ u ∈ name, u.ident?.isSome = true) ∧ brace.isPunct '\x7b' = true

/-- The words that begin a class or trait. -/
def classWords : List String := ["class", "interface", "trait"]

/-- Why a construct that begins with `t` may leave a brace open behind it. -/
inductive Construct.MayLeak (k : Construct) (t : Token) : Prop
  /-- A brace that begins no construct is not counted. -/
  | brace (h : t.isPunct '\x7b' = true)
  | attributes (h : t.kind = .attrOpen)
  | constants (h : t.isWord "const" = true)
  | function (h : t.isWord "function" = true) (hnests : nests [] k.tokens = false)
  /-- The body is given up, and reading goes on inside it. -/
  | givenUp (h : ∃ word ∈ classWords, t.isWord word = true) (hnone : k.step.declarations = [])
  | item (h : ∃ word ∈ classWords, t.isWord word = true) (hleak : HasLeak k.tokens)

/-- A construct that leaves a brace open, but for the head of a namespace block. -/
def Construct.Leaks (k : Construct) : Prop :=
  openBraces [] k.tokens ≠ [] ∧ ∃ t later, k.tokens = t :: later ∧ k.MayLeak t

namespace UnitStep

variable {t : Token} {ts : List Token}

/-- Every brace that the step leaves open is accounted for. -/
def Accounted (t : Token) (ts : List Token) (step : UnitStep) : Prop :=
  step.rest ≠ [] → ∀ taken, t :: ts = taken ++ step.rest → openBraces [] taken = [] ∨
    (∃ brace, OpensNamespace taken brace) ∨ Construct.MayLeak ⟨taken, step⟩ t

theorem accounted_of_clears {step : UnitStep} (h : Clears (t :: ts) step.rest) :
    Accounted t ts step :=
  fun hrest _ hts => .inl ((h.resolve_left hrest).openBraces_eq_nil hts)

theorem accounted_of_mayLeak {step : UnitStep}
    (h : ∀ taken, t :: ts = taken ++ step.rest → Construct.MayLeak ⟨taken, step⟩ t) :
    Accounted t ts step :=
  fun _ taken hts => .inr (.inr (h taken hts))

theorem accounted_ite {p : Prop} [Decidable p] {a b : UnitStep} (ha : p → Accounted t ts a)
    (hb : Accounted t ts b) : Accounted t ts (if p then a else b) := by
  split
  · next h => exact ha h
  · exact hb

section

variable {α : Type} {c : UnitContext} {r : Reading α} {use : α → UnitStep}

theorem clears_ofReading {tokens : List Token} (h : Clears tokens r.rest) :
    Clears tokens (ofReading c r use).rest := by
  unfold ofReading
  split
  · exact h.trans (Reading.clears_resume r.rest)
  · exact h

/-- What a reading takes comes first; what is passed over behind it closes its braces. -/
theorem exists_of_ofReading {tokens taken : List Token} (hsuffix : r.rest <:+ tokens)
    (hts : tokens = taken ++ (ofReading c r use).rest) (hrest : (ofReading c r use).rest ≠ []) :
    ∃ front back, taken = front ++ back ∧ tokens = front ++ r.rest ∧ r.rest ≠ [] ∧
      openBraces [] back = [] := by
  obtain ⟨front, rfl⟩ := hsuffix
  unfold ofReading at hts hrest
  split at hts
  · next hnone =>
    rw [hnone] at hrest
    obtain ⟨back, hback, hclosed⟩ := (Reading.clears_resume r.rest).resolve_left hrest
    refine ⟨front, back, List.append_cancel_right (hts.symm.trans ?_), rfl, ?_, hclosed⟩
    · dsimp only
      rw [List.append_assoc, ← hback]
    · intro hnil
      rw [hnil] at hrest
      exact hrest rfl
  · next a ha =>
    rw [ha] at hrest
    exact ⟨front, [], by simpa using (List.append_cancel_right hts).symm, rfl, hrest, rfl⟩

end

variable (stop : Span) (c : UnitContext)

theorem accounted_unexpected (fault : SyntaxFault) (span : Span) (h : ¬ t.isPunct '\x7b' = true) :
    Accounted t ts (unexpected c fault span ts) :=
  accounted_of_clears ((Passes.cons h).clears.trans (Reading.clears_resume ts))

theorem exists_of_namespaceName (ts : List Token) :
    ∃ name, ts = name ++ (Reading.namespaceName ts).2 ∧
    name.length ≤ 1 ∧ ∀ u ∈ name, u.ident?.isSome = true := by
  unfold Reading.namespaceName
  split
  · exact ⟨[], rfl, Nat.zero_le 1, by simp⟩
  · next t ts =>
    split
    · next name hname => exact ⟨[t], rfl, Nat.le_refl 1, by simp [hname]⟩
    · exact ⟨[], rfl, Nat.zero_le 1, by simp⟩

theorem accounted_namespaceHead (h : t.isWord "namespace" = true) (use : String × Bool → UnitStep) :
    Accounted t ts (ofReading c (Reading.namespaceHead stop ts) use) := by
  obtain ⟨name, hts, hlength, hidents⟩ := exists_of_namespaceName ts
  have hkeyword : t.ident? = some "namespace" := by
    rw [Token.ident?, beq_iff_eq.1 h]
  have hname : Passes (t :: ts) (Reading.namespaceName ts).2 := by
    refine ⟨t :: name, by rw [List.cons_append, ← hts], ?_⟩
    refine openBraces_eq_nil_of_forall (List.forall_mem_cons.2
      ⟨Token.not_isPunct_of_ident? hkeyword _, fun u hu => ?_⟩)
    obtain ⟨n, hn⟩ := Option.isSome_iff_exists.1 (hidents u hu)
    exact Token.not_isPunct_of_ident? hn _
  have hcons : ∀ {u after}, (Reading.namespaceName ts).2 = u :: after → ¬ u.isPunct '\x7b' = true →
      Clears (t :: ts) after := fun hrest hu => (hname.trans (hrest ▸ Passes.cons hu)).clears
  unfold Reading.namespaceHead
  dsimp only
  split
  · exact accounted_of_clears (clears_ofReading (.inl rfl))
  · next u after hrest =>
    split
    · next hu =>
      exact accounted_of_clears
        (clears_ofReading (hcons hrest (Token.not_isPunct_of_isPunct hu (by decide))))
    split
    · next hu =>
      intro _ taken htaken
      refine .inr (.inl ⟨u, t, name, ?_, h, hlength, hidents, hu⟩)
      refine List.append_cancel_right (htaken.symm.trans (congrArg (t :: ·) (hts.trans ?_)))
      rw [hrest]
      exact List.append_cons ..
    · next hu => exact accounted_of_clears (clears_ofReading (hcons hrest hu))

theorem accounted_function (h : t.isWord "function" = true) (use : Declaration → UnitStep) :
    Accounted t ts (ofReading c (Reading.function stop c ts) use) := by
  intro hrest taken hts
  have hkeyword : t.ident? = some "function" := by
    rw [Token.ident?, beq_iff_eq.1 h]
  by_cases hnests : nests [] taken = true
  · refine .inl ?_
    obtain ⟨later, rfl, hlater⟩ := exists_cons_of_append hts
      ((ofReading_rest_le ..).trans (Reading.function_rest_le ..))
    obtain ⟨front, back, rfl, hfront, hread, hback⟩ :=
      exists_of_ofReading (Reading.function_rest_suffix ..) hlater hrest
    rw [Reading.nests_ident hkeyword] at hnests
    rw [openBraces_ident hkeyword]
    refine openBraces_eq_nil_append ?_ hback
    refine openBraces_eq_nil_of_balanced ?_ rfl
    exact Reading.balanced_expectName_signature stop (fun hnone => hread hnone.2) hfront
      (nests_of_append hnests)
      fun _ _ => ⟨_, rfl⟩
  · exact .inr (.inr (.function h (Bool.eq_false_iff.2 hnests)))

theorem accounted_classLike (h : ∃ word ∈ classWords, t.isWord word = true) (role : NameRole)
    (content : ClassBody → DeclarationContent) : Accounted t ts
      (ofReading c (Reading.classLike stop c role content ts) fun d => declare c.settled [d]) := by
  intro hrest taken hts
  cases hvalue : (Reading.classLike stop c role content ts).value? with
  | none =>
    refine .inr (.inr (.givenUp h ?_))
    dsimp only
    rw [ofReading, hvalue]
  | some d =>
    obtain ⟨word, hclass, hword⟩ := h
    have hkeyword : t.ident? = some word := by
      rw [Token.ident?, beq_iff_eq.1 hword]
    obtain ⟨later, rfl, hlater⟩ := exists_cons_of_append hts
      ((ofReading_rest_le ..).trans (Reading.classLike_rest_le ..))
    obtain ⟨front, back, rfl, hfront, -, hback⟩ :=
      exists_of_ofReading (Reading.classLike_rest_suffix ..) hlater hrest
    obtain ⟨cut, rfl⟩ := Reading.exists_cut_of_classLike stop hvalue hfront
    rcases cut.openBraces_or_hasLeak with hclosed | hleak
    · rw [openBraces_ident hkeyword, openBraces_eq_nil_append hclosed hback]
      exact .inl rfl
    · exact .inr (.inr (.item ⟨word, hclass, hword⟩ (hleak.append [t] back)))

theorem accounted_ofWord {word : String} (h : t.kind = .ident word) :
    Accounted t ts (ofWord stop c t word ts) := by
  have hword : ∀ {w}, word = w → t.isWord w = true :=
    fun hw => by rw [Token.isWord, h, hw, beq_self_eq_true]
  have hkeyword : ¬ t.isPunct '\x7b' = true :=
    Token.not_isPunct_of_ident? (by rw [Token.ident?, h]) _
  have hclears : ∀ {step : UnitStep}, Clears ts step.rest → Accounted t ts step :=
    fun hstep => accounted_of_clears ((Passes.cons hkeyword).clears.trans hstep)
  have hpass : ∀ c', Accounted t ts (pass c' ts) := fun _ => hclears Passes.rfl.clears
  refine accounted_ite (fun _ => hpass _) (accounted_ite (fun _ => hpass _) ?_)
  refine accounted_ite (fun _ => hpass _) ?_
  refine accounted_ite
    (fun _ => hclears (clears_ofReading (Reading.readsBalanced_moduleDirective ..).clears)) ?_
  refine accounted_ite (fun hnew => hclears (clears_ofReading ?_)) ?_
  · rcases ts with _ | ⟨m, ts⟩
    · simp [Reference.headIs] at hnew
    · have hm : m.isWord "module" = true := (Bool.and_eq_true_iff.1 hnew).2
      have hident : m.ident? = some "module" := by
        rw [Token.ident?, beq_iff_eq.1 hm]
      exact (Passes.cons (Token.not_isPunct_of_ident? hident _)).clears.trans
        (Reading.readsBalanced_moduleDefinition ..).clears
  refine accounted_ite (fun hw => accounted_namespaceHead stop c (hword hw) _) ?_
  refine accounted_ite (fun _ => hclears (clears_ofReading (Reading.clears_skipStatement ts))) ?_
  refine accounted_ite (fun hw => accounted_function stop c (hword hw) _) ?_
  refine accounted_ite
    (fun hw => accounted_classLike stop c ⟨word, List.mem_append_left ["trait"] hw, hword rfl⟩ _ _)
    ?_
  refine accounted_ite
    (fun hw => accounted_classLike stop c ⟨"trait", by decide, hword hw⟩ _ _) ?_
  refine accounted_ite (fun hw => accounted_of_mayLeak fun _ _ => .constants (hword hw)) ?_
  exact hclears (Reading.clears_resume ts)

theorem accounted_ofTokens : Accounted t ts (ofTokens stop c t ts) := by
  unfold ofTokens
  split
  · next word h => exact accounted_ofWord stop c h
  · next h => exact accounted_of_mayLeak fun _ _ => .attributes h
  · next h => exact accounted_of_clears (Passes.cons (by simp [Token.isPunct, h])).clears
  · next h =>
    have hpunct : ¬ t.isPunct '\x7b' = true := by simp [Token.isPunct, h]
    split
    · exact accounted_of_clears (Passes.cons hpunct).clears
    · exact accounted_unexpected c _ _ hpunct
  · by_cases hpunct : t.isPunct '\x7b' = true
    · exact accounted_of_mayLeak fun _ _ => .brace hpunct
    · exact accounted_unexpected c _ _ hpunct

/-! Names of declarations. -/

/-- The token at `name`, behind `front`, names the declaration, at the level at which `front` begins
unless it is a constant. -/
structure NamedBehind (ns : String) (d : Declaration) (front : List Token) (name : Token) :
    Prop where
  span : name.span = d.span
  ident : ∃ n, name.ident? = some n ∧ d.name = Name.qualify ns n
  level : d.content = .constant ∨ openBraces [] front = []

/-- The step takes the names of what it declares. -/
def TakesNames (ns : String) (t : Token) (ts : List Token) (step : UnitStep) : Prop :=
  ∀ taken, t :: ts = taken ++ step.rest → ∀ d ∈ step.declarations, ∃ front name back,
    taken = front ++ name :: back ∧ NamedBehind ns d front name

theorem takesNames_of_nil {ns : String} {step : UnitStep} (h : step.declarations = []) :
    TakesNames ns t ts step := by
  intro taken hts d hd
  rw [h] at hd
  cases hd

theorem takesNames_ite {ns : String} {p : Prop} [Decidable p] {a b : UnitStep}
    (ha : TakesNames ns t ts a)
    (hb : TakesNames ns t ts b) : TakesNames ns t ts (if p then a else b) := by
  split
  · exact ha
  · exact hb

theorem declarations_ofReading {α : Type} {r : Reading α} {use : α → UnitStep} {d : Declaration}
    (h : d ∈ (ofReading c r use).declarations) :
    (ofReading c r use).rest = r.rest ∧ ∃ a, r.value? = some a ∧ d ∈ (use a).declarations := by
  unfold ofReading at h ⊢
  split at h
  · cases h
  · next a ha =>
    rw [ha]
    exact ⟨rfl, a, rfl, h⟩

/-- A name behind the keyword, as functions, classes and traits have it. -/
theorem takesNames_expectName {word : String} (ht : t.ident? = some word) {role : NameRole}
    {next : String × Span → List Token → Reading Declaration}
    (hrest : ∀ a rest, (next a rest).rest.length ≤ rest.length)
    (hname : ∀ a rest d, (next a rest).value? = some d →
      d.name = Name.qualify c.ns a.1 ∧ d.span = a.2) :
    TakesNames c.ns t ts (ofReading c ((Reading.expectName stop role ts).andThen next)
      fun d => declare c.settled [d]) := by
  intro taken hts d hd
  obtain ⟨heq, e, hvalue, he⟩ := declarations_ofReading c hd
  obtain rfl : d = e := List.mem_singleton.1 he
  rw [heq] at hts
  obtain ⟨a, ha, hread⟩ := Reading.exists_of_andThen hvalue
  obtain ⟨name, hident, hspan, hcons⟩ := Reading.exists_of_expectName stop ha
  rw [Reading.andThen_of_some _ ha] at hts
  have hle := hrest a (Reading.expectName stop role ts).rest
  obtain ⟨hqualified, hplace⟩ := hname _ _ d hread
  generalize (Reading.expectName stop role ts).rest = rest at hcons hts hle
  subst hcons
  obtain ⟨later, rfl, hlater⟩ := exists_cons_of_append hts (Nat.le_succ_of_le hle)
  obtain ⟨back, rfl, -⟩ := exists_cons_of_append hlater hle
  refine ⟨[t], name, back, rfl, hspan.trans hplace.symm, ⟨a.1, hident, hqualified⟩, .inr ?_⟩
  rw [openBraces_ident ht, openBraces]

theorem exists_of_upToSemicolon {ts statement : List Token}
    (h : (Reading.upToSemicolon stop ts).value? = some statement) :
    ∃ semicolon, ts = statement ++ semicolon :: (Reading.upToSemicolon stop ts).rest := by
  induction ts generalizing statement with
  | nil => cases h
  | cons t ts ih =>
    rw [Reading.upToSemicolon] at h ⊢
    split at h
    · next ht =>
      cases h
      exact ⟨t, by rw [if_pos ht]; rfl⟩
    · next ht =>
      obtain ⟨later, hlater, rfl⟩ := Option.map_eq_some_iff.1 h
      obtain ⟨semicolon, heq⟩ := ih hlater
      rw [if_neg ht]
      exact ⟨semicolon, congrArg (t :: ·) heq⟩

theorem takesNames_constants : TakesNames c.ns t ts
    (ofReading c (Reading.constants stop c ts) (declare c.settled)) := by
  intro taken hts d hd
  obtain ⟨heq, ds, hvalue, hd⟩ := declarations_ofReading c hd
  rw [heq] at hts
  obtain ⟨statement, hstatement, rfl⟩ := Option.map_eq_some_iff.1 hvalue
  obtain ⟨declarator, hdeclarator, rfl⟩ := List.mem_map.1 hd
  obtain ⟨name, hmem, hident, hspan⟩ := Declarator.exists_token_of_mem_constants hdeclarator
  obtain ⟨front, back, rfl⟩ := List.append_of_mem hmem
  obtain ⟨semicolon, heq⟩ := exists_of_upToSemicolon stop hstatement
  refine ⟨t :: front, name, back ++ [semicolon], List.append_cancel_right (hts.symm.trans ?_),
    hspan.symm, ⟨declarator.name, hident, rfl⟩, .inl rfl⟩
  exact (congrArg (t :: ·) heq).trans (by simp [Reading.constants])

theorem takesNames_function {word : String} (ht : t.ident? = some word) : TakesNames c.ns t ts
    (ofReading c (Reading.function stop c ts) fun d => declare c.settled [d]) := by
  refine takesNames_expectName stop c ht (fun _ rest => Reading.signature_rest_le stop 0 rest) ?_
  intro a rest d hd
  obtain ⟨body, -, rfl⟩ := Option.map_eq_some_iff.1 hd
  exact ⟨rfl, rfl⟩

theorem takesNames_classLike {word : String} (ht : t.ident? = some word) (role : NameRole)
    (content : ClassBody → DeclarationContent) : TakesNames c.ns t ts
      (ofReading c (Reading.classLike stop c role content ts) fun d => declare c.settled [d]) := by
  refine takesNames_expectName stop c ht (fun _ rest => Reading.classBody_rest_le stop c.ns rest) ?_
  intro a rest d hd
  obtain ⟨body, -, rfl⟩ := Option.map_eq_some_iff.1 hd
  exact ⟨rfl, rfl⟩

theorem takesNames_ofTokens : TakesNames c.ns t ts (ofTokens stop c t ts) := by
  have hread : ∀ {α : Type} (r : Reading α) (use : α → UnitStep), (∀ a, (use a).declarations = []) →
      TakesNames c.ns t ts (ofReading c r use) := by
    intro α r use huse
    refine takesNames_of_nil (List.eq_nil_iff_forall_not_mem.2 fun d hd => ?_)
    obtain ⟨-, a, -, hd⟩ := declarations_ofReading c hd
    rw [huse] at hd
    cases hd
  have hpass : ∀ c', TakesNames c.ns t ts (pass c' ts) := fun _ => takesNames_of_nil rfl
  unfold ofTokens
  split
  · next word h =>
    have ht : t.ident? = some word := by
      rw [Token.ident?, h]
    have hjoin : ∀ mention, (join c t.span mention).declarations = [] := by
      intro mention
      unfold join
      split <;> rfl
    refine takesNames_ite (hpass _) (takesNames_ite (hpass _) (takesNames_ite (hpass _) ?_))
    refine takesNames_ite (hread _ _ hjoin) (takesNames_ite (hread _ _ fun _ => rfl) ?_)
    refine takesNames_ite (hread _ _ fun _ => rfl) (takesNames_ite (hread _ _ fun _ => rfl) ?_)
    refine takesNames_ite (takesNames_function stop c ht) ?_
    refine takesNames_ite (takesNames_classLike stop c ht _ _) ?_
    refine takesNames_ite (takesNames_classLike stop c ht _ _) ?_
    exact takesNames_ite (takesNames_constants stop c) (takesNames_of_nil rfl)
  · exact hread _ _ fun _ => rfl
  · exact hpass _
  · split
    · exact hpass _
    · exact takesNames_of_nil rfl
  · exact takesNames_of_nil rfl

end UnitStep

/-! Units. -/

variable {stop : Span} {c : UnitContext} {ts : List Token}

theorem constructs_cons (stop : Span) (c : UnitContext) (t : Token) (ts : List Token) :
    ∃ later, t :: ts = t :: later ++ (UnitStep.ofTokens stop c t ts).rest ∧
      constructs stop c (t :: ts) =
      ⟨t :: later, UnitStep.ofTokens stop c t ts⟩ ::
        constructs stop (UnitStep.ofTokens stop c t ts).context
          (UnitStep.ofTokens stop c t ts).rest := by
  obtain ⟨taken, htaken⟩ :=
    (UnitStep.readsIn_ofTokens stop c t ts).rest.trans (List.suffix_cons t ts)
  obtain ⟨later, rfl, -⟩ :=
    exists_cons_of_append htaken.symm (UnitStep.ofTokens_rest_le stop c t ts)
  refine ⟨later, htaken.symm, ?_⟩
  have hlength := congrArg List.length htaken
  rw [List.length_append, List.length_cons] at hlength
  have htake : (t :: ts).take (ts.length + 1 - (UnitStep.ofTokens stop c t ts).rest.length) =
      t :: later := by
    rw [← List.length_cons, ← hlength, Nat.add_sub_cancel, ← htaken]
    exact List.take_left' rfl
  rw [constructs, htake]

theorem flatMap_tokens_constructs (stop : Span) (c : UnitContext) (ts : List Token) :
    (constructs stop c ts).flatMap Construct.tokens = ts := by
  fun_induction constructs stop c ts with
  | case1 => rfl
  | case2 c t ts step ih =>
    obtain ⟨later, hts, heq⟩ := constructs_cons stop c t ts
    rw [constructs] at heq
    rw [List.flatMap_cons, ih, (List.cons.inj heq).1]
    exact hts.symm

theorem declarations_constructs (stop : Span) (c : UnitContext) (ts : List Token) :
    (constructs stop c ts).flatMap (·.step.declarations) =
      (readUnit stop c ts).unit.declarations := by
  fun_induction readUnit stop c ts with
  | case1 => rw [constructs, List.flatMap_nil]
  | case2 c t ts step later ih => rw [constructs, List.flatMap_cons, ih]

/-- Every construct is a step from some context. -/
theorem exists_of_constructs {before after : List Construct} {k : Construct}
    (h : constructs stop c ts = before ++ k :: after) : ∃ c' t later ts',
      t :: ts' = t :: later ++ (UnitStep.ofTokens stop c' t ts').rest ∧
        k = ⟨t :: later, UnitStep.ofTokens stop c' t ts'⟩ := by
  induction before generalizing c ts with
  | nil =>
    cases ts with
    | nil => rw [constructs] at h; cases h
    | cons t ts =>
      obtain ⟨later, hts, heq⟩ := constructs_cons stop c t ts
      exact ⟨c, t, later, ts, hts, (List.cons.inj (h.symm.trans heq)).1⟩
  | cons b before ih =>
    cases ts with
    | nil => rw [constructs] at h; cases h
    | cons t ts =>
      obtain ⟨later, -, heq⟩ := constructs_cons stop c t ts
      exact ih (List.cons.inj (heq.symm.trans h)).2

theorem eq_of_opensNamespace {tokens : List Token} {brace opened : Token}
    (h : OpensNamespace tokens brace) (hopened : opened ∈ openBraces [] tokens) :
    opened = brace := by
  obtain ⟨keyword, name, rfl, hkeyword, -, hidents, hbrace⟩ := h
  have hclosed : openBraces [] (keyword :: name) = [] := by
    refine openBraces_eq_nil_of_forall (List.forall_mem_cons.2 ⟨?_, fun u hu => ?_⟩)
    · rw [Token.isPunct, beq_iff_eq.1 hkeyword]
      exact Bool.false_ne_true
    · obtain ⟨n, hn⟩ := Option.isSome_iff_exists.1 (hidents u hu)
      exact Token.not_isPunct_of_ident? hn _
  rw [← List.cons_append, openBraces_append, hclosed, openBraces_open hbrace] at hopened
  exact List.mem_singleton.1 hopened

/-- Before a construct, only those leave braces open that may. -/
theorem leaks_of_constructs {before after : List Construct} {k : Construct}
    (h : constructs stop c ts = before ++ k :: after) :
    ∀ b ∈ before, ∀ brace ∈ openBraces [] b.tokens,
      OpensNamespace b.tokens brace ∨ b.Leaks := by
  induction before generalizing c ts with
  | nil => exact fun b hb => nomatch hb
  | cons b before ih =>
    cases ts with
    | nil => rw [constructs] at h; cases h
    | cons t ts =>
      obtain ⟨later, hts, heq⟩ := constructs_cons stop c t ts
      obtain ⟨hb, hlater⟩ := List.cons.inj (heq.symm.trans h)
      have hrest : (UnitStep.ofTokens stop c t ts).rest ≠ [] := by
        intro hnil
        rw [hnil, constructs] at hlater
        cases before <;> cases hlater
      refine List.forall_mem_cons.2 ⟨fun brace hbrace => ?_, ih hlater⟩
      subst hb
      rcases UnitStep.accounted_ofTokens stop c hrest (t :: later) hts with
        hclosed | ⟨opened, hopens⟩ | hleak
      · rw [hclosed] at hbrace
        cases hbrace
      · exact .inl (eq_of_opensNamespace hopens hbrace ▸ hopens)
      · exact .inr ⟨List.ne_nil_of_mem hbrace, t, later, rfl, hleak⟩

/-- What is open behind constructs, one of them leaves open. -/
theorem mem_openBraces_flatMap {ks : List Construct} {brace : Token}
    (h : brace ∈ openBraces [] (ks.flatMap Construct.tokens)) :
    ∃ k ∈ ks, brace ∈ openBraces [] k.tokens := by
  induction ks with
  | nil => cases h
  | cons k ks ih =>
    rw [List.flatMap_cons, openBraces_append] at h
    rcases mem_openBraces h with hlater | hhere
    · obtain ⟨b, hb, hbrace⟩ := ih hlater
      exact ⟨b, List.mem_cons_of_mem k hb, hbrace⟩
    · exact ⟨k, List.mem_cons_self, hhere⟩

/-- A unit that is read as these constructs. Each brace around the name of a declaration is that of
a namespace block, or one that a construct before the declaration's leaves open; a constant can also
stand inside a brace of its own statement. -/
structure ReadAs (ks : List Construct) (tokens : List Token) (declarations : List Declaration) :
    Prop where
  tokens : ks.flatMap Construct.tokens = tokens
  declarations : ks.flatMap (·.step.declarations) = declarations
  names : ∀ before k after, ks = before ++ k :: after → ∀ d ∈ k.step.declarations,
    ∃ ns front name back, k.tokens = front ++ name :: back ∧ UnitStep.NamedBehind ns d front name ∧
      ∀ brace ∈ openBraces [] (before.flatMap Construct.tokens ++ front),
        d.content = .constant ∧ brace ∈ front ∨
          ∃ b ∈ before, brace ∈ openBraces [] b.tokens ∧ (OpensNamespace b.tokens brace ∨ b.Leaks)

theorem readAs_constructs (file : SourceFile) :
    let tokens := (tokenize file.text).tokens
    ReadAs (constructs (endSpan tokens) .start tokens) tokens
      (parseUnit file).unit.declarations where
  tokens := flatMap_tokens_constructs ..
  declarations := declarations_constructs ..
  names before k after h d hd := by
    obtain ⟨c, t, later, ts, hts, rfl⟩ := exists_of_constructs h
    obtain ⟨front, name, back, htaken, hname⟩ := UnitStep.takesNames_ofTokens _ c _ hts d hd
    refine ⟨c.ns, front, name, back, htaken, hname, fun brace hbrace => ?_⟩
    rw [openBraces_append] at hbrace
    rcases mem_openBraces hbrace with hfront | hbefore
    · rcases hname.level with hconstant | hclosed
      · exact .inl ⟨hconstant, (mem_of_mem_openBraces hfront).resolve_left (List.not_mem_nil)⟩
      · rw [hclosed] at hfront
        cases hfront
    · obtain ⟨b, hb, hopen⟩ := mem_openBraces_flatMap hbefore
      exact .inr ⟨b, hb, hopen, leaks_of_constructs h b hb brace hopen⟩

/-- The name of the declaration is a token inside no braces but those of namespace blocks. -/
def NameOutside (tokens : List Token) (d : Declaration) : Prop :=
  ∃ front name back, tokens = front ++ name :: back ∧ name.span = d.span ∧
    ∀ brace ∈ openBraces [] front, ∃ before head after, front = before ++ head ++ after ∧
      OpensNamespace head brace

theorem ReadAs.nameOutside {ks : List Construct} {tokens : List Token}
    {declarations : List Declaration}
    (h : ReadAs ks tokens declarations) (hleaks : ∀ k ∈ ks, ¬ k.Leaks) {d : Declaration}
    (hd : d ∈ declarations) (hconstant : d.content ≠ .constant) : NameOutside tokens d := by
  rw [← h.declarations] at hd
  obtain ⟨k, hk, hdeclared⟩ := List.mem_flatMap.1 hd
  obtain ⟨before, after, rfl⟩ := List.append_of_mem hk
  obtain ⟨ns, front, name, back, htokens, hname, hbraces⟩ := h.names before k after rfl d hdeclared
  refine ⟨before.flatMap Construct.tokens ++ front, name,
    back ++ after.flatMap Construct.tokens, ?_,
    hname.span, fun brace hbrace => ?_⟩
  · rw [← h.tokens, List.flatMap_append, List.flatMap_cons, htokens]
    simp
  obtain ⟨b, hb, -, hopens⟩ := (hbraces brace hbrace).resolve_left fun hown => hconstant hown.1
  obtain ⟨outer, inner, rfl⟩ := List.append_of_mem hb
  refine ⟨outer.flatMap Construct.tokens, b.tokens,
    inner.flatMap Construct.tokens ++ front, by simp, ?_⟩
  exact hopens.resolve_right (hleaks b (by simp))

/-- The braces around the names that a unit declares are those of namespace blocks and those that a
construct before leaves open. -/
theorem readAs_parseUnit (file : SourceFile) :
    let tokens := (tokenize file.text).tokens
    let ks := constructs (endSpan tokens) .start tokens
    ReadAs ks tokens (parseUnit file).unit.declarations ∧
      ((∀ k ∈ ks, ¬ k.Leaks) → ∀ d ∈ (parseUnit file).unit.declarations, d.content ≠ .constant →
        NameOutside tokens d) :=
  ⟨readAs_constructs file, fun hleaks _ hd => (readAs_constructs file).nameOutside hleaks hd⟩

/-- A token is told by its place. -/
theorem eq_takeWhile_of_tokenize {source : String} {front back : List Token} {name : Token}
    (h : (tokenize source).tokens = front ++ name :: back) :
    front = (tokenize source).tokens.takeWhile (·.span.lo < name.span.lo) := by
  have hpairwise : (tokenize source).tokens.Pairwise fun a b => a.span.lo < b.span.lo :=
    TokenStream.pairwise_tokens (fun _ => Lexeme.byteSize_pos_of_mem_split) 0
  rw [h] at hpairwise ⊢
  have hfront := (List.pairwise_append.1 hpairwise).2.2
  rw [List.takeWhile_append_of_pos fun u hu => decide_eq_true (hfront u hu name List.mem_cons_self),
    List.takeWhile_cons_of_neg (by simp), List.append_nil]

/-- Behind a method without a name the class body is given up, and the next method is declared by
the unit. -/
theorem not_nameOutside_method :
    let file : SourceFile :=
      ⟨"a.php", "<?hh\nclass C \x7b\n  public function;\n  function m(): void \x7b\x7d\n\x7d\n"⟩
    let tokens := (tokenize file.text).tokens
    balanced 0 tokens = true ∧ ∃ d ∈ (parseUnit file).unit.declarations,
      d.content = .function [] ∧ ¬ NameOutside tokens d := by
  intro file tokens
  have hnamespace : ∀ t ∈ tokens, t.isWord "namespace" = false := by decide +kernel
  have hfront : openBraces [] (tokens.takeWhile (·.span.lo < 45)) =
      [⟨.punct '\x7b', ⟨13, 14⟩⟩] := by
    decide +kernel
  have hdeclared : (parseUnit file).unit.declarations =
      [⟨"m", .public, ⟨45, 46⟩, .function []⟩] := by
    decide +kernel
  refine ⟨by decide +kernel, _, hdeclared ▸ List.mem_cons_self, rfl, ?_⟩
  rintro ⟨front, name, back, htokens, hspan, hbraces⟩
  have htake := eq_takeWhile_of_tokenize htokens
  rw [hspan] at htake
  rw [← htake] at hfront
  obtain ⟨before, head, after, rfl, keyword, block, rfl, hkeyword, -⟩ :=
    hbraces _ (hfront ▸ List.mem_cons_self)
  have hmem : keyword ∈ tokens := by
    rw [htokens]
    simp
  rw [hnamespace keyword hmem] at hkeyword
  cases hkeyword

end ModuleVisibility
