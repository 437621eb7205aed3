import ModuleVisibility.Proofs.Recovery
import ModuleVisibility.Proofs.FailedReading

/-!
What a namespace block scopes. The head of the block puts the namespace around it on a stack, and a
brace that is read as a construct of its own takes it back from there. So the block ends at its
brace if what is read in it takes balanced tokens, and then what stands behind is read as if it
stood alone. A construct that is given up may go on past the brace, and so may those that do not
count braces; then the namespace goes on behind its block.
-/
namespace ModuleVisibility

open Reading (HasBroken exists_cons_of_append nests_ident)

/-- The words that begin a statement that is passed over. -/
def statementWords : List String :=
  ["use", "require", "require_once", "include", "include_once", "enum", "type", "newtype"]

/-- Why a construct that begins with `t` may close braces that it does not open, or leave some
open. -/
inductive Construct.MayBreak (k : Construct) (t : Token) : Prop
  /-- Reading goes on where a declaration can start, with no count of the braces around. -/
  | givenUp (herrors : k.step.errors ≠ []) (hnone : k.step.declarations = [])
  | attributes (h : t.kind = .attrOpen)
  /-- A statement without an end goes on to the next semicolon or block. -/
  | statement (h : ∃ word ∈ statementWords, t.isWord word = true)
  | constants (h : t.isWord "const" = true)
  | function (h : t.isWord "function" = true) (hnests : nests [] k.tokens = false)
  | item (h : ∃ word ∈ classWords, t.isWord word = true) (hbroken : HasBroken k.tokens)

/-- A construct that takes unbalanced tokens, but for the head of a namespace block and its
brace. -/
def Construct.Breaks (k : Construct) : Prop :=
  balanced 0 k.tokens = false ∧ ∃ t later, k.tokens = t :: later ∧ k.MayBreak t

namespace UnitStep

/-- What a step from a context does to the namespaces around. -/
inductive Scoped (c : UnitContext) (t : Token) (taken : List Token) (step : UnitStep) : Prop
  /-- It begins a block of its own. -/
  | opens (brace : Token) (h : OpensNamespace taken brace)
    (houter : step.context.outer = c.ns :: c.outer)
  /-- It ends the block at hand. -/
  | closes (ns : String) (outer : List String) (h : t.isPunct '\x7d' = true) (htaken : taken = [t])
    (hc : c.outer = ns :: outer)
    (hcontext : step.context = { c.settled with ns := ns, outer := outer })
  /-- It keeps them. -/
  | keeps (houter : step.context.outer = c.outer)
    (h : balanced 0 taken = true ∨ Construct.MayBreak ⟨taken, step⟩ t)

/-- So it is with whatever the step takes. -/
def ScopedStep (c : UnitContext) (t : Token) (ts : List Token) (step : UnitStep) : Prop :=
  ∀ taken, t :: ts = taken ++ step.rest → Scoped c t taken step

section

variable {c : UnitContext} {t : Token} {ts : List Token}

theorem scopedStep_ite {p : Prop} [Decidable p] {a b : UnitStep} (ha : p → ScopedStep c t ts a)
    (hb : ScopedStep c t ts b) : ScopedStep c t ts (if p then a else b) := by
  split
  · next h => exact ha h
  · exact hb

theorem scopedStep_of_balances {step : UnitStep} (houter : step.context.outer = c.outer)
    (h : Balances (t :: ts) step.rest) : ScopedStep c t ts step :=
  fun _ hts => .keeps houter (.inl (h.balanced hts))

theorem scopedStep_unexpected (fault : SyntaxFault) (span : Span) :
    ScopedStep c t ts (unexpected c fault span ts) :=
  fun _ _ => .keeps rfl (.inr (.givenUp (List.cons_ne_nil _ _) rfl))

/-- A reading that fails is given up with an error, so only what a success takes matters. -/
theorem scopedStep_ofReading {α : Type} {r : Reading α} {use : α → UnitStep}
    (hexplains : r.Explains)
    (h : ∀ a, r.value? = some a → (use a).context.outer = c.outer ∧
      ∀ taken, t :: ts = taken ++ r.rest →
      balanced 0 taken = true ∨ Construct.MayBreak ⟨taken, ofReading c r use⟩ t) :
    ScopedStep c t ts (ofReading c r use) := by
  intro taken hts
  cases hvalue : r.value? with
  | none =>
    refine .keeps ?_ (.inr (.givenUp ?_ ?_)) <;> simp only [ofReading, hvalue]
    · rfl
    · exact hexplains.errors hvalue
  | some a =>
    obtain ⟨houter, htaken⟩ := h a hvalue
    have hrest : (ofReading c r use).rest = r.rest := by
      simp only [ofReading, hvalue]
    refine .keeps ?_ (htaken taken (hrest ▸ hts))
    simp only [ofReading, hvalue]
    exact houter

theorem scopedStep_ofReading_balanced {α : Type} {r : Reading α} {use : α → UnitStep}
    (hexplains : r.Explains)
    (houter : ∀ a, (use a).context.outer = c.outer) (h : Reading.ReadsBalanced (t :: ts) r) :
    ScopedStep c t ts (ofReading c r use) :=
  scopedStep_ofReading hexplains fun a ha =>
    ⟨houter a, fun _ hts => .inl ((h.balances ha).balanced hts)⟩

variable (stop : Span)

theorem balances_namespaceName (ts : List Token) : Balances ts (Reading.namespaceName ts).2 := by
  unfold Reading.namespaceName
  split
  · exact .rfl
  · split
    · next name hname => exact .ident hname
    · exact .rfl

theorem scopedStep_namespaceHead (h : t.isWord "namespace" = true) {use : String × Bool → UnitStep}
    (hline : ∀ name, (use (name, false)).context.outer = c.outer)
    (hblock : ∀ name, (use (name, true)).context.outer = c.ns :: c.outer) :
    ScopedStep c t ts (ofReading c (Reading.namespaceHead stop ts) use) := by
  obtain ⟨name, hts, hlength, hidents⟩ := exists_of_namespaceName ts
  have hkeyword : t.ident? = some "namespace" := by
    rw [Token.ident?, beq_iff_eq.1 h]
  have hname : Balances (t :: ts) (Reading.namespaceName ts).2 :=
    (Balances.ident hkeyword).trans (balances_namespaceName ts)
  have hfailure :
      ∀ fault span rest, ScopedStep c t ts (ofReading c (Reading.failure fault span rest) use) := by
    intro fault span rest
    refine scopedStep_ofReading (.failure _ _ _) fun a ha => ?_
    cases ha
  unfold Reading.namespaceHead
  dsimp only
  split
  · exact hfailure _ _ _
  · next u after hrest =>
    split
    · next hu =>
      refine scopedStep_of_balances (hline _) (hname.trans ?_)
      rw [hrest]
      exact .punct hu (by decide) (by decide)
    split
    · next hu =>
      intro taken htaken
      refine .opens u ⟨t, name, ?_, h, hlength, hidents, hu⟩ (hblock _)
      refine List.append_cancel_right (htaken.symm.trans (congrArg (t :: ·) (hts.trans ?_)))
      rw [hrest]
      exact List.append_cons ..
    · exact hfailure _ _ _

theorem scopedStep_function (h : t.isWord "function" = true) : ScopedStep c t ts
    (ofReading c (Reading.function stop c ts) fun d => declare c.settled [d]) := by
  refine scopedStep_ofReading (Reading.explains_function ..) fun d hd => ⟨rfl, fun taken hts => ?_⟩
  have hkeyword : t.ident? = some "function" := by
    rw [Token.ident?, beq_iff_eq.1 h]
  by_cases hnests : nests [] taken = true
  · obtain ⟨later, rfl, hlater⟩ := exists_cons_of_append hts (Reading.function_rest_le ..)
    rw [nests_ident hkeyword] at hnests
    rw [balanced_ident hkeyword]
    refine .inl (Reading.balanced_expectName_signature stop (Reading.not_runsOut hd)
      hlater hnests ?_)
    exact fun _ _ => ⟨_, rfl⟩
  · exact .inr (.function h (Bool.eq_false_iff.2 hnests))

theorem scopedStep_classLike (h : ∃ word ∈ classWords, t.isWord word = true) (role : NameRole)
    (content : ClassBody → DeclarationContent) : ScopedStep c t ts
      (ofReading c (Reading.classLike stop c role content ts) fun d => declare c.settled [d]) := by
  refine scopedStep_ofReading (Reading.explains_classLike ..) fun d hd => ⟨rfl, fun taken hts => ?_⟩
  obtain ⟨word, hclass, hword⟩ := h
  have hkeyword : t.ident? = some word := by
    rw [Token.ident?, beq_iff_eq.1 hword]
  obtain ⟨later, rfl, hlater⟩ := exists_cons_of_append hts (Reading.classLike_rest_le ..)
  obtain ⟨cut, rfl⟩ := Reading.exists_cut_of_classLike stop hd hlater
  refine cut.balanced_or_hasBroken.imp (fun hclosed => ?_) fun hbroken => ?_
  · rw [balanced_ident hkeyword, hclosed]
  · exact .item ⟨word, hclass, hword⟩ (by simpa using hbroken.append [t] [])

theorem scopedStep_ofWord {word : String} (h : t.kind = .ident word) :
    ScopedStep c t ts (ofWord stop c t word ts) := by
  have hword : ∀ {w}, word = w → t.isWord w = true :=
    fun hw => by rw [Token.isWord, h, hw, beq_self_eq_true]
  have hident : t.ident? = some word := by
    rw [Token.ident?, h]
  have hpass : ∀ c' : UnitContext, c'.outer = c.outer → ScopedStep c t ts (pass c' ts) :=
    fun _ houter => scopedStep_of_balances houter (.ident hident)
  refine scopedStep_ite (fun _ => hpass _ rfl) (scopedStep_ite (fun _ => hpass _ rfl) ?_)
  refine scopedStep_ite (fun _ => hpass _ rfl) (scopedStep_ite (fun _ => ?_) ?_)
  · refine scopedStep_ofReading_balanced (Reading.explains_moduleDirective ..) (fun mention => ?_)
      ((Reading.readsBalanced_moduleDirective stop ts).behind (.ident hident))
    unfold join
    split <;> rfl
  refine scopedStep_ite (fun hnew => ?_) ?_
  · refine scopedStep_ofReading_balanced (Reading.explains_moduleDefinition ..) (fun _ => rfl) ?_
    rcases ts with _ | ⟨m, ts⟩
    · simp [Reference.headIs] at hnew
    · have hm : m.isWord "module" = true := (Bool.and_eq_true_iff.1 hnew).2
      have hmodule : m.ident? = some "module" := by
        rw [Token.ident?, beq_iff_eq.1 hm]
      exact (Reading.readsBalanced_moduleDefinition stop ts).behind
        ((Balances.ident hident).trans (.ident hmodule))
  refine scopedStep_ite
    (fun hw => scopedStep_namespaceHead stop (hword hw) (fun _ => rfl) fun _ => rfl) ?_
  refine scopedStep_ite (fun hw => ?_) ?_
  · exact scopedStep_ofReading (Reading.explains_skipStatement ts)
      fun _ _ => ⟨rfl, fun _ _ => .inr (.statement ⟨word, hw, hword rfl⟩)⟩
  refine scopedStep_ite (fun hw => scopedStep_function stop (hword hw)) ?_
  refine scopedStep_ite
    (fun hw => scopedStep_classLike stop ⟨word, List.mem_append_left ["trait"] hw, hword rfl⟩ _ _)
    ?_
  refine scopedStep_ite (fun hw => scopedStep_classLike stop ⟨"trait", by decide, hword hw⟩ _ _) ?_
  refine scopedStep_ite (fun hw => ?_) (scopedStep_unexpected _ _)
  exact scopedStep_ofReading (Reading.explains_constants ..)
    fun _ _ => ⟨rfl, fun _ _ => .inr (.constants (hword hw))⟩

theorem scopedStep_ofTokens (c : UnitContext) (t : Token) (ts : List Token) :
    ScopedStep c t ts (ofTokens stop c t ts) := by
  unfold ofTokens
  split
  · next word h => exact scopedStep_ofWord stop h
  · next h =>
    exact scopedStep_ofReading (Reading.explains_attributes ..) fun _ _ =>
      ⟨rfl, fun _ _ => .inr (.attributes h)⟩
  · next h =>
    exact scopedStep_of_balances rfl
      (.punct (c := ';') (by rw [Token.isPunct, h]; rfl) (by decide) (by decide))
  · next h =>
    split
    · next ns outer hc =>
      intro taken hts
      have htaken : [t] = taken := List.append_cancel_right hts
      exact .closes ns outer (by rw [Token.isPunct, h]; rfl) htaken.symm hc rfl
    · exact scopedStep_unexpected _ _
  · exact scopedStep_unexpected _ _

end

end UnitStep

/-! The head of a block and its brace. -/

section

variable {head : List Token} {brace : Token}

theorem OpensNamespace.not_isPunct_close (h : OpensNamespace head brace) :
    ∀ u ∈ head, ¬ u.isPunct '\x7d' = true := by
  obtain ⟨keyword, name, rfl, hkeyword, -, hidents, hbrace⟩ := h
  have hword : keyword.ident? = some "namespace" := by
    rw [Token.ident?, beq_iff_eq.1 hkeyword]
  refine List.forall_mem_cons.2 ⟨Token.not_isPunct_of_ident? hword _, fun u hu => ?_⟩
  rcases List.mem_append.1 hu with hu | hu
  · obtain ⟨n, hn⟩ := Option.isSome_iff_exists.1 (hidents u hu)
    exact Token.not_isPunct_of_ident? hn _
  · obtain rfl := List.mem_singleton.1 hu
    exact Token.not_isPunct_of_isPunct hbrace (by decide)

theorem OpensNamespace.balanced_append (h : OpensNamespace head brace) (d : Nat) (ts : List Token) :
    balanced d (head ++ ts) = balanced (d + 1) ts := by
  obtain ⟨keyword, name, rfl, hkeyword, -, hidents, hbrace⟩ := h
  have hword : keyword.ident? = some "namespace" := by
    rw [Token.ident?, beq_iff_eq.1 hkeyword]
  rw [List.cons_append, balanced_ident hword, List.append_assoc]
  induction name with
  | nil => exact balanced_open hbrace d ts
  | cons u name ih =>
    obtain ⟨hu, hidents⟩ := List.forall_mem_cons.1 hidents
    obtain ⟨n, hn⟩ := Option.isSome_iff_exists.1 hu
    rw [List.cons_append, balanced_ident hn]
    exact ih hidents

end

/-! What is read in a block. -/

section

variable {stop : Span} {c : UnitContext} {t close : Token} {taken inside behind : List Token}
  {step : UnitStep}
  {names outer : List String} {ns : String}

/-- A step in a block stays in it, and as many namespaces wait behind it as it leaves braces
open. -/
theorem UnitStep.Scoped.exists_names (h : Scoped c t taken step)
    (hclose : close.isPunct '\x7d' = true)
    (hsound : ¬ Construct.Breaks ⟨taken, step⟩) (htaken : ∃ later, taken = t :: later)
    (hinside : balanced names.length inside = true) (hne : inside ≠ [])
    (hc : c.outer = names ++ ns :: outer)
    (hts : inside ++ close :: behind = taken ++ step.rest) :
    ∃ inside' names', inside = taken ++ inside' ∧
      step.rest = inside' ++ close :: behind ∧ balanced names'.length inside' = true ∧
        step.context.outer = names' ++ ns :: outer := by
  cases h with
  | opens brace hopens houter =>
    obtain ⟨inside', rfl, hrest⟩ := exists_of_append_cons hts fun more heq =>
      hopens.not_isPunct_close close (by rw [heq]; simp) hclose
    exact ⟨inside', c.ns :: names, rfl, hrest, (hopens.balanced_append _ _).symm.trans hinside,
      by rw [houter, hc]; rfl⟩
  | closes ns' outer' hbrace hone hc' hcontext =>
    obtain ⟨u, inside', rfl⟩ := List.exists_cons_of_ne_nil hne
    subst hone
    obtain ⟨rfl, hrest⟩ := List.cons.inj hts
    rw [balanced_close hbrace, Bool.and_eq_true, bne_iff_ne] at hinside
    obtain ⟨name, names, rfl⟩ :=
      List.exists_cons_of_ne_nil (List.length_pos_iff.1 (Nat.pos_of_ne_zero hinside.1))
    rw [List.cons_append] at hc
    obtain ⟨-, houter⟩ := List.cons.inj (hc'.symm.trans hc)
    exact ⟨inside', names, rfl, hrest.symm, hinside.2, by rw [hcontext, ← houter]⟩
  | keeps houter hkept =>
    have hbalanced : balanced 0 taken = true := by
      refine hkept.elim id fun hbreak => ?_
      by_contra hbroken
      obtain ⟨later, rfl⟩ := htaken
      exact hsound ⟨Bool.eq_false_iff.2 hbroken, t, later, rfl, hbreak⟩
    obtain ⟨inside', rfl, hrest, hlater⟩ := exists_of_balanced hinside hclose hts hbalanced
    exact ⟨inside', names, rfl, hrest, hlater, houter.trans hc⟩

/-- The constructs that begin in the next `n` tokens. -/
def beginningIn : Nat → List Construct → List Construct
  | _, [] => []
  | n, k :: ks => if n = 0 then [] else k :: beginningIn (n - k.tokens.length) ks

/-- If no construct in a block breaks, the brace of the block is read behind them. -/
theorem exists_of_sound (hclose : close.isPunct '\x7d' = true) (names : List String)
    (hinside : balanced names.length inside = true) (hc : c.outer = names ++ ns :: outer)
    (hsound : ∀ k ∈ beginningIn inside.length (constructs stop c
      (inside ++ close :: behind)), ¬ k.Breaks) :
    ∃ ks c', ks.flatMap Construct.tokens = inside ∧ c'.outer = ns :: outer ∧
      constructs stop c (inside ++ close :: behind) =
        ks ++ constructs stop c' (close :: behind) := by
  -- The step lemma takes the first construct off; what is left of the block is shorter.
  induction hlength : inside.length using Nat.strong_induction_on generalizing inside c names with
  | h n ih =>
    cases inside with
    | nil =>
      obtain rfl : names = [] := List.length_eq_zero_iff.1 (beq_iff_eq.1 hinside)
      exact ⟨[], c, rfl, hc, rfl⟩
    | cons t inside =>
      obtain ⟨later, hts, hks⟩ := constructs_cons stop c t (inside ++ close :: behind)
      rw [List.cons_append, hks, List.length_cons, beginningIn, if_neg (Nat.succ_ne_zero _),
        List.forall_mem_cons] at hsound
      obtain ⟨inside', names', hinside', hrest, hbalanced, houter⟩ :=
        (UnitStep.scopedStep_ofTokens stop c t _ _ hts).exists_names hclose hsound.1
          ⟨later, rfl⟩ hinside
          (List.cons_ne_nil _ _) hc hts
      have hsum : n = later.length + 1 + inside'.length := by
        rw [← hlength, hinside', List.length_append, List.length_cons]
      have hleft : inside.length + 1 - (t :: later).length = inside'.length := by
        rw [List.length_cons] at hlength ⊢
        omega
      rw [hrest, hleft] at hsound
      obtain ⟨ks, c', htokens, hc', hconstructs⟩ :=
        ih inside'.length (by omega) names' hbalanced houter hsound.2 rfl
      refine ⟨⟨t :: later, UnitStep.ofTokens stop c t (inside ++ close :: behind)⟩ :: ks,
        c', ?_, hc', ?_⟩
      · rw [List.flatMap_cons, htokens]
        exact hinside'.symm
      · rw [List.cons_append, hks, hrest, hconstructs]
        rfl

end

/-! What stands behind a block. -/

namespace UnitStep

/-- The steps differ at most in the module that is joined, and in what is said about that. -/
structure Alike (a b : UnitStep) : Prop where
  context : ∃ directive, a.context = { b.context with directive := directive }
  declarations : a.declarations = b.declarations
  rest : a.rest = b.rest

section

variable {c : UnitContext} {directive : Option ModuleMention}

theorem Alike.ite {p : Prop} [Decidable p] {a b a' b' : UnitStep} (ha : Alike a a')
    (hb : Alike b b') :
    Alike (if p then a else b) (if p then a' else b') := by
  split
  · exact ha
  · exact hb

theorem alike_pass (ts : List Token) :
    Alike (pass { c with directive := directive } ts) (pass c ts) :=
  ⟨⟨directive, rfl⟩, rfl, rfl⟩

theorem alike_unexpected (fault : SyntaxFault) (span : Span) (ts : List Token) :
    Alike (unexpected { c with directive := directive } fault span ts)
      (unexpected c fault span ts) :=
  ⟨⟨directive, rfl⟩, rfl, rfl⟩

theorem alike_ofReading {α : Type} (r : Reading α) {use use' : α → UnitStep}
    (h : ∀ a, Alike (use' a) (use a)) :
    Alike (ofReading { c with directive := directive } r use') (ofReading c r use) := by
  unfold ofReading
  split
  · exact ⟨⟨directive, rfl⟩, rfl, rfl⟩
  · next a _ => exact ⟨(h a).context, (h a).declarations, rfl⟩

theorem alike_join (keyword : Span) (mention : ModuleMention) :
    Alike (join { c with directive := directive } keyword mention) (join c keyword mention) := by
  unfold join
  refine ⟨?_, ?_, ?_⟩
  · cases directive <;> cases c.directive <;> exact ⟨_, rfl⟩
  all_goals cases directive <;> cases c.directive <;> rfl

theorem alike_ofTokens (stop : Span) (c : UnitContext)
    (directive : Option ModuleMention) (t : Token)
    (ts : List Token) :
    Alike (ofTokens stop { c with directive := directive } t ts) (ofTokens stop c t ts) := by
  have hone : ∀ ds : List Declaration, Alike (declare { c with directive := directive }.settled ds)
      (declare c.settled ds) := fun _ => ⟨⟨directive, rfl⟩, rfl, rfl⟩
  unfold ofTokens
  split
  · next word h =>
    unfold ofWord
    refine .ite ⟨⟨directive, rfl⟩, rfl, rfl⟩
      (.ite ⟨⟨directive, rfl⟩, rfl, rfl⟩ (.ite (alike_pass ts) ?_))
    refine .ite (alike_ofReading _ fun mention => alike_join t.span mention) ?_
    refine .ite (alike_ofReading _ fun mention => ⟨⟨directive, rfl⟩, rfl, rfl⟩) ?_
    refine .ite (alike_ofReading _ fun head => ⟨⟨directive, rfl⟩, rfl, rfl⟩) ?_
    refine .ite (alike_ofReading _ fun _ => ⟨⟨directive, rfl⟩, rfl, rfl⟩) ?_
    refine .ite (alike_ofReading _ fun d => hone [d]) ?_
    refine .ite (alike_ofReading _ fun d => hone [d]) ?_
    refine .ite (alike_ofReading _ fun d => hone [d]) ?_
    exact .ite (alike_ofReading _ hone) (alike_unexpected ..)
  · exact alike_ofReading _ fun found => ⟨⟨directive, rfl⟩, rfl, rfl⟩
  · exact ⟨⟨directive, rfl⟩, rfl, rfl⟩
  · obtain ⟨ns, _ | ⟨above, outer⟩, visibility, isModuleLevel, joined⟩ := c
    · exact alike_unexpected ..
    · exact ⟨⟨directive, rfl⟩, rfl, rfl⟩
  · exact alike_unexpected ..

end

end UnitStep

/-- What is declared does not depend on the module that is joined. -/
theorem declarations_readUnit_directive (stop : Span) (c : UnitContext)
    (directive : Option ModuleMention)
    (ts : List Token) : (readUnit stop { c with directive := directive } ts).unit.declarations =
      (readUnit stop c ts).unit.declarations := by
  fun_induction readUnit stop c ts generalizing directive with
  | case1 => rw [readUnit]
  | case2 c t ts step later ih =>
    obtain ⟨⟨joined, hcontext⟩, hdeclarations, hrest⟩ :=
      UnitStep.alike_ofTokens stop c directive t ts
    rw [readUnit]
    dsimp only
    rw [hdeclarations, hcontext, hrest, ih joined]

section

variable {head inside behind : List Token} {brace close : Token}

/-- What a step takes is its construct. -/
theorem constructs_of_step {stop : Span} {c : UnitContext} {t : Token} {ts taken : List Token}
    {step : UnitStep}
    (hstep : UnitStep.ofTokens stop c t ts = step) (hts : t :: ts = taken ++ step.rest) :
    constructs stop c (taken ++ step.rest) =
      ⟨taken, step⟩ :: constructs stop step.context step.rest := by
  obtain ⟨later, hlater, hks⟩ := constructs_cons stop c t ts
  rw [hstep] at hlater hks
  obtain rfl : taken = t :: later := List.append_cancel_right (hts.symm.trans hlater)
  rw [← hts, hks]

/-- The head of a block is read as one construct, which enters the block. -/
theorem constructs_of_opensNamespace (h : OpensNamespace head brace) (stop : Span) (c : UnitContext)
    (ts : List Token) : ∃ k name, k.tokens = head ∧
      constructs stop c (head ++ ts) =
        k :: constructs stop (UnitStep.enter c name true).context ts := by
  obtain ⟨keyword, words, rfl, hkeyword, hlength, hidents, hbrace⟩ := h
  have hkind : keyword.kind = .ident "namespace" := beq_iff_eq.1 hkeyword
  have hnone : brace.ident? = none := by
    rw [Token.ident?, beq_iff_eq.1 hbrace]
  obtain ⟨name, hname⟩ : ∃ name, Reading.namespaceName (words ++ brace :: ts) =
      (name, brace :: ts) := by
    rcases words with _ | ⟨u, _ | ⟨v, words⟩⟩
    · exact ⟨"", by simp [Reading.namespaceName, hnone]⟩
    · obtain ⟨n, hn⟩ := Option.isSome_iff_exists.1 (hidents u List.mem_cons_self)
      exact ⟨_, by simp [Reading.namespaceName, hn]; rfl⟩
    · simp at hlength
  have hread : Reading.namespaceHead stop (words ++ brace :: ts) =
      Reading.success (name, true) ts := by
    simp only [Reading.namespaceHead, hname]
    rw [if_neg (Token.not_isPunct_of_isPunct hbrace (by decide)), if_pos hbrace]
  have hstep : UnitStep.ofTokens stop c keyword (words ++ brace :: ts) =
      ⟨(UnitStep.enter c name true).context, [], [], [], ts⟩ := by
    simp [UnitStep.ofTokens, hkind, UnitStep.ofWord, hread, UnitStep.ofReading,
      Reading.success, UnitStep.enter, UnitStep.pass]
  exact ⟨⟨keyword :: (words ++ [brace]), _⟩, name, rfl, constructs_of_step hstep (by simp)⟩

/-- A brace takes back the namespace that waits. -/
theorem constructs_of_close (hclose : close.isPunct '\x7d' = true) (stop : Span)
    {c : UnitContext} {ns : String}
    {outer : List String} (hc : c.outer = ns :: outer) (ts : List Token) : ∃ k, k.tokens = [close] ∧
      constructs stop c (close :: ts) =
        k :: constructs stop { c.settled with ns := ns, outer := outer } ts := by
  have hstep : UnitStep.ofTokens stop c close ts =
      UnitStep.pass { c.settled with ns := ns, outer := outer } ts := by
    simp [UnitStep.ofTokens, beq_iff_eq.1 hclose, hc]
  have htaken : close :: ts = [close] ++ ts := rfl
  exact ⟨⟨[close], _⟩, rfl, constructs_of_step hstep htaken⟩

/-- A block whose constructs do not break is read up to its brace, and what stands behind in the
namespaces that were there before it. -/
theorem exists_of_block (hhead : OpensNamespace head brace) (hinside : balanced 0 inside = true)
    (hclose : close.isPunct '\x7d' = true) {stop : Span} {c : UnitContext}
    (hsound : ∀ k ∈ beginningIn (head ++ inside).length
      (constructs stop c (head ++ inside ++ close :: behind)),
      ¬ k.Breaks) : ∃ kept directive, kept.flatMap Construct.tokens = head ++ inside ++ [close] ∧
        constructs stop c (head ++ inside ++ close :: behind) =
          kept ++ constructs stop { c.settled with directive := directive } behind := by
  obtain ⟨first, name, hfirst, hks⟩ :=
    constructs_of_opensNamespace hhead stop c (inside ++ close :: behind)
  have hne : (head ++ inside).length ≠ 0 := by
    obtain ⟨keyword, words, rfl, -⟩ := hhead
    simp
  rw [List.append_assoc, hks, beginningIn, if_neg hne, List.forall_mem_cons, hfirst,
    List.length_append, Nat.add_sub_cancel_left] at hsound
  have hentered : (UnitStep.enter c name true).context.outer = [] ++ c.ns :: c.outer := rfl
  obtain ⟨ks, c', htokens, houter, hinner⟩ := exists_of_sound hclose [] hinside hentered hsound.2
  obtain ⟨last, hlast, hbehind⟩ := constructs_of_close hclose stop houter behind
  refine ⟨first :: ks ++ [last], c'.directive, ?_, ?_⟩
  · simp [hfirst, hlast, htokens]
  · rw [List.append_assoc, hks, hinner, hbehind, List.append_assoc]
    rfl

/-- The head of a block does not break. -/
theorem not_breaks_of_opensNamespace {k : Construct} (h : OpensNamespace k.tokens brace)
    (herrors : k.step.errors = []) : ¬ k.Breaks := by
  rintro ⟨-, t, later, htokens, hbreak⟩
  obtain ⟨keyword, words, hhead, hkeyword, -⟩ := h
  obtain rfl : t = keyword := (List.cons.inj (htokens.symm.trans hhead)).1
  have hword : ∀ word, t.isWord word = true → word = "namespace" := by
    intro word hother
    have hkind := (beq_iff_eq.1 hother).symm.trans (beq_iff_eq.1 hkeyword)
    injection hkind
  cases hbreak with
  | givenUp hgiven _ => exact hgiven herrors
  | attributes hkind =>
    rw [beq_iff_eq.1 hkeyword] at hkind
    cases hkind
  | statement hstatement =>
    obtain ⟨word, hmem, hother⟩ := hstatement
    rw [hword word hother] at hmem
    exact absurd hmem (by decide)
  | constants hother => exact absurd (hword _ hother) (by decide)
  | function hother _ => exact absurd (hword _ hother) (by decide)
  | item hclass _ =>
    obtain ⟨word, hmem, hother⟩ := hclass
    rw [hword word hother] at hmem
    exact absurd hmem (by decide)

/-- Where no construct breaks that begins in a namespace block, the constructs of the block take
just the block, and what stands behind it is declared as if it stood alone. -/
theorem declarations_behind_block (hhead : OpensNamespace head brace)
    (hinside : balanced 0 inside = true)
    (hclose : close.isPunct '\x7d' = true) :
    let tokens := head ++ inside ++ close :: behind
    let ks := constructs (endSpan tokens) .start tokens
    (∀ k ∈ beginningIn (head ++ inside).length ks, ¬ k.Breaks) →
      ∃ kept : List Construct, kept <+: ks ∧
      kept.flatMap Construct.tokens = head ++ inside ++ [close] ∧
      (unitOfTokens tokens).unit.declarations =
        kept.flatMap (·.step.declarations) ++ (unitOfTokens behind).unit.declarations := by
  intro tokens ks hsound
  obtain ⟨kept, directive, htokens, hks⟩ := exists_of_block hhead hinside hclose hsound
  refine ⟨kept, ⟨_, hks.symm⟩, htokens, ?_⟩
  rw [unitOfTokens, ← declarations_constructs, hks, List.flatMap_append,
    declarations_constructs, unitOfTokens]
  refine congrArg _ ((declarations_readUnit_directive ..).trans ?_)
  cases behind with
  | nil => rw [readUnit, readUnit]
  | cons t behind =>
    have hstop : endSpan tokens = endSpan (t :: behind) := by
      simp [tokens, endSpan, List.getLast?_append, List.getLast?_cons]
    rw [hstop]
    rfl

end

/-- Tokens whose places do not matter. -/
def unplaced (kinds : List TokenKind) : List Token := kinds.map (⟨·, .origin⟩)

theorem declarations_behind_function :
    let head := unplaced [.ident "namespace", .ident "N", .punct '\x7b']
    let inside := unplaced [.ident "function", .ident "g", .punct '(', .punct ')',
      .punct '\x7b', .punct '\x7d']
    let close : Token := ⟨.punct '\x7d', .origin⟩
    let behind := unplaced [.ident "function", .ident "f", .punct '(', .punct ')', .punct ';']
    let tokens := head ++ inside ++ close :: behind
    (∃ kept : List Construct, kept <+: constructs (endSpan tokens) .start tokens ∧
      kept.flatMap Construct.tokens = head ++ inside ++ [close] ∧
      (unitOfTokens tokens).unit.declarations =
        kept.flatMap (·.step.declarations) ++ (unitOfTokens behind).unit.declarations) ∧
      (unitOfTokens tokens).unit.declarations.map Declaration.name = ["N\\g", "f"] := by
  intro head inside close behind tokens
  have hhead : OpensNamespace head ⟨.punct '\x7b', .origin⟩ :=
    ⟨⟨.ident "namespace", .origin⟩, [⟨.ident "N", .origin⟩],
      rfl, by decide, by decide, by decide, by decide⟩
  refine ⟨declarations_behind_block hhead (by decide) (by decide) fun k hk => ?_, by decide +kernel⟩
  have hks : (beginningIn (head ++ inside).length (constructs (endSpan tokens) .start tokens)).map
      (fun k : Construct => (k.tokens, k.step.errors)) =
      [(head, []), (inside, [])] := by decide +kernel
  have hmem := hks ▸ List.mem_map_of_mem (f := fun k : Construct => (k.tokens, k.step.errors)) hk
  simp only [List.mem_cons, Prod.mk.injEq, List.not_mem_nil, or_false] at hmem
  rcases hmem with ⟨htokens, herrors⟩ | ⟨htokens, -⟩
  · exact not_breaks_of_opensNamespace (htokens ▸ hhead) herrors
  · rintro ⟨hbroken, -⟩
    rw [htokens] at hbroken
    exact absurd hbroken (by decide)

/-- Behind a class without a name the brace of the block is passed over, and the next function is
declared in the namespace of the block. -/
theorem not_scoped_behind_class :
    let file : SourceFile :=
      ⟨"a.php", "<?hh\nnamespace N \x7b\n  class;\n\x7d\nfunction f(): void \x7b\x7d\n"⟩
    ∃ head inside brace close behind, (tokenize file.text).tokens =
      head ++ inside ++ close :: behind ∧
      OpensNamespace head brace ∧ balanced 0 inside = true ∧ close.isPunct '\x7d' = true ∧
        (parseUnit file).unit.declarations.map Declaration.name = ["N\\f"] ∧
          (unitOfTokens behind).unit.declarations.map Declaration.name = ["f"] := by
  intro file
  have htokens : (tokenize file.text).tokens.take 6 =
    [⟨.ident "namespace", ⟨5, 14⟩⟩, ⟨.ident "N", ⟨15, 16⟩⟩,
      ⟨.punct '\x7b', ⟨17, 18⟩⟩, ⟨.ident "class", ⟨21, 26⟩⟩, ⟨.punct ';', ⟨26, 27⟩⟩,
      ⟨.punct '\x7d', ⟨28, 29⟩⟩] := by
    decide +kernel
  refine ⟨[⟨.ident "namespace", ⟨5, 14⟩⟩, ⟨.ident "N", ⟨15, 16⟩⟩, ⟨.punct '\x7b', ⟨17, 18⟩⟩],
    [⟨.ident "class", ⟨21, 26⟩⟩, ⟨.punct ';', ⟨26, 27⟩⟩], ⟨.punct '\x7b', ⟨17, 18⟩⟩,
    ⟨.punct '\x7d', ⟨28, 29⟩⟩,
    (tokenize file.text).tokens.drop 6, ?_, ?_, by decide, by decide, by decide +kernel,
    by decide +kernel⟩
  · exact (List.take_append_drop 6 _).symm.trans
      (congrArg (· ++ (tokenize file.text).tokens.drop 6) htokens)
  · exact ⟨⟨.ident "namespace", ⟨5, 14⟩⟩, [⟨.ident "N", ⟨15, 16⟩⟩],
      rfl, by decide, by decide, by decide, by decide⟩

end ModuleVisibility
