import ModuleVisibility.Proofs.Guarded.Body
import ModuleVisibility.Proofs.Guarded.Lexing

/-!
Units on token indexes: the constructs of the top level, where reading goes on behind a fault, and
the loop over a unit. A construct that cannot be read has still been walked into, or the first token
is passed over, so each round of the loop gets further.
-/
namespace ModuleVisibility
namespace Guarded

/-- One construct of a unit: what it adds, the context behind it and the place of the tokens
left. -/
structure UnitMove where
  context : UnitContext
  definitions : List ModuleMention
  declarations : List Declaration
  errors : List SyntaxError
  pos : Nat

section

variable (tokens : List Token)

/-! Constructs. -/

/-- A module directive behind its keyword. -/
def moduleDirective (pos : Nat) : Walk ModuleMention :=
  (moduleName tokens pos).andThen fun (name, span) next =>
    if punctAt tokens ';' next then .success ⟨name, span⟩ (next + 1)
    else .failure .moduleUnfinished (currentSpan tokens next) next

/-- A module definition behind its two keywords. -/
def moduleDefinition (pos : Nat) : Walk ModuleMention :=
  (moduleName tokens pos).andThen fun (name, span) next =>
    if punctAt tokens '\x7b' next then (block tokens next).map fun _ => ⟨name, span⟩
    else .failure .moduleBodyMissing (currentSpan tokens next) next

/-- The name of a namespace and the place behind it. -/
def namespaceName (pos : Nat) : String × Nat :=
  match tokens[pos]?.bind (·.ident?) with
  | some name => (String.ofList (name.toList.dropWhile (· == Name.separator)), pos + 1)
  | none => ("", pos)

/-- A namespace behind its keyword. -/
def namespaceHead (pos : Nat) : Walk (String × Bool) :=
  let (name, next) := namespaceName tokens pos
  match tokens[next]? with
  | none => .failure .namespaceCutShort (endSpan tokens) next
  | some t =>
    if t.isPunct ';' then .success (name, false) (next + 1)
    else if t.isPunct '\x7b' then .success (name, true) (next + 1)
    else .failure .namespaceUnfinished t.span (next + 1)

/-- A function behind its keyword. -/
def function (c : UnitContext) (pos : Nat) : Walk Declaration :=
  (expectName tokens .function pos).andThen fun (name, span) next =>
    (signature tokens 0 next).use fun body => do
      let references ← referencesIn tokens c.ns body
      return c.declaration name span (.function references)

/-- A class or trait behind its keyword. -/
def classLike (c : UnitContext) (role : NameRole)
    (content : ClassBody → DeclarationContent) (pos : Nat) :
    Walk Declaration :=
  (expectName tokens role pos).andThen fun (name, span) next =>
    (classBody tokens c.ns next).map fun body => c.declaration name span (content body)

/-- The constants of a statement behind its keyword. -/
def constants (c : UnitContext) (pos : Nat) : Walk (List Declaration) :=
  (semicolon tokens pos).use fun stop => do
    let statement ← range tokens pos stop
    return (constantNames statement).map fun (name, span) => c.declaration name span .constant

/-! The loop. -/

/-- The place of the next start of a declaration, where `depth` braces are open; their count stops
at zero. -/
def resume (depth pos : Nat) : Nat :=
  match peek tokens pos with
  | none => pos
  | some ⟨t, _h⟩ =>
    if t.isPunct '\x7b' then resume (depth + 1) (pos + 1)
    else if t.isPunct '\x7d' then resume (depth - 1) (pos + 1)
    else if depth = 0 && Reading.startsDeclaration t then pos
    else resume depth (pos + 1)
termination_by left tokens pos
decreasing_by all_goals exact left_succ_lt _h

/-- The place where reading goes on behind a construct that starts at `start` and was given up at
`pos`. -/
def recover (start pos : Nat) : Nat := resume tokens 0 (if pos = start then pos + 1 else pos)

/-- The move of a step that only passes tokens. -/
def passTo (c : UnitContext) (pos : Nat) : Guarded UnitMove := return ⟨c, [], [], [], pos⟩

/-- The move over a construct that cannot stand here. -/
def unexpected (c : UnitContext) (fault : SyntaxFault) (span : Span) (pos : Nat) :
    Guarded UnitMove :=
  return ⟨c.settled, [], [], [fault.atSpan span], recover tokens pos pos⟩

/-- The move that a walk from `start` makes: what `use` makes of its value, or a new start
elsewhere. -/
def ofWalk {α : Type} (c : UnitContext) (start : Nat) (x : Walk α) (use : α → UnitStep) :
    Guarded UnitMove := do
  let o ← x
  match o.value? with
  | none => return ⟨c.settled, [], [], o.errors, recover tokens start o.pos⟩
  | some a =>
    let step := use a
    return ⟨step.context, step.definitions, step.declarations, o.errors ++ step.errors, o.pos⟩

/-- The construct that starts with the word `word` at the token `t`, whose place is `pos`. -/
def ofWord (c : UnitContext) (t : Token) (word : String) (pos : Nat) : Guarded UnitMove :=
  let one (d : Declaration) : UnitStep := .declare c.settled [d]
  if word = "public" then passTo { c with visibility := some .public } (pos + 1)
  else if word = "internal" then passTo { c with visibility := some .internal } (pos + 1)
  else if word ∈ ["abstract", "final", "async", "xhp"] then passTo c (pos + 1)
  else if word = "module" then ofWalk tokens c pos (moduleDirective tokens (pos + 1))
    (.join c t.span)
  else if word = "new" && tokens[pos + 1]?.any (·.isWord "module") then
    ofWalk tokens c pos (moduleDefinition tokens (pos + 2)) fun mention =>
      ⟨c.settled, [mention], [], [], []⟩
  else if word = "namespace" then
    ofWalk tokens c pos (namespaceHead tokens (pos + 1)) fun (name, isBlock) =>
      .enter c name isBlock
  else if word ∈ ["use", "require", "require_once", "include", "include_once"] then
    ofWalk tokens c pos (skipStatement tokens pos) fun _ => .pass c.settled []
  else if word ∈ ["enum", "type", "newtype"] then
    ofWalk tokens c pos (skipDeclaration tokens pos) fun _ => .pass c.settled []
  else if word = "function" then ofWalk tokens c pos (function tokens c (pos + 1)) one
  else if word ∈ ["class", "interface"] then
    ofWalk tokens c pos (classLike tokens c .class (fun b => .class b.uses b.members) (pos + 1)) one
  else if word = "trait" then
    ofWalk tokens c pos
      (classLike tokens c .trait (fun b => .trait c.isModuleLevel b.uses b.members) (pos + 1)) one
  else if word = "const" then ofWalk tokens c pos (constants tokens c (pos + 1))
    (.declare c.settled)
  else unexpected tokens c (.unexpectedWord word) t.span pos

/-- The construct that starts with the token `t` at the place `pos`. -/
def ofToken (c : UnitContext) (t : Token) (pos : Nat) : Guarded UnitMove :=
  match t.ident? with
  | some word => ofWord tokens c t word pos
  | none =>
    if t.kind = .attrOpen then
      ofWalk tokens c pos (attributes tokens 0 false (pos + 1)) fun found =>
        .pass { c with isModuleLevel := c.isModuleLevel || found } []
    else if t.isPunct ';' then passTo c.settled (pos + 1)
    else if t.isPunct '\x7d' then
      match c.outer with
      | ns :: outer => passTo { c.settled with ns := ns, outer := outer } (pos + 1)
      | [] => unexpected tokens c .unexpectedToken t.span pos
    else unexpected tokens c .unexpectedToken t.span pos

/-- Reads the rest of a unit. -/
def readUnit (c : UnitContext) (pos : Nat) : Guarded UnitReading :=
  match tokens[pos]? with
  | none => return ⟨⟨c.directive, [], []⟩, []⟩
  | some t => do
    let move ← ofToken tokens c t pos
    if _h : left tokens move.pos < left tokens pos then
      let later ← readUnit move.context move.pos
      return ⟨⟨later.unit.directive, move.definitions ++ later.unit.definitions,
          move.declarations ++ later.unit.declarations⟩,
        move.errors ++ later.errors⟩
    else throw .stuck
termination_by left tokens pos

end

/-- Reads a unit from its text. -/
def parseUnit (file : SourceFile) : Guarded ParsedUnit := do
  let stream ← tokenize file.chars
  let read ← readUnit stream.tokens .start 0
  return ⟨file, read.unit, (stream.errors ++ read.errors).mergeSort fun a b => a.span.le b.span⟩

/-- Reads every unit of every file, in order. -/
def parseProgram (files : List SourceFile) : Guarded (List ParsedUnit) :=
  (files.flatMap SourceFile.units).mapM parseUnit

/-! The constructs agree. -/

section

variable {tokens ts : List Token} {t : Token} {pos start : Nat} {α : Type}

theorem agrees_moduleDirective (h : At tokens pos ts) :
    Agrees tokens Eq (moduleDirective tokens pos)
      (Reading.moduleDirective (endSpan tokens) ts) := by
  refine (agrees_moduleName h).andThen fun name name' next hname hnext => ?_
  subst hname
  generalize (Reading.moduleName (endSpan tokens) ts).rest = rest at hnext ⊢
  dsimp only
  rw [punctAt, currentSpan, hnext.getElem?]
  cases rest with
  | nil => exact .failure _ _ hnext
  | cons t rest => exact .ite (fun _ => .success rfl hnext.next) fun _ => .failure _ _ hnext

theorem agrees_moduleDefinition (h : At tokens pos ts) :
    Agrees tokens Eq (moduleDefinition tokens pos)
      (Reading.moduleDefinition (endSpan tokens) ts) := by
  refine (agrees_moduleName h).andThen fun name name' next hname hnext => ?_
  subst hname
  generalize (Reading.moduleName (endSpan tokens) ts).rest = rest at hnext ⊢
  dsimp only
  rw [punctAt, currentSpan, hnext.getElem?]
  cases rest with
  | nil => exact .failure _ _ hnext
  | cons t rest =>
    exact .ite (fun hbrace => (agrees_block hnext hbrace).map fun _ _ _ => rfl) fun _ =>
      .failure _ _ hnext

theorem At.namespaceName (h : At tokens pos ts) :
    (namespaceName tokens pos).1 = (Reading.namespaceName ts).1 ∧
      At tokens (namespaceName tokens pos).2 (Reading.namespaceName ts).2 := by
  unfold Guarded.namespaceName Reading.namespaceName
  rw [h.getElem?]
  cases ts with
  | nil => exact ⟨rfl, h⟩
  | cons t ts =>
    dsimp only [List.head?_cons, Option.bind_some]
    cases t.ident? with
    | none => exact ⟨rfl, h⟩
    | some name => exact ⟨rfl, h.next⟩

theorem agrees_namespaceHead (h : At tokens pos ts) :
    Agrees tokens Eq (namespaceHead tokens pos) (Reading.namespaceHead (endSpan tokens) ts) := by
  obtain ⟨hname, hnext⟩ := h.namespaceName
  unfold namespaceHead Reading.namespaceHead
  dsimp only
  rw [hnext.getElem?, hname]
  generalize (Reading.namespaceName ts).2 = rest at hnext ⊢
  cases rest with
  | nil => exact .failure _ _ hnext
  | cons t rest =>
    exact .ite (fun _ => .success rfl hnext.next) fun _ =>
      .ite (fun _ => .success rfl hnext.next) fun _ => .failure _ _ hnext.next

theorem agrees_function (c : UnitContext) (h : At tokens pos ts) :
    Agrees tokens Eq (function tokens c pos) (Reading.function (endSpan tokens) c ts) := by
  refine (agrees_expectName .function h).andThen fun name name' next hname hnext => ?_
  subst hname
  refine (agrees_signature 0 hnext).use fun found body hbody => ⟨_, ?_, rfl⟩
  rw [hbody.referencesIn]
  rfl

theorem agrees_classLike (happart : Apart tokens) (c : UnitContext) (role : NameRole)
    (content : ClassBody → DeclarationContent) (h : At tokens pos ts) :
    Agrees tokens Eq (classLike tokens c role content pos)
      (Reading.classLike (endSpan tokens) c role content ts) := by
  refine (agrees_expectName role h).andThen fun name name' next hname hnext => ?_
  subst hname
  exact (agrees_classBody happart c.ns hnext).map fun _ _ hbody => by rw [hbody]

theorem agrees_constants (c : UnitContext) (h : At tokens pos ts) :
    Agrees tokens Eq (constants tokens c pos) (Reading.constants (endSpan tokens) c ts) := by
  refine (agrees_semicolon h).use fun stop statement hstatement => ⟨_, ?_, rfl⟩
  rw [hstatement.range, ok_bind, constantNames, List.map_map]
  rfl

/-! The loop agrees. -/

theorem At.resume (depth : Nat) (h : At tokens pos ts) :
    At tokens (resume tokens depth pos) (Reading.resume depth ts) := by
  induction ts generalizing pos depth with
  | nil =>
    rw [Guarded.resume, h.peek_nil]
    exact h
  | cons t ts ih =>
    rw [Guarded.resume, h.peek_cons, Reading.resume]
    dsimp only
    split_ifs
    · exact ih _ h.next
    · exact ih _ h.next
    · exact h
    · exact ih _ h.next

/-- A construct that was given up behind its first token is taken up again where the walk
stopped. -/
theorem At.recover_of_ne (h : At tokens pos ts) (hne : pos ≠ start) :
    At tokens (recover tokens start pos) (Reading.resume 0 ts) := by
  rw [recover, if_neg hne]
  exact h.resume 0

/-- A construct that was given up at its first token is taken up again behind it. -/
theorem At.recover_self (h : At tokens start (t :: ts)) :
    At tokens (recover tokens start start) (Reading.resume 0 ts) := by
  rw [recover, if_pos rfl]
  exact h.next.resume 0

/-- The move meets no trap and does what the step does. -/
def Moves (tokens : List Token) (x : Guarded UnitMove) (step : UnitStep) : Prop :=
  ∃ m, x = .ok m ∧ m.context = step.context ∧ m.definitions = step.definitions ∧
    m.declarations = step.declarations ∧ m.errors = step.errors ∧ At tokens m.pos step.rest

theorem Moves.ite {p : Prop} [Decidable p] {x y : Guarded UnitMove} {step step' : UnitStep}
    (hx : p → Moves tokens x step) (hy : ¬ p → Moves tokens y step') :
    Moves tokens (if p then x else y) (if p then step else step') := by
  split
  · exact hx ‹_›
  · exact hy ‹_›

theorem moves_passTo (c : UnitContext) (h : At tokens pos ts) :
    Moves tokens (passTo c pos) (.pass c ts) :=
  ⟨_, rfl, rfl, rfl, rfl, rfl, h⟩

theorem moves_unexpected (c : UnitContext) (fault : SyntaxFault) (span : Span)
    (h : At tokens pos (t :: ts)) :
    Moves tokens (unexpected tokens c fault span pos) (.unexpected c fault span ts) :=
  ⟨_, rfl, rfl, rfl, rfl, rfl, h.recover_self⟩

/-- A walk that leaves the construct's first token behind makes the move of its reading. -/
theorem moves_ofWalk {x : Walk α} {r : Reading α} (c : UnitContext) (use : α → UnitStep)
    (hstart : At tokens start (t :: ts)) (h : Agrees tokens Eq x r)
      (hrest : r.rest.length ≤ ts.length) :
    Moves tokens (ofWalk tokens c start x use) (.ofReading c r use) := by
  obtain ⟨⟨value?, errors, pos⟩, rfl, hvalue, rfl, hpos⟩ := h
  obtain ⟨value'?, errors', rest⟩ := r
  cases hvalue with
  | none =>
    refine ⟨_, rfl, rfl, rfl, rfl, rfl, hpos.recover_of_ne ?_⟩
    rintro rfl
    obtain rfl : rest = t :: ts := hpos.unique hstart
    exact Nat.not_succ_le_self _ hrest
  | some hsame =>
    subst hsame
    exact ⟨_, rfl, rfl, rfl, rfl, rfl, hpos⟩

/-- A statement is passed over alike from its keyword and from behind it. -/
theorem skipStatement_of_ident? {word : String} (ht : t.ident? = some word) :
    Reading.skipStatement (t :: ts) = Reading.skipStatement ts := by
  rw [Reading.skipStatement, if_neg (Token.not_isPunct_of_ident? ht _),
    if_neg (Token.not_isPunct_of_ident? ht _)]

theorem moves_ofWord (happart : Apart tokens) (c : UnitContext) {word : String}
    (ht : t.ident? = some word)
    (h : At tokens pos (t :: ts)) :
    Moves tokens (ofWord tokens c t word pos) (.ofWord (endSpan tokens) c t word ts) := by
  have hmodule : tokens[pos + 1]?.any (·.isWord "module") =
      Reference.headIs (·.isWord "module") ts := by
    rw [h.next.getElem?]
    rfl
  have hstatement := agrees_skipStatement h
  have hdeclaration := agrees_skipDeclaration h
  rw [skipStatement_of_ident? ht] at hstatement hdeclaration
  have hskipped :
    word ∈ ["use", "require", "require_once", "include", "include_once", "enum", "type",
      "newtype"] ↔ word ∈ ["use", "require", "require_once", "include", "include_once"] ∨
        word ∈ ["enum", "type", "newtype"] :=
    List.mem_append (s := ["use", "require", "require_once", "include", "include_once"])
  unfold ofWord UnitStep.ofWord
  rw [hmodule]
  refine .ite (fun _ => moves_passTo _ h.next) fun _ =>
    .ite (fun _ => moves_passTo _ h.next) fun _ =>
    .ite (fun _ => moves_passTo _ h.next) fun _ => ?_
  refine .ite (fun _ => ?_) fun _ => .ite (fun hnew => ?_) fun _ => ?_
  · exact moves_ofWalk _ _ h (agrees_moduleDirective h.next) (Reading.moduleDirective_rest_le ..)
  · cases ts with
    | nil => exact (Bool.false_ne_true (Bool.and_eq_true_iff.1 hnew).2).elim
    | cons second ts =>
      exact moves_ofWalk _ _ h (agrees_moduleDefinition h.next.next)
        (Nat.le_succ_of_le (Reading.moduleDefinition_rest_le ..))
  refine .ite (fun _ => ?_) fun _ => ?_
  · exact moves_ofWalk _ _ h (agrees_namespaceHead h.next) (Reading.namespaceHead_rest_le ..)
  -- What the reading passes over in one way the walk passes over in two.
  by_cases huse : word ∈ ["use", "require", "require_once", "include", "include_once"]
  · rw [if_pos huse, if_pos (hskipped.2 (.inl huse))]
    exact moves_ofWalk _ _ h hstatement (Reading.skipStatement_rest_le ts)
  by_cases htype : word ∈ ["enum", "type", "newtype"]
  · rw [if_neg huse, if_pos htype, if_pos (hskipped.2 (.inr htype))]
    exact moves_ofWalk _ _ h hdeclaration (Reading.skipStatement_rest_le ts)
  rw [if_neg huse, if_neg htype, if_neg fun hword => (hskipped.1 hword).elim huse htype]
  refine .ite (fun _ => ?_) fun _ => .ite (fun _ => ?_) fun _ => .ite (fun _ => ?_) fun _ =>
    .ite (fun _ => ?_) fun _ => moves_unexpected c _ _ h
  · exact moves_ofWalk _ _ h (agrees_function c h.next) (Reading.function_rest_le ..)
  · exact moves_ofWalk _ _ h (agrees_classLike happart c _ _ h.next) (Reading.classLike_rest_le ..)
  · exact moves_ofWalk _ _ h (agrees_classLike happart c _ _ h.next) (Reading.classLike_rest_le ..)
  · exact moves_ofWalk _ _ h (agrees_constants c h.next)
      (Reading.upToSemicolon_rest_le (endSpan tokens) ts)

/-- One step of a unit on indexes is the step on the tokens left. -/
theorem moves_ofToken (happart : Apart tokens) (c : UnitContext) (h : At tokens pos (t :: ts)) :
    Moves tokens (ofToken tokens c t pos) (.ofTokens (endSpan tokens) c t ts) := by
  unfold UnitStep.ofTokens
  split
  · next word hkind =>
    have hword : t.ident? = some word := by rw [Token.ident?, hkind]
    rw [ofToken, hword]
    exact moves_ofWord happart c hword h
  · next hkind =>
    rw [ofToken, Token.ident?, hkind]
    exact moves_ofWalk _ _ h (agrees_attributes 0 false h.next) (Reading.attributes_rest_le ..)
  · next hkind =>
    rw [ofToken, Token.ident?, Token.isPunct, Token.isPunct, hkind]
    exact moves_passTo _ h.next
  · next hkind =>
    rw [ofToken, Token.ident?, Token.isPunct, Token.isPunct, hkind]
    cases c.outer with
    | nil => exact moves_unexpected c _ _ h
    | cons ns outer => exact moves_passTo _ h.next
  · next hident hattribute hsemicolon hbrace =>
    have hname : t.ident? = none := by
      rw [Token.ident?]
      split
      · exact (hident _ ‹_›).elim
      · rfl
    rw [ofToken, hname]
    dsimp only
    have hpunct : ∀ ch, (t.kind = .punct ch → False) → ¬ t.isPunct ch = true := fun ch hne htrue =>
      hne (beq_iff_eq.1 htrue)
    rw [if_neg hattribute, if_neg (hpunct ';' hsemicolon), if_neg (hpunct '\x7d' hbrace)]
    exact moves_unexpected c _ _ h

/-- The loop over a unit never goes round without getting further, and reads what the tokens
spell. -/
theorem readUnit_eq_ok (happart : Apart tokens) (c : UnitContext) (h : At tokens pos ts) :
    readUnit tokens c pos = .ok (ModuleVisibility.readUnit (endSpan tokens) c ts) := by
  fun_induction ModuleVisibility.readUnit (endSpan tokens) c ts generalizing pos with
  | case1 c =>
    rw [readUnit, h.getElem?_nil]
    rfl
  | case2 c t ts step later =>
    rename_i ih
    obtain ⟨move, hmove, hcontext, hdefinitions, hdeclarations, herrors, hpos⟩ :=
      moves_ofToken happart c h
    have hprogress := h.left_lt hpos (Nat.lt_succ_of_le (UnitStep.ofTokens_rest_le ..))
    rw [readUnit, h.getElem?_cons]
    dsimp only
    rw [hmove, ok_bind, dif_pos hprogress, hcontext, ih hpos, ok_bind, hdefinitions,
      hdeclarations, herrors]
    rfl

end

/-- The tokens of a text start at different bytes. -/
theorem apart_tokens (cs : List Char) : Apart (TokenStream.ofText cs).tokens :=
  (TokenStream.pairwise_tokens (fun _ => Lexeme.byteSize_pos_of_mem_split) 0).imp fun h => h

theorem parseUnit_eq_ok (file : SourceFile) (h : Text.byteSize file.chars < 2 ^ 32) :
    parseUnit file = .ok (ModuleVisibility.parseUnit file) := by
  rw [parseUnit, tokenize_eq_ok h, ok_bind,
    readUnit_eq_ok (apart_tokens file.chars) .start (.zero _)]
  rfl

end Guarded
end ModuleVisibility
