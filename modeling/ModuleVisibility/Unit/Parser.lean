import ModuleVisibility.Token.Lexer
import ModuleVisibility.Unit.ClassBody
import ModuleVisibility.Unit.Section

/-!
From source text to compilation units. Statements, expressions and types are passed over by
matching braces. Where a construct cannot be read, reading goes on at the next word that can start
a declaration outside every brace opened since.
-/
namespace ModuleVisibility

/-- What governs the construct at hand: the namespace with those around its block, the modifiers
read before it, and the module that the unit has joined. -/
structure UnitContext where
  ns : String
  outer : List String
  visibility : Option Visibility
  isModuleLevel : Bool
  directive : Option ModuleMention

namespace UnitContext

/-- The context at the start of a unit. -/
def start : UnitContext := ⟨"", [], none, false, none⟩

/-- The context without modifiers, for the construct behind this one. -/
def settled (c : UnitContext) : UnitContext := { c with visibility := none, isModuleLevel := false }

/-- The declaration that `content` under `name` is in this context. -/
def declaration (c : UnitContext) (name : String) (span : Span) (content : DeclarationContent) :
    Declaration :=
  ⟨Name.qualify c.ns name, c.visibility.getD .public, span, content⟩

end UnitContext

/-- One construct of a unit: what it adds, the context behind it and the tokens left. -/
structure UnitStep where
  context : UnitContext
  definitions : List ModuleMention
  declarations : List Declaration
  errors : List SyntaxError
  rest : List Token

namespace Reading

/-- The end of a module directive behind the module's name. -/
def directiveEnd (stop : Span) (mention : ModuleMention) : List Token → Reading ModuleMention
  | [] => failure .moduleUnfinished stop []
  | t :: ts =>
    if t.isPunct ';' then success mention ts else failure .moduleUnfinished t.span (t :: ts)

theorem directiveEnd_rest_le (stop : Span) (mention : ModuleMention) (ts : List Token) :
    (directiveEnd stop mention ts).rest.length ≤ ts.length := by
  unfold directiveEnd
  split
  · simp
  · split <;> simp

/-- A module directive behind its keyword. -/
def moduleDirective (stop : Span) (ts : List Token) : Reading ModuleMention :=
  (moduleName stop ts).andThen fun (name, span) => directiveEnd stop ⟨name, span⟩

theorem moduleDirective_rest_le (stop : Span) (ts : List Token) :
    (moduleDirective stop ts).rest.length ≤ ts.length :=
  Nat.le_trans (andThen_rest_le _ _ fun _ => directiveEnd_rest_le ..) (moduleName_rest_le stop ts)

/-- The block of a module definition behind the module's name. -/
def definitionBlock (stop : Span) (mention : ModuleMention) : List Token → Reading ModuleMention
  | [] => failure .moduleBodyMissing stop []
  | t :: ts =>
    if t.isPunct '\x7b' then (block t ts).map fun _ => mention
    else failure .moduleBodyMissing t.span (t :: ts)

theorem definitionBlock_rest_le (stop : Span) (mention : ModuleMention) (ts : List Token) :
    (definitionBlock stop mention ts).rest.length ≤ ts.length := by
  unfold definitionBlock
  split
  · simp
  · split
    · exact Nat.le_succ_of_le (block_rest_le ..)
    · simp

/-- A module definition behind its two keywords. -/
def moduleDefinition (stop : Span) (ts : List Token) : Reading ModuleMention :=
  (moduleName stop ts).andThen fun (name, span) => definitionBlock stop ⟨name, span⟩

theorem moduleDefinition_rest_le (stop : Span) (ts : List Token) :
    (moduleDefinition stop ts).rest.length ≤ ts.length :=
  Nat.le_trans (andThen_rest_le _ _ fun _ => definitionBlock_rest_le ..)
    (moduleName_rest_le stop ts)

/-- The name of a namespace and the tokens behind it; the global namespace has none. -/
def namespaceName : List Token → String × List Token
  | [] => ("", [])
  | t :: ts =>
    match t.ident? with
    | some name => (String.ofList (name.toList.dropWhile (· == Name.separator)), ts)
    | none => ("", t :: ts)

theorem namespaceName_length_le (ts : List Token) : (namespaceName ts).2.length ≤ ts.length := by
  unfold namespaceName
  split
  · simp
  · split <;> simp

/-- A namespace behind its keyword: its name, and whether it is that of a block. -/
def namespaceHead (stop : Span) (ts : List Token) : Reading (String × Bool) :=
  let (name, rest) := namespaceName ts
  match rest with
  | [] => failure .namespaceCutShort stop []
  | t :: after =>
    if t.isPunct ';' then success (name, false) after
    else if t.isPunct '\x7b' then success (name, true) after
    else failure .namespaceUnfinished t.span after

theorem namespaceHead_rest_le (stop : Span) (ts : List Token) :
    (namespaceHead stop ts).rest.length ≤ ts.length := by
  have := namespaceName_length_le ts
  unfold namespaceHead
  dsimp only
  split
  · simp
  · next h =>
    rw [h] at this
    simp only [List.length_cons] at this
    repeat' split
    all_goals simp
    all_goals omega

/-- A function behind its keyword. -/
def function (stop : Span) (c : UnitContext) (ts : List Token) : Reading Declaration :=
  (expectName stop .function ts).andThen fun (name, span) rest =>
    (signature stop 0 rest).map fun body =>
      c.declaration name span (.function (scanReferences c.ns body))

theorem function_rest_le (stop : Span) (c : UnitContext) (ts : List Token) :
    (function stop c ts).rest.length ≤ ts.length :=
  Nat.le_trans (andThen_rest_le _ _ fun _ => signature_rest_le ..) (expectName_rest_le ..)

/-- A class or trait behind its keyword. -/
def classLike (stop : Span) (c : UnitContext) (role : NameRole)
    (content : ClassBody → DeclarationContent) (ts : List Token) : Reading Declaration :=
  (expectName stop role ts).andThen fun (name, span) rest =>
    (classBody stop c.ns rest).map fun body => c.declaration name span (content body)

theorem classLike_rest_le (stop : Span) (c : UnitContext) (role : NameRole)
    (content : ClassBody → DeclarationContent) (ts : List Token) :
    (classLike stop c role content ts).rest.length ≤ ts.length :=
  Nat.le_trans (andThen_rest_le _ _ fun _ => classBody_rest_le ..) (expectName_rest_le ..)

/-- The constants of a statement behind its keyword. -/
def constants (stop : Span) (c : UnitContext) (ts : List Token) : Reading (List Declaration) :=
  (upToSemicolon stop ts).map fun statement =>
    (Declarator.constants statement).map fun d => c.declaration d.name d.span .constant

/-- The words that can start a declaration. -/
def declarationWords : List String :=
  ["function", "class", "interface", "trait", "const", "module", "abstract", "final", "internal",
    "public", "namespace"]

/-- Whether a declaration can start with the token. -/
def startsDeclaration (t : Token) : Bool :=
  match t.kind with
  | .attrOpen => true
  | .ident word => declarationWords.contains word
  | _ => false

/-- The tokens from the next start of a declaration on, where `depth` braces are open. -/
def resume : Nat → List Token → List Token
  | _, [] => []
  | depth, t :: ts =>
    if t.isPunct '\x7b' then resume (depth + 1) ts
    else if t.isPunct '\x7d' then resume (depth - 1) ts
    else if depth = 0 && startsDeclaration t then t :: ts
    else resume depth ts

theorem resume_length_le (depth : Nat) (ts : List Token) :
    (resume depth ts).length ≤ ts.length := by
  fun_induction resume depth ts <;> simp at * <;> omega

end Reading

namespace UnitStep

/-- A step that adds nothing and keeps the context as it is given. -/
def pass (c : UnitContext) (ts : List Token) : UnitStep := ⟨c, [], [], [], ts⟩

/-- A step that adds declarations. -/
def declare (c : UnitContext) (declarations : List Declaration) : UnitStep :=
  ⟨c, [], declarations, [], []⟩

/-- A construct that cannot stand here. -/
def unexpected (c : UnitContext) (fault : SyntaxFault) (span : Span) (ts : List Token) :
    UnitStep :=
  ⟨c.settled, [], [], [fault.atSpan span], Reading.resume 0 ts⟩

/-- The step that a reading makes: what `use` makes of its value, or a new start elsewhere. -/
def ofReading {α : Type} (c : UnitContext) (r : Reading α) (use : α → UnitStep) : UnitStep :=
  match r.value? with
  | none => ⟨c.settled, [], [], r.errors, Reading.resume 0 r.rest⟩
  | some a =>
    let step := use a
    ⟨step.context, step.definitions, step.declarations, r.errors ++ step.errors, r.rest⟩

theorem ofReading_rest_le {α : Type} (c : UnitContext) (r : Reading α) (use : α → UnitStep) :
    (ofReading c r use).rest.length ≤ r.rest.length := by
  unfold ofReading
  split
  · exact Reading.resume_length_le 0 r.rest
  · exact Nat.le_refl _

/-- Joins the module that a directive names; a second directive is a fault. -/
def join (c : UnitContext) (keyword : Span) (mention : ModuleMention) : UnitStep :=
  match c.directive with
  | none => ⟨{ c.settled with directive := some mention }, [], [], [], []⟩
  | some first =>
    ⟨c.settled, [], [], [(SyntaxFault.moduleRepeated first.name).atSpan
      (keyword.join mention.span)], []⟩

/-- Enters a namespace, for the rest of the block at hand or for a block of its own. -/
def enter (c : UnitContext) (name : String) (isBlock : Bool) : UnitStep :=
  pass { c.settled with ns := name, outer := if isBlock then c.ns :: c.outer else c.outer } []

/-- The construct that starts with the word `word` at the token `t`. -/
def ofWord (stop : Span) (c : UnitContext) (t : Token) (word : String) (ts : List Token) :
    UnitStep :=
  let one (d : Declaration) : UnitStep := declare c.settled [d]
  if word = "public" then pass { c with visibility := some .public } ts
  else if word = "internal" then pass { c with visibility := some .internal } ts
  else if word ∈ ["abstract", "final", "async", "xhp"] then pass c ts
  else if word = "module" then ofReading c (Reading.moduleDirective stop ts) (join c t.span)
  else if word = "new" && Reference.headIs (·.isWord "module") ts then
    ofReading c (Reading.moduleDefinition stop ts.tail) fun mention =>
      ⟨c.settled, [mention], [], [], []⟩
  else if word = "namespace" then
    ofReading c (Reading.namespaceHead stop ts) fun (name, isBlock) => enter c name isBlock
  else if word ∈ ["use", "require", "require_once", "include", "include_once", "enum", "type",
      "newtype"] then
    ofReading c (Reading.skipStatement ts) fun _ => pass c.settled []
  else if word = "function" then ofReading c (Reading.function stop c ts) one
  else if word ∈ ["class", "interface"] then
    ofReading c (Reading.classLike stop c .class (fun b => .class b.uses b.members) ts) one
  else if word = "trait" then
    ofReading c
      (Reading.classLike stop c .trait (fun b => .trait c.isModuleLevel b.uses b.members) ts) one
  else if word = "const" then ofReading c (Reading.constants stop c ts) (declare c.settled)
  else unexpected c (.unexpectedWord word) t.span ts

theorem ite_rest_le {p : Prop} [Decidable p] {a b : UnitStep} {n : Nat}
    (ha : a.rest.length ≤ n) (hb : b.rest.length ≤ n) : (if p then a else b).rest.length ≤ n := by
  split
  · exact ha
  · exact hb

theorem ofWord_rest_le (stop : Span) (c : UnitContext) (t : Token) (word : String)
    (ts : List Token) : (ofWord stop c t word ts).rest.length ≤ ts.length := by
  have tail_le : ts.tail.length ≤ ts.length := by simp
  refine ite_rest_le (Nat.le_refl _) (ite_rest_le (Nat.le_refl _) (ite_rest_le (Nat.le_refl _) ?_))
  refine ite_rest_le
    (Nat.le_trans (ofReading_rest_le ..) (Reading.moduleDirective_rest_le ..)) ?_
  refine ite_rest_le (Nat.le_trans (ofReading_rest_le ..)
    (Nat.le_trans (Reading.moduleDefinition_rest_le ..) tail_le)) ?_
  refine ite_rest_le (Nat.le_trans (ofReading_rest_le ..) (Reading.namespaceHead_rest_le ..)) ?_
  refine ite_rest_le (Nat.le_trans (ofReading_rest_le ..) (Reading.skipStatement_rest_le ..)) ?_
  refine ite_rest_le (Nat.le_trans (ofReading_rest_le ..) (Reading.function_rest_le ..)) ?_
  refine ite_rest_le (Nat.le_trans (ofReading_rest_le ..) (Reading.classLike_rest_le ..)) ?_
  refine ite_rest_le (Nat.le_trans (ofReading_rest_le ..) (Reading.classLike_rest_le ..)) ?_
  exact ite_rest_le (Nat.le_trans (ofReading_rest_le ..) (Reading.upToSemicolon_rest_le stop ts))
    (Reading.resume_length_le 0 ts)

/-- The construct that starts with the token `t`. -/
def ofTokens (stop : Span) (c : UnitContext) (t : Token) (ts : List Token) : UnitStep :=
  match t.kind with
  | .ident word => ofWord stop c t word ts
  | .attrOpen =>
    ofReading c (Reading.attributes stop 0 false ts) fun found =>
      pass { c with isModuleLevel := c.isModuleLevel || found } []
  | .punct ';' => pass c.settled ts
  | .punct '\x7d' =>
    match c.outer with
    | ns :: outer => pass { c.settled with ns := ns, outer := outer } ts
    | [] => unexpected c .unexpectedToken t.span ts
  | _ => unexpected c .unexpectedToken t.span ts

theorem ofTokens_rest_le (stop : Span) (c : UnitContext) (t : Token) (ts : List Token) :
    (ofTokens stop c t ts).rest.length ≤ ts.length := by
  unfold ofTokens
  split
  · exact ofWord_rest_le ..
  · exact Nat.le_trans (ofReading_rest_le ..) (Reading.attributes_rest_le ..)
  · exact Nat.le_refl _
  · split
    · exact Nat.le_refl _
    · exact Reading.resume_length_le 0 ts
  · exact Reading.resume_length_le 0 ts

end UnitStep

/-- A unit read from tokens, with the faults met. -/
structure UnitReading where
  unit : CompilationUnit
  errors : List SyntaxError

/-- Reads the rest of a unit. -/
def readUnit (stop : Span) (c : UnitContext) : List Token → UnitReading
  | [] => ⟨⟨c.directive, [], []⟩, []⟩
  | t :: ts =>
    let step := UnitStep.ofTokens stop c t ts
    let later := readUnit stop step.context step.rest
    ⟨⟨later.unit.directive, step.definitions ++ later.unit.definitions,
        step.declarations ++ later.unit.declarations⟩,
      step.errors ++ later.errors⟩
termination_by ts => ts.length
decreasing_by exact Nat.lt_succ_of_le (UnitStep.ofTokens_rest_le ..)

/-- The empty range behind the last token. -/
def endSpan (ts : List Token) : Span :=
  match ts.getLast? with
  | some t => t.span.endPoint
  | none => .origin

/-- The unit that the tokens spell. -/
def unitOfTokens (ts : List Token) : UnitReading := readUnit (endSpan ts) .start ts

/-- Reads a unit. Its faults are listed by place; at one place those of tokens come first. -/
def parseUnit (file : SourceFile) : ParsedUnit :=
  let stream := TokenStream.ofText file.chars
  let read := unitOfTokens stream.tokens
  ⟨file, read.unit, (stream.errors ++ read.errors).mergeSort fun a b => a.span.le b.span⟩

/-- Reads every unit of every file, in order. -/
def parseProgram (files : List SourceFile) : List ParsedUnit :=
  (files.flatMap SourceFile.units).map parseUnit

end ModuleVisibility
