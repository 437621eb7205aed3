import ModuleVisibility.Name
import ModuleVisibility.Reference.Basic
import ModuleVisibility.Token.Basic

/-!
The references in a body. A body is not parsed into statements: each token is looked at together
with the tokens before it, nearest first, and those after it, and may start references.
-/
namespace ModuleVisibility
namespace Reference

/-- Words that name nothing a program declares. -/
def reservedWords : List String :=
  ["abstract", "array", "arraykey", "as", "async", "await", "bool", "break", "case", "catch",
    "class", "clone", "concurrent", "const", "continue", "default", "dict", "die", "do", "dynamic",
    "echo", "else", "elseif", "empty", "enum", "eval", "exit", "false", "final", "finally",
    "float", "for", "foreach", "function", "if", "include", "include_once", "inout", "instanceof",
    "int", "interface", "internal", "is", "isset", "keyset", "let", "list", "match", "mixed",
    "namespace", "new", "newtype", "noreturn", "nonnull", "nothing", "null", "num", "parent",
    "print", "private", "protected", "public", "readonly", "require", "require_once", "return",
    "self", "shape", "static", "string", "switch", "this", "throw", "trait", "true", "try",
    "tuple", "type", "unset", "use", "using", "var", "vec", "void", "where", "while", "yield"]

/-- Reserved words are reserved in any case. -/
def isReserved (name : String) : Bool := reservedWords.contains (Text.lowerAscii name)

/-- Whether the first token, if any, passes a test. -/
def headIs (test : Token → Bool) (ts : List Token) : Bool := ts.head?.any test

/-- Whether the token before makes the name a member, a declared name or the operand of `new`. -/
def followsAccess (before : List Token) : Bool :=
  headIs (fun t => t.kind == .arrow || t.kind == .doubleColon
    || t.isWord "function" || t.isWord "new" || t.isWord "const") before

/-- Whether the tokens before end in a name glued to the token `t`. -/
def gluedToName (before : List Token) (t : Token) : Bool :=
  headIs (fun p => p.ident?.isSome && p.span.hi == t.span.lo) before

/--
Whether a place lies inside the type arguments of a name: going back over names and their
separators, past `depth` closed argument lists, there is an open angle glued to a name.
-/
def insideTypeArguments : Nat → List Token → Bool
  | _, [] => false
  | depth, t :: before =>
    match t.kind with
    | .ident _ | .doubleColon | .punct ',' | .punct '?' => insideTypeArguments depth before
    | .punct '>' => insideTypeArguments (depth + 1) before
    | .attrClose => insideTypeArguments (depth + 2) before
    | .punct '<' =>
      if gluedToName before t then
        match depth with
        | 0 => true
        | d + 1 => insideTypeArguments d before
      else false
    | _ => false

/-- Whether the name `t` takes type arguments: an open angle glued to it, and a name behind. -/
def takesTypeArguments (t : Token) : List Token → Bool
  | angle :: arg :: _ => angle.isPunct '<' && t.span.hi == angle.span.lo && arg.ident?.isSome
  | _ => false

/-- Whether the tokens before end in a colon behind a closed parameter list. -/
def followsSignature : List Token → Bool
  | colon :: paren :: _ => colon.isPunct ':' && paren.isPunct ')'
  | _ => false

/-- Whether the name `t` stands for a type and not for a value. -/
def isTypePosition (before : List Token) (t : Token) (after : List Token) : Bool :=
  headIs (fun n => match n.kind with | .variable _ => true | _ => false) after
    || headIs (fun p => p.isWord "as" || p.isWord "is" || p.isWord "instanceof"
      || p.isWord "catch") before
    || followsSignature before
    || takesTypeArguments t after
    || insideTypeArguments 0 before

/-- The member of an object of class `owner` behind an arrow. -/
def instanceMember (owner : ClassRef) : List Token → List Reference
  | [] => []
  | t :: after =>
    match t.ident? with
    | none => []
    | some name =>
      let kind := if headIs (·.isPunct '(') after then .method else .property
      [⟨.member owner name kind false, t.span⟩]

/-- The member of `owner` behind a double colon, where `start` is the token of the class. -/
def staticMember (owner : ClassRef) (start : Token) : List Token → List Reference
  | [] => []
  | t :: after =>
    let found (name : String) (kind : MemberKind) : List Reference :=
      [⟨.member owner name kind true, ⟨start.span.lo, t.span.hi⟩⟩]
    match t.kind with
    | .variable name => found name .property
    | .ident name =>
      if name = "class" then []
      else found name (if headIs (·.isPunct '(') after then .method else .constant)
    | _ => []

/-- What follows the end of a parenthesis in which `depth` more are open. -/
def closeParen? : Nat → List Token → Option (List Token)
  | _, [] => none
  | depth, t :: after =>
    if t.isPunct '(' then closeParen? (depth + 1) after
    else if t.isPunct ')' then
      match depth with
      | 0 => some after
      | d + 1 => closeParen? d after
    else closeParen? depth after

/-- What follows the arguments that the tokens may start with; none if they have no end. -/
def afterArguments? : List Token → Option (List Token)
  | [] => some []
  | t :: after => if t.isPunct '(' then closeParen? 0 after else some (t :: after)

/-- The member used of a new object in parentheses, from the tokens behind its class. -/
def newObjectMember (owner : ClassRef) (after : List Token) : List Reference :=
  match afterArguments? after with
  | some (paren :: arrow :: rest) =>
    if paren.isPunct ')' && arrow.kind == .arrow then instanceMember owner rest else []
  | _ => []

/-- The class that `new` names; `parent` and anonymous classes are left alone. -/
def newClass? (ns name : String) : Option ClassRef :=
  let word := Text.lowerAscii name
  if word = "self" ∨ word = "static" then some .current
  else if word = "parent" ∨ word = "class" then none
  else some (.named (Name.resolveClass ns name))

/-- The class before a double colon; `parent` and reserved words are left alone. -/
def staticClass? (ns name : String) : Option ClassRef :=
  let word := Text.lowerAscii name
  if word = "self" ∨ word = "static" then some .current
  else if isReserved name then none
  else some (.named (Name.resolveClass ns name))

/-- The references of a `new` at the token `t`. -/
def newReferences (ns : String) (before : List Token) (t : Token) : List Token → List Reference
  | [] => []
  | classToken :: after =>
    match classToken.ident?.bind (newClass? ns) with
    | none => []
    | some owner =>
      ⟨.new owner, t.span.join classToken.span⟩
        :: (if headIs (·.isPunct '(') before then newObjectMember owner after else [])

/-- The references of the name `name` at the token `t`. -/
def nameReferences (ns : String) (before : List Token) (t : Token) (name : String)
    (after : List Token) : List Reference :=
  if followsAccess before then []
  else if Text.lowerAscii name = "new" then newReferences ns before t after
  else if headIs (·.kind == .doubleColon) after then
    match staticClass? ns name with
    | some owner => staticMember owner t after.tail
    | none => []
  else if isReserved name then []
  else
    let target := Name.resolveFunction ns name
    if headIs (·.isPunct '(') after then [⟨.call target.name target.fallback, t.span⟩]
    else if isTypePosition before t after then []
    else [⟨.constant target.name target.fallback, t.span⟩]

/-- The references that the token `t` starts between `before`, nearest first, and `after`. -/
def startingAt (ns : String) (before : List Token) (t : Token) (after : List Token) :
    List Reference :=
  match t.kind with
  | .ident name => nameReferences ns before t name after
  | .variable name =>
    if name = "this" && headIs (·.kind == .arrow) after then instanceMember .current after.tail
    else []
  | _ => []

/-- The references in the tokens that follow `before`. -/
def scanFrom (ns : String) (before : List Token) : List Token → List Reference
  | [] => []
  | t :: after => startingAt ns before t after ++ scanFrom ns (t :: before) after

end Reference

/-- The references in a list of tokens, with names resolved in the namespace `ns`. -/
def scanReferences (ns : String) (tokens : List Token) : List Reference :=
  Reference.scanFrom ns [] tokens

end ModuleVisibility
