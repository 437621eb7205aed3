import ModuleVisibility.Text.Character
import ModuleVisibility.Token.Basic
import ModuleVisibility.Unit.Fault

/-!
From a text to its tokens. The text is first cut into lexemes, stretches that together are the
text again, and each lexeme is a token, a gap between tokens, or a stretch that lacks its end.
Tokens and faults then take their byte ranges from the sizes of the lexemes before them.
-/
namespace ModuleVisibility

/-- What a stretch of text is. -/
inductive LexemeKind where
  | blank
  /-- From `<?`, `//` or a hash up to the end of the line. -/
  | lineComment
  | blockComment
  | unclosedComment
  | token (kind : TokenKind)
  | unclosedString
  | unclosedHeredoc
  deriving DecidableEq

structure Lexeme where
  kind : LexemeKind
  text : List Char
  deriving DecidableEq

namespace Lexeme

/-- The blanks that separate tokens. -/
def isGap (c : Char) : Bool := c == ' ' || c == '\t' || c == '\r' || c == '\n'

/-- A name starts with a letter, an underscore or any character outside ASCII. -/
def isNameStart (c : Char) : Bool := c.isAlpha || c == '_' || Text.isWide c

/-- A name goes on with these and with digits. -/
def isNameChar (c : Char) : Bool := c.isAlphanum || c == '_' || Text.isWide c

/-- A number goes on with letters, digits, underscores and points. -/
def isNumberChar (c : Char) : Bool := c.isAlphanum || c == '_' || c == '.'

/-- Whether a name starts here. -/
def startsName : List Char → Bool
  | [] => false
  | c :: _ => isNameStart c

/-- Length of the name here. -/
def nameLength (cs : List Char) : Nat := (cs.takeWhile isNameChar).length

/-- Length of the qualified name here: names joined by backslashes. -/
def qualifiedLength : List Char → Nat
  | [] => 0
  | c :: cs =>
    if isNameChar c || (c == '\\' && startsName cs) then qualifiedLength cs + 1 else 0

/-- Length up to the end of the line, without its newline. -/
def lineLength (cs : List Char) : Nat := (cs.takeWhile (· != '\n')).length

/-- Length up to and with the quote that closes a string; a backslash hides the next character. -/
def stringLength? (quote : Char) : List Char → Option Nat
  | [] => none
  | '\\' :: _ :: cs => (stringLength? quote cs).map (· + 2)
  | c :: cs => if c = quote then some 1 else (stringLength? quote cs).map (· + 1)

/-- Length up to and with the end of a block comment. -/
def commentLength? : List Char → Option Nat
  | [] => none
  | c :: cs =>
    if c = '*' && cs.head? == some '/' then some 2 else (commentLength? cs).map (· + 1)

/-- Length of a heredoc's closing label with the blanks before it, if the text starts so. -/
def closingLabel? (label cs : List Char) : Option Nat :=
  let indent := (cs.takeWhile Text.isBlank).length
  if label.isPrefixOf (cs.drop indent) then some (indent + label.length) else none

/-- Length up to and with the first closing label that begins a line. -/
def heredocLength? (label : List Char) : List Char → Option Nat
  | [] => none
  | c :: cs =>
    match if c = '\n' then closingLabel? label cs else none with
    | some n => some (n + 1)
    | none => (heredocLength? label cs).map (· + 1)

/-- Length of what stands between `<<<` and the label of a heredoc: blanks and one quote. -/
def labelOffset (cs : List Char) : Nat :=
  let blanks := (cs.takeWhile (· == ' ')).length
  match cs.drop blanks with
  | '\'' :: _ => blanks + 1
  | '"' :: _ => blanks + 1
  | _ => blanks

/--
The lexeme behind `<<<`: its kind and how many characters it takes from `cs`. Without a label
the text is no heredoc and `none` comes back.
-/
def heredoc? (cs : List Char) : Option (LexemeKind × Nat) :=
  let offset := labelOffset cs
  let label := (cs.drop offset).takeWhile isNameChar
  if label = [] then none
  else
    let used := offset + label.length
    match heredocLength? label (cs.drop used) with
    | some n => some (.token .literal, used + n)
    | none => some (.unclosedHeredoc, cs.length)

/-- The string that `quote` opens before `cs`. -/
def quoted (quote : Char) (cs : List Char) : LexemeKind × Nat :=
  match stringLength? quote cs with
  | some n => (.token .literal, n)
  | none => (.unclosedString, cs.length)

/-- A name of `n` further characters behind `c`. -/
def named (c : Char) (cs : List Char) (n : Nat) : LexemeKind × Nat :=
  (.token (.ident (String.ofList (c :: cs.take n))), n)

/-- The lexeme that starts with `c`: its kind and how many characters it takes from `cs`. -/
def next (c : Char) (cs : List Char) : LexemeKind × Nat :=
  if isGap c then (.blank, 0)
  else match c, cs with
    | '<', '?' :: _ => (.lineComment, lineLength cs)
    | '<', '<' :: '<' :: rest =>
      match heredoc? rest with
      | some (kind, n) => (kind, n + 2)
      | none => (.token .attrOpen, 1)
    | '<', '<' :: _ => (.token .attrOpen, 1)
    | '>', '>' :: _ => (.token .attrClose, 1)
    | '/', '/' :: _ => (.lineComment, lineLength cs)
    | '#', _ => (.lineComment, lineLength cs)
    | '/', '*' :: rest =>
      match commentLength? rest with
      | some n => (.blockComment, n + 1)
      | none => (.unclosedComment, cs.length)
    | '\'', _ => quoted c cs
    | '"', _ => quoted c cs
    | '`', _ => quoted c cs
    | ':', ':' :: _ => (.token .doubleColon, 1)
    | '-', '>' :: _ => (.token .arrow, 1)
    | '?', '-' :: '>' :: _ => (.token .arrow, 2)
    | _, _ =>
      if c = '$' && startsName cs then
        let n := nameLength cs
        (.token (.variable (String.ofList (cs.take n))), n)
      else if c.isDigit then (.token .literal, (cs.takeWhile isNumberChar).length)
      else if (c = '\\' && startsName cs) || isNameStart c then named c cs (qualifiedLength cs)
      else (.token (.punct c), 0)

/-- The lexemes of a text, in order. -/
def split : List Char → List Lexeme
  | [] => []
  | c :: cs =>
    let (kind, n) := next c cs
    ⟨kind, c :: cs.take n⟩ :: split (cs.drop n)
termination_by cs => cs.length
decreasing_by simp only [List.length_drop, List.length_cons]; omega

/-- Nothing of the text is lost. -/
theorem flatMap_text_split (cs : List Char) : (split cs).flatMap text = cs := by
  fun_induction split cs with
  | case1 => rfl
  | case2 c cs kind n h ih => simp [ih, List.take_append_drop]

/-- The token that the lexeme is, if it is one; a literal without its end is still one. -/
def tokenKind? (l : Lexeme) : Option TokenKind :=
  match l.kind with
  | .token kind => some kind
  | .unclosedString => some .literal
  | .unclosedHeredoc => some .literal
  | _ => none

/-- What is wrong with the lexeme. -/
def fault? (l : Lexeme) : Option SyntaxFault :=
  match l.kind with
  | .unclosedComment => some .unclosedComment
  | .unclosedString => some .unclosedString
  | .unclosedHeredoc => some .unclosedHeredoc
  | _ => none

/-- The byte range of the lexeme when it starts at `start`. -/
def spanAt (l : Lexeme) (start : Nat) : Span := ⟨start, start + Text.byteSize l.text⟩

end Lexeme

/-- The tokens of a text and the faults of its lexemes, both in order. -/
structure TokenStream where
  tokens : List Token
  errors : List SyntaxError
  deriving DecidableEq

namespace TokenStream

/-- The stream of lexemes that start at byte `start`. -/
def ofLexemes (start : Nat) : List Lexeme → TokenStream
  | [] => ⟨[], []⟩
  | l :: ls =>
    let span := l.spanAt start
    let rest := ofLexemes span.hi ls
    ⟨(l.tokenKind?.map fun kind => ⟨kind, span⟩).toList ++ rest.tokens,
      (l.fault?.map (·.atSpan span)).toList ++ rest.errors⟩

/-- The token stream of a text. -/
def ofText (cs : List Char) : TokenStream := ofLexemes 0 (Lexeme.split cs)

end TokenStream

/-- Reads a source text into tokens. -/
def tokenize (source : String) : TokenStream := TokenStream.ofText source.toList

end ModuleVisibility
