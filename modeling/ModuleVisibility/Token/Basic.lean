import ModuleVisibility.Text.Span

/-!
Tokens of a source text. Only what declarations and references need is told apart: every string
and number is one kind of token, and an operator that no rule looks at falls into its characters.
-/
namespace ModuleVisibility

inductive TokenKind where
  /-- A name, with its namespace as written; an absolute name keeps its leading backslash. -/
  | ident (name : String)
  /-- A variable, without its dollar sign. -/
  | variable (name : String)
  | literal
  | doubleColon
  /-- `->` or `?->`. -/
  | arrow
  | attrOpen
  | attrClose
  | punct (char : Char)
  deriving DecidableEq

structure Token where
  kind : TokenKind
  span : Span
  deriving DecidableEq

namespace Token

/-- The name that the token is, if it is one. -/
def ident? (t : Token) : Option String :=
  match t.kind with
  | .ident name => some name
  | _ => none

/-- Whether the token is exactly this word. -/
def isWord (t : Token) (word : String) : Bool := t.kind == .ident word

/-- Whether the token is this one character. -/
def isPunct (t : Token) (c : Char) : Bool := t.kind == .punct c

end Token
end ModuleVisibility
