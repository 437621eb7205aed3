import ModuleVisibility.Text.Span

/-!
What can be wrong with the text of a unit, and how each fault is worded.
-/
namespace ModuleVisibility

/-- A worded fault at a place in a unit. -/
structure SyntaxError where
  message : String
  span : Span
  deriving DecidableEq

/-- The names whose absence is a fault. -/
inductive NameRole where
  | moduleName | moduleSegment | function | «class» | trait | method
  deriving DecidableEq

/-- The name's role, as faults call it. -/
def NameRole.text : NameRole → String
  | .moduleName => "module name"
  | .moduleSegment => "module name segment"
  | .function => "function name"
  | .class => "class name"
  | .trait => "trait name"
  | .method => "method name"

/-- The causes of a syntax error. -/
inductive SyntaxFault where
  | unclosedComment
  | unclosedString
  | unclosedHeredoc
  | nameExpected (role : NameRole)
  | nameMissingAtEnd (role : NameRole)
  | unexpectedWord (word : String)
  | unexpectedToken
  | unclosedAttributes
  | moduleUnfinished
  | moduleRepeated (first : String)
  | moduleBodyMissing
  | namespaceUnfinished
  | namespaceCutShort
  | unclosedBrace
  | bodyMissing
  | declarationCutShort
  | constantUnfinished
  | braceMissing
  | braceMissingAtEnd
  | useUnfinished
  | useCutShort
  | memberMissing
  | memberUnfinished
  | memberCutShort
  deriving DecidableEq

namespace SyntaxFault

/-- The wording of a fault. -/
def message : SyntaxFault → String
  | unclosedComment => "unterminated block comment"
  | unclosedString => "unterminated string literal"
  | unclosedHeredoc => "unterminated heredoc"
  | nameExpected role => "expected " ++ role.text
  | nameMissingAtEnd role => "expected " ++ role.text ++ ", found end of file"
  | unexpectedWord word => "unexpected `" ++ word ++ "` at top level"
  | unexpectedToken => "unexpected token at top level"
  | unclosedAttributes => "unterminated attribute list"
  | moduleUnfinished => "expected `;` after module declaration"
  | moduleRepeated first =>
    "a file can only belong to one module; it already declares module `" ++ first ++ "`"
  | moduleBodyMissing => "expected `\x7b` after module name"
  | namespaceUnfinished => "expected `;` or `\x7b` after namespace name"
  | namespaceCutShort => "unexpected end of file in namespace declaration"
  | unclosedBrace => "unclosed `\x7b`"
  | bodyMissing => "expected a body or `;`"
  | declarationCutShort => "unexpected end of file in declaration"
  | constantUnfinished => "expected `;` after constant"
  | braceMissing => "expected `\x7b` to open the body"
  | braceMissingAtEnd => "expected `\x7b` to open the body, found end of file"
  | useUnfinished => "expected `,`, `;` or `\x7b` after trait name"
  | useCutShort => "unexpected end of file in `use` clause"
  | memberMissing => "expected a member declaration"
  | memberUnfinished => "expected `;`"
  | memberCutShort => "unexpected end of file in class body"

/-- The fault at a place. -/
def atSpan (fault : SyntaxFault) (span : Span) : SyntaxError := ⟨fault.message, span⟩

end SyntaxFault
end ModuleVisibility
