import ModuleVisibility.Proofs.Guarded.Basic
import ModuleVisibility.Token.Lexer

/-!
The lexer on byte offsets. It looks at single bytes, moves on by numbers of bytes, also from within
a character, and cuts its names out of the text between two offsets. A byte is written as the
character of its number, so that the tests of characters are tests of bytes too.
-/
namespace ModuleVisibility
namespace Guarded

/-- The bytes of a character in UTF-8. -/
def encode (c : Char) : List Char := (String.utf8EncodeChar c).map fun byte => Char.ofNat byte.toNat

/-- The bytes of a text in UTF-8. -/
def bytes (cs : List Char) : List Char := cs.flatMap encode

/-- The place behind the bytes from `pos` on that pass a test. -/
def skipWhile (test : Char → Bool) (source : List Char) (pos : Nat) : Guarded Nat :=
  if _h : pos < (bytes source).length then do
    let byte ← index (bytes source) pos
    if test byte then skipWhile test source (pos + 1) else return pos
  else return pos
termination_by (bytes source).length - pos

/-- Whether the bytes from `pos` on start so. -/
def startsWith (source : List Char) (pos : Nat) (opening : List Char) : Guarded Bool := do
  let rest ← range (bytes source) pos (bytes source).length
  return (bytes opening).isPrefixOf rest

/-- Whether there is a byte at `pos` with which a name can start. -/
def startsNameAt (source : List Char) (pos : Nat) : Bool :=
  (bytes source)[pos]?.any Lexeme.isNameStart

/-- The name at `pos`, without qualification, and the place behind it. -/
def name (source : List Char) (pos : Nat) : Guarded (List Char × Nat) := do
  let stop ← skipWhile Lexeme.isNameChar source pos
  let text ← textRange source pos stop
  return (text, stop)

/-- Goes on with a qualified name as long as a backslash and a further name follow. -/
def qualified (source : List Char) (text : List Char) (pos : Nat) : Guarded (List Char × Nat) := do
  let separated ← startsWith source pos ['\\']
  if separated && startsNameAt source (pos + 1) then
    let (part, stop) ← name source (pos + 1)
    if _h : left (bytes source) stop < left (bytes source) pos then
      qualified source (text ++ '\\' :: part) stop
    else throw .stuck
  else return (text, pos)
termination_by left (bytes source) pos

/-- The qualified name at `pos` and the place behind it. -/
def qualifiedName (source : List Char) (pos : Nat) : Guarded (List Char × Nat) := do
  let (text, stop) ← name source pos
  qualified source text stop

/-- The byte at which `needle` first occurs in a text. -/
def find? (needle : List Char) : List Char → Option Nat
  | [] => none
  | c :: cs => if needle.isPrefixOf (c :: cs) then some 0
      else (find? needle cs).map (· + c.utf8Size)

/-- The place behind the quote that closes a string, or where the search for it ends, which may be
behind the end of the text. A backslash passes over the byte behind it. -/
def stringEnd (source : List Char) (quote : Char) (pos : Nat) : Guarded (Bool × Nat) :=
  if _h : pos < (bytes source).length then do
    let byte ← index (bytes source) pos
    if byte = '\\' then stringEnd source quote (pos + 2)
    else if byte = quote then return (true, pos + 1)
    else stringEnd source quote (pos + 1)
  else return (false, pos)
termination_by (bytes source).length - pos

/-- The place behind the blanks at `pos`. -/
def skipBlanks (source : List Char) (pos : Nat) : Guarded Nat := do
  if ← startsWith source pos [' '] then
    if _h : left (bytes source) (pos + 1) < left (bytes source) pos then skipBlanks source (pos + 1)
    else throw .stuck
  else return pos
termination_by left (bytes source) pos

/-- The place behind the blanks and the quote that may stand before the label of a heredoc. -/
def labelStart (source : List Char) (pos : Nat) : Guarded Nat := do
  let opening ← skipBlanks source pos
  if (bytes source)[opening]?.any fun byte => byte == '\'' || byte == '"' then return opening + 1
  else return opening

/-- The place behind the label that closes a heredoc, on the line that starts at `line` or behind
it. -/
def heredocEnd (source : List Char) (label : List Char) (line : Nat) : Guarded (Option Nat) := do
  let rest ← textFrom source line
  let trimmed := Text.trimStart rest
  if label.isPrefixOf trimmed then
    let indent ← sub (Text.byteSize rest) (Text.byteSize trimmed)
    return some (line + indent + Text.byteSize label)
  else match find? ['\n'] rest with
    | none => return none
    | some offset =>
      if _h : left (bytes source) (line + offset + 1) < left (bytes source) line then
        heredocEnd source label (line + offset + 1)
      else throw .stuck
termination_by left (bytes source) line

/-- The place behind the label that closes a heredoc, on a line behind the one that `pos` is on. -/
def heredocClosing (source : List Char) (label : List Char) (pos : Nat) : Guarded (Option Nat) := do
  let rest ← textFrom source pos
  match find? ['\n'] rest with
  | some offset => heredocEnd source label (pos + offset + 1)
  | none => return none

/-- What one round of the lexer leaves: the place of the next round, and what the round adds. -/
structure LexStep where
  pos : Nat
  token? : Option Token
  error? : Option SyntaxError

namespace LexStep

/-- The range between two offsets as tokens and faults keep it. -/
def spanOf (start pos : Nat) : Span := ⟨toU32 start, toU32 pos⟩

def gap (pos : Nat) : LexStep := ⟨pos, none, none⟩

def token (kind : TokenKind) (start pos : Nat) : LexStep :=
  ⟨pos, some ⟨kind, spanOf start pos⟩, none⟩

/-- A round that ends with the text for want of an end. -/
def unclosed (kind? : Option TokenKind) (fault : SyntaxFault) (start pos : Nat) : LexStep :=
  ⟨pos, kind?.map (⟨·, spanOf start pos⟩), some (fault.atSpan (spanOf start pos))⟩

end LexStep

def lineComment (source : List Char) (start : Nat) : Guarded LexStep := do
  let stop ← skipWhile (· != '\n') source start
  return .gap stop

def blockComment (source : List Char) (start : Nat) : Guarded LexStep := do
  let rest ← textFrom source (start + 2)
  match find? ['*', '/'] rest with
  | some offset => return .gap (start + (2 + offset + 2))
  | none => return .unclosed none .unclosedComment start (bytes source).length

def string (source : List Char) (start : Nat) (quote : Char) : Guarded LexStep := do
  let (isClosed, stop) ← stringEnd source quote (start + 1)
  if isClosed then return .token .literal start stop
  else return .unclosed (some .literal) .unclosedString start (min stop (bytes source).length)

def heredoc (source : List Char) (start : Nat) : Guarded LexStep := do
  let opening ← labelStart source (start + 3)
  let (label, stop) ← name source opening
  if label = [] then
    let behind ← addU32 (toU32 start) 2
    return ⟨start + 2, some ⟨.attrOpen, ⟨toU32 start, behind⟩⟩, none⟩
  match ← heredocClosing source label stop with
  | some pos => return .token .literal start pos
  | none => return .unclosed (some .literal) .unclosedHeredoc start (bytes source).length

def variableName (source : List Char) (start : Nat) : Guarded LexStep := do
  let (text, stop) ← name source (start + 1)
  return .token (.variable (String.ofList text)) start stop

def number (source : List Char) (start : Nat) : Guarded LexStep := do
  let stop ← skipWhile Lexeme.isNumberChar source start
  return .token .literal start stop

/-- An absolute name; its leading backslash is put back in front. -/
def absoluteName (source : List Char) (start : Nat) : Guarded LexStep := do
  let (text, stop) ← qualifiedName source (start + 1)
  return .token (.ident (String.ofList ('\\' :: text))) start stop

def relativeName (source : List Char) (start : Nat) : Guarded LexStep := do
  let (text, stop) ← qualifiedName source start
  return .token (.ident (String.ofList text)) start stop

/-- A character by itself; behind the end there is none to move over. -/
def character (source : List Char) (start : Nat) : Guarded LexStep := do
  let rest ← textFrom source start
  let c := rest.headD (Char.ofNat 0)
  return .token (.punct c) start (start + max c.utf8Size 1)

/-- The round that starts with the byte `byte`, where `rest` are the bytes from there on. -/
def lexRound (source : List Char) (start : Nat) (byte : Char) (rest : List Char) :
    Guarded LexStep :=
  let starts (opening : List Char) : Bool := (bytes opening).isPrefixOf rest
  if Lexeme.isGap byte then return .gap (start + 1)
  else if starts ['<', '?'] then lineComment source start
  else if starts ['<', '<', '<'] then heredoc source start
  else if starts ['<', '<'] then return .token .attrOpen start (start + 2)
  else if starts ['>', '>'] then return .token .attrClose start (start + 2)
  else if starts ['/', '/'] then lineComment source start
  else if byte = '#' then lineComment source start
  else if starts ['/', '*'] then blockComment source start
  else if byte = '\'' ∨ byte = '"' ∨ byte = '`' then string source start byte
  else if starts [':', ':'] then return .token .doubleColon start (start + 2)
  else if starts ['-', '>'] then return .token .arrow start (start + 2)
  else if starts ['?', '-', '>'] then return .token .arrow start (start + 3)
  else if byte = '$' ∧ startsNameAt source (start + 1) then variableName source start
  else if byte.isDigit then number source start
  else if byte = '\\' ∧ startsNameAt source (start + 1) then absoluteName source start
  else if Lexeme.isNameStart byte then relativeName source start
  else character source start

/-- One round of the lexer. -/
def lexStep (source : List Char) (start : Nat) : Guarded LexStep := do
  let byte ← index (bytes source) start
  let rest ← range (bytes source) start (bytes source).length
  lexRound source start byte rest

/-- The tokens and faults from a place on. -/
def lexFrom (source : List Char) (pos : Nat) : Guarded TokenStream :=
  if pos < (bytes source).length then do
    let step ← lexStep source pos
    if _h : left (bytes source) step.pos < left (bytes source) pos then
      let later ← lexFrom source step.pos
      return ⟨step.token?.toList ++ later.tokens, step.error?.toList ++ later.errors⟩
    else throw .stuck
  else return ⟨[], []⟩
termination_by left (bytes source) pos

def tokenize (source : List Char) : Guarded TokenStream := lexFrom source 0

end Guarded
end ModuleVisibility
