import ModuleVisibility.Token.Lexer
import ModuleVisibility.Reference.Scan
import ModuleVisibility.Unit.Basic

/-!
Units in plain syntax. A plain unit has an optional directive and declarations whose bodies are made
of ten kinds of statement. It has a text, put together of pieces that are one lexeme each, and a
meaning, the unit that the text should be read as, with all its places forgotten.
-/
namespace ModuleVisibility

/-! Units without places. -/

def Reference.unplaced (r : Reference) : Reference := ⟨r.kind, .origin⟩

def UseClause.unplaced (c : UseClause) : UseClause := ⟨c.name, .origin⟩

def ModuleMention.unplaced (m : ModuleMention) : ModuleMention := ⟨m.name, .origin⟩

def Member.unplaced (m : Member) : Member :=
  ⟨m.name, m.kind, m.visibility, .origin, m.body.map Reference.unplaced⟩

def DeclarationContent.unplaced : DeclarationContent → DeclarationContent
  | .function body => .function (body.map Reference.unplaced)
  | .class uses members => .class (uses.map UseClause.unplaced) (members.map Member.unplaced)
  | .trait isModuleLevel uses members =>
    .trait isModuleLevel (uses.map UseClause.unplaced) (members.map Member.unplaced)
  | .constant => .constant

def Declaration.unplaced (d : Declaration) : Declaration :=
  ⟨d.name, d.visibility, .origin, d.content.unplaced⟩

/-- The unit with every place forgotten. -/
def CompilationUnit.unplaced (u : CompilationUnit) : CompilationUnit :=
  ⟨u.directive.map ModuleMention.unplaced, u.definitions.map ModuleMention.unplaced,
    u.declarations.map Declaration.unplaced⟩

namespace Plain

/-! Words and pieces. -/

/-- Whether the characters are those of one name without a namespace. -/
def isSimple (cs : List Char) : Bool := Lexeme.startsName cs && cs.all Lexeme.isNameChar

/-- A word of a text. -/
structure Word where
  name : String
  isSimple : isSimple name.toList = true

/-- A word that can name something: the scanner does not reserve it. -/
structure Ident extends Word where
  isFree : Reference.isReserved name = false

/-- The signs that are one character. -/
inductive Sign where
  | paren | closeParen | brace | closeBrace | semicolon | comma | colon | dot | equals

def Sign.char : Sign → Char
  | paren => '('
  | closeParen => ')'
  | brace => '\x7b'
  | closeBrace => '\x7d'
  | semicolon => ';'
  | comma => ','
  | colon => ':'
  | dot => '.'
  | equals => '='

/-- The smallest parts of a text. -/
inductive Piece where
  | word (w : Word)
  | variable (w : Word)
  | zero
  | sign (s : Sign)
  | doubleColon
  | arrow
  | attrOpen
  | attrClose
  | space
  | newline
  /-- What a file starts with, without the newline behind it. -/
  | openTag

/-- The lexeme that the piece is. -/
def Piece.lexeme : Piece → Lexeme
  | word w => ⟨.token (.ident w.name), w.name.toList⟩
  | .variable w => ⟨.token (.variable w.name), '$' :: w.name.toList⟩
  | zero => ⟨.token .literal, ['0']⟩
  | sign s => ⟨.token (.punct s.char), [s.char]⟩
  | doubleColon => ⟨.token .doubleColon, [':', ':']⟩
  | arrow => ⟨.token .arrow, ['-', '>']⟩
  | attrOpen => ⟨.token .attrOpen, ['<', '<']⟩
  | attrClose => ⟨.token .attrClose, ['>', '>']⟩
  | space => ⟨.blank, [' ']⟩
  | newline => ⟨.blank, ['\n']⟩
  | openTag => ⟨.lineComment, ['<', '?', 'h', 'h']⟩

namespace Keyword

def function : Piece := .word ⟨"function", by decide⟩

def «class» : Piece := .word ⟨"class", by decide⟩

def trait : Piece := .word ⟨"trait", by decide⟩

def const : Piece := .word ⟨"const", by decide⟩

def use : Piece := .word ⟨"use", by decide⟩

def module : Piece := .word ⟨"module", by decide⟩

def new : Piece := .word ⟨"new", by decide⟩

def self : Piece := .word ⟨"self", by decide⟩

def this : Piece := .variable ⟨"this", by decide⟩

def int : Piece := .word ⟨"int", by decide⟩

def void : Piece := .word ⟨"void", by decide⟩

def moduleLevel : Piece := .word ⟨"__ModuleLevelTrait", by decide⟩

end Keyword

/-- A visibility, if it is written; what is written without one is public. -/
def modifier : Option Visibility → List Piece
  | none => []
  | some .public => [.word ⟨"public", by decide⟩, .space]
  | some .internal => [.word ⟨"internal", by decide⟩, .space]

/-- A call without arguments, behind what is called. -/
def arguments : List Piece := [.sign .paren, .sign .closeParen]

/-! Statements. -/

/-- The statements of a body. -/
inductive Statement where
  | call (name : Ident)
  | constant (name : Ident)
  | new (owner : Ident)
  | staticCall (owner method : Ident)
  | classConstant (owner name : Ident)
  | staticProperty (owner name : Ident)
  | selfCall (method : Ident)
  | thisCall (method : Ident)
  | thisProperty (name : Ident)
  | newCall (owner method : Ident)

namespace Statement

/-- The text of a statement without its semicolon. -/
def expression : Statement → List Piece
  | call name => .word name.toWord :: arguments
  | constant name => [.word name.toWord]
  | new owner => Keyword.new :: .space :: .word owner.toWord :: arguments
  | staticCall owner method =>
      .word owner.toWord :: .doubleColon :: .word method.toWord :: arguments
  | classConstant owner name => [.word owner.toWord, .doubleColon, .word name.toWord]
  | staticProperty owner name => [.word owner.toWord, .doubleColon, .variable name.toWord]
  | selfCall method => Keyword.self :: .doubleColon :: .word method.toWord :: arguments
  | thisCall method => Keyword.this :: .arrow :: .word method.toWord :: arguments
  | thisProperty name => [Keyword.this, .arrow, .word name.toWord]
  | newCall owner method =>
    .sign .paren :: Keyword.new :: .space :: .word owner.toWord :: arguments
      ++ .sign .closeParen :: .arrow :: .word method.toWord :: arguments

def pieces (s : Statement) : List Piece := s.expression ++ [.sign .semicolon, .newline]

/-- What a statement refers to, in the order of the text. -/
def references : Statement → List ReferenceKind
  | call name => [.call name.name none]
  | constant name => [.constant name.name none]
  | new owner => [.new (.named owner.name)]
  | staticCall owner method => [.member (.named owner.name) method.name .method true]
  | classConstant owner name => [.member (.named owner.name) name.name .constant true]
  | staticProperty owner name => [.member (.named owner.name) name.name .property true]
  | selfCall method => [.member .current method.name .method true]
  | thisCall method => [.member .current method.name .method false]
  | thisProperty name => [.member .current name.name .property false]
  | newCall owner method =>
    [.new (.named owner.name), .member (.named owner.name) method.name .method false]

end Statement

/-- A body in braces, behind the parameters and the type of what is returned. -/
def block (body : List Statement) : List Piece :=
  arguments ++ [.sign .colon, .space, Keyword.void, .space, .sign .brace, .newline]
    ++ (body.flatMap Statement.pieces ++ [.sign .closeBrace, .newline])

def bodyMeaning (body : List Statement) : List Reference :=
  (body.flatMap Statement.references).map (⟨·, .origin⟩)

/-- A constant behind its keyword. -/
def constant (name : Ident) : List Piece :=
  [Keyword.int, .space, .word name.toWord, .space, .sign .equals, .space, .zero,
    .sign .semicolon, .newline]

/-! Classes and traits. -/

/-- The items of a class or trait. -/
inductive Item where
  | uses (first : Ident) (others : List Ident)
  | method (visibility : Option Visibility) (name : Ident) (body : List Statement)
  | constant (visibility : Option Visibility) (name : Ident)
  | property (visibility : Option Visibility) (name : Ident)

/-- Names with a sign between two of them, and a semicolon behind the last. -/
def names (between : List Piece) (first : Ident) : List Ident → List Piece
  | [] => [.word first.toWord, .sign .semicolon, .newline]
  | next :: others => .word first.toWord :: (between ++ names between next others)

namespace Item

def pieces : Item → List Piece
  | uses first others => Keyword.use :: .space :: names [.sign .comma, .space] first others
  | method visibility name body =>
    modifier visibility ++ Keyword.function :: .space :: .word name.toWord :: block body
  | constant visibility name =>
      modifier visibility ++ Keyword.const :: .space :: Plain.constant name
  | property visibility name =>
    modifier visibility ++ [Keyword.int, .space, .variable name.toWord, .space,
      .sign .equals, .space, .zero, .sign .semicolon, .newline]

/-- The clauses that the item adds to its class or trait. -/
def useClauses : Item → List UseClause
  | uses first others => (first :: others).map (⟨·.name, .origin⟩)
  | _ => []

/-- The members that the item adds. -/
def members : Item → List Member
  | uses _ _ => []
  | method visibility name body =>
    [⟨name.name, .method, visibility.getD .public, .origin, bodyMeaning body⟩]
  | constant visibility name => [⟨name.name, .constant, visibility.getD .public, .origin, []⟩]
  | property visibility name => [⟨name.name, .property, visibility.getD .public, .origin, []⟩]

end Item

/-- Items in braces. -/
def items (is : List Item) : List Piece :=
  [.space, .sign .brace, .newline] ++ (is.flatMap Item.pieces ++ [.sign .closeBrace, .newline])

/-! Declarations and units. -/

/-- What a plain declaration is, with what it holds. -/
inductive Content where
  | function (body : List Statement)
  | «class» (items : List Item)
  | trait (isModuleLevel : Bool) (items : List Item)
  | constant

/-- A plain declaration. -/
structure Declaration where
  visibility : Option Visibility
  name : Ident
  content : Content

namespace Content

/-- What stands before the modifier of a declaration. -/
def attributes : Content → List Piece
  | trait true _ => [.attrOpen, Keyword.moduleLevel, .attrClose, .space]
  | _ => []

/-- What stands behind the modifier of a declaration. -/
def pieces (name : Ident) : Content → List Piece
  | function body => Keyword.function :: .space :: .word name.toWord :: block body
  | .class is => Keyword.class :: .space :: .word name.toWord :: items is
  | trait _ is => Keyword.trait :: .space :: .word name.toWord :: items is
  | constant => Keyword.const :: .space :: Plain.constant name

def meaning : Content → DeclarationContent
  | function body => .function (bodyMeaning body)
  | .class is => .class (is.flatMap Item.useClauses) (is.flatMap Item.members)
  | trait isModuleLevel is =>
      .trait isModuleLevel (is.flatMap Item.useClauses) (is.flatMap Item.members)
  | constant => .constant

end Content

namespace Declaration

def pieces (d : Declaration) : List Piece :=
  d.content.attributes ++ (modifier d.visibility ++ d.content.pieces d.name)

def meaning (d : Declaration) : ModuleVisibility.Declaration :=
  ⟨d.name.name, d.visibility.getD .public, .origin, d.content.meaning⟩

end Declaration

/-- A dotted name of a module. -/
structure ModuleName where
  first : Ident
  others : List Ident

namespace ModuleName

def pieces (n : ModuleName) : List Piece :=
  Keyword.module :: .space :: names [.sign .dot] n.first n.others

def name (n : ModuleName) : String :=
  n.others.foldl (fun name part => name ++ "." ++ part.name) n.first.name

end ModuleName

/-- A plain unit. -/
structure Unit where
  directive : Option ModuleName
  declarations : List Declaration

namespace Unit

def pieces (u : Unit) : List Piece :=
  .openTag :: .newline :: (u.directive.toList.flatMap ModuleName.pieces
    ++ u.declarations.flatMap Declaration.pieces)

/-- The text of a unit. -/
def text (u : Unit) : String := String.ofList (u.pieces.flatMap fun p => p.lexeme.text)

/-- The unit that the text means. -/
def meaning (u : Unit) : CompilationUnit :=
  ⟨u.directive.map (⟨·.name, .origin⟩), [], u.declarations.map Declaration.meaning⟩

/-- A method that calls another one, and a constant of the module. -/
example : text ⟨some ⟨⟨⟨"m", by decide⟩, by decide⟩, []⟩,
    [⟨none, ⟨⟨"C", by decide⟩, by decide⟩,
        .class [.method (some .internal) ⟨⟨"f", by decide⟩, by decide⟩
          [.thisCall ⟨⟨"g", by decide⟩, by decide⟩]]⟩,
      ⟨some .public, ⟨⟨"K", by decide⟩, by decide⟩, .constant⟩]⟩ =
    "<?hh\nmodule m;\nclass C \x7b\ninternal function f(): void \x7b\n$this->g();\n\x7d\n\x7d\n"
      ++ "public const int K = 0;\n" := by decide +kernel

end Unit
end Plain
end ModuleVisibility
