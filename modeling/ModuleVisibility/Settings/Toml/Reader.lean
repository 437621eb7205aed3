import ModuleVisibility.Settings.Toml.Number
import ModuleVisibility.Settings.Toml.Table

/-!
Reading a TOML document: values, statements and the tables that the statements make.
-/
namespace ModuleVisibility.Toml

/-- A value that holds no other values. -/
def scalar? (cs : List Char) : Option (TomlValue × List Char) :=
  match cs with
  | '"' :: _ => (text? cs).map fun (s, rest) => (.text s, rest)
  | '\'' :: _ => (text? cs).map fun (s, rest) => (.text s, rest)
  | 't' :: 'r' :: 'u' :: 'e' :: rest => some (.boolean true, rest)
  | 'f' :: 'a' :: 'l' :: 's' :: 'e' :: rest => some (.boolean false, rest)
  | _ => (dateTime? cs).or (number? cs)

/-- The items of a list up to its closing bracket. The list may go over several lines, and its last
item may have a comma. -/
def items? (item : Reader TomlValue) : Nat → Reader (List TomlValue)
  | 0, _ => none
  | fuel + 1, cs =>
    match skipFiller false cs with
    | ']' :: rest => some ([], rest)
    | cs => do
      let (v, rest) ← item cs
      match skipFiller false rest with
      | ',' :: rest =>
        let (vs, rest) ← items? item fuel rest
        return (v :: vs, rest)
      | ']' :: rest => return ([v], rest)
      | _ => none

/-- A key path, the sign after it and a value. -/
def keyValue? (item : Reader TomlValue) (cs : List Char) :
    Option ((KeyPath × TomlValue) × List Char) := do
  let (path, rest) ← keyPath? nestingLimit cs
  let rest ← expect? '=' rest
  let (v, rest) ← item (skipGap rest)
  return ((path, v), rest)

/-- The members of a table between braces; there is at least one. -/
def members? (item : Reader TomlValue) : Nat → Reader (List (KeyPath × TomlValue))
  | 0, _ => none
  | fuel + 1, cs => do
    let (m, rest) ← keyValue? item cs
    match skipGap rest with
    | ',' :: rest =>
      let (ms, rest) ← members? item fuel rest
      return (m :: ms, rest)
    | '\x7d' :: rest => return ([m], rest)
    | _ => none

/-- A table between braces, read behind the opening one. -/
def inlineTable? (item : Reader TomlValue) (cs : List Char) :
    Option (TomlValue × List Char) :=
  match skipGap cs with
  | '\x7d' :: rest => some (.table .inline [], rest)
  | _ => do
    let (members, rest) ← members? item cs.length cs
    let entries ← TomlEntries.ofMembers? members
    return (.table .inline entries, rest)

/-- A value with at most `depth` values around each other. -/
def value? : Nat → Reader TomlValue
  | depth + 1, '[' :: cs =>
    (items? (value? depth) (cs.length + 1) cs).map fun (vs, rest) => (.list vs, rest)
  | depth + 1, '\x7b' :: cs => inlineTable? (value? depth) cs
  | _, cs => scalar? cs

/-- A statement without the end of its line. -/
def statement? : Reader TomlStatement
  | '[' :: '[' :: cs => do
    let (path, rest) ← keyPath? nestingLimit cs
    match rest with
    | ']' :: ']' :: rest => return (.itemHeader path, rest)
    | _ => none
  | '[' :: cs => do
    let (path, rest) ← keyPath? nestingLimit cs
    match rest with
    | ']' :: rest => return (.header path, rest)
    | _ => none
  | cs => do
    let ((path, v), rest) ← keyValue? (value? nestingLimit) cs
    return (.entry path v, rest)

/-- The statement of a line, if there is one, and the lines behind it. -/
def line? (cs : List Char) : Option (Option TomlStatement × List Char) :=
  match lineEnd? cs with
  | some rest => some (none, rest)
  | none => do
    let (s, rest) ← statement? (skipGap cs)
    return (some s, ← lineEnd? rest)

/-- The statements of a text, or the text from the first malformed line on. -/
def statements (fuel : Nat) (cs : List Char) : Except (List Char) (List TomlStatement) :=
  match fuel, cs with
  | 0, [] => .ok []
  | 0, cs => .error cs
  | _ + 1, [] => .ok []
  | fuel + 1, cs =>
    match line? cs with
    | none => .error cs
    | some (s, rest) => (s.toList ++ ·) <$> statements fuel rest

/-- A text without the mark of its byte order. -/
def skipByteOrderMark : List Char → List Char
  | '\ufeff' :: cs => cs
  | cs => cs

/-- The entries of a document. -/
def parse (text : String) : Except TomlFault TomlEntries :=
  let cs := skipByteOrderMark text.toList
  match statements cs.length cs with
  | .ok ss => TomlEntries.ofStatements ss
  | .error rest => .error (.malformed (cs.count '\n' - rest.count '\n' + 1))

end ModuleVisibility.Toml
