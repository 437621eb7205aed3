/-!
JSON documents and their text: two blanks of indentation a level, one element or member a line, and
empty containers closed where they open. Members keep their order.
-/
namespace ModuleVisibility

inductive JsonValue where
  | number (n : Nat)
  | text (s : String)
  | list (items : List JsonValue)
  | object (members : List (String × JsonValue))

namespace JsonValue

/-- The value of the first member of a name. -/
def member? (name : String) : JsonValue → Option JsonValue
  | object members => members.lookup name
  | _ => none

/-- A character inside a quoted text; control characters have an escape or a number. -/
def quoteChar (c : Char) : List Char :=
  if c = '"' then ['\\', '"']
  else if c = '\\' then ['\\', '\\']
  else if c = '\n' then ['\\', 'n']
  else if c = '\r' then ['\\', 'r']
  else if c = '\t' then ['\\', 't']
  else if c = '\x08' then ['\\', 'b']
  else if c = '\x0c' then ['\\', 'f']
  else if c.toNat < 0x20 then
    ['\\', 'u', '0', '0', Nat.digitChar (c.toNat / 16), Nat.digitChar (c.toNat % 16)]
  else [c]

def quote (s : String) : String := String.ofList ('"' :: s.toList.flatMap quoteChar ++ ['"'])

/-- A new line at a depth. -/
def newline (depth : Nat) : String := "\n" ++ "".pushn ' ' (2 * depth)

/-- Written items between brackets, at a depth. -/
def enclose (depth : Nat) (opening closing : String) (items : List String) : String :=
  match items with
  | [] => opening ++ closing
  | _ :: _ =>
    opening ++ newline (depth + 1) ++ String.intercalate ("," ++ newline (depth + 1)) items
      ++ newline depth ++ closing

mutual

/-- The text of a value that stands at a depth. -/
def renderAt (depth : Nat) : JsonValue → String
  | number n => toString n
  | text s => quote s
  | list items => enclose depth "[" "]" (renderItems (depth + 1) items)
  | object members => enclose depth "\x7b" "\x7d" (renderMembers (depth + 1) members)

def renderItems (depth : Nat) : List JsonValue → List String
  | [] => []
  | v :: vs => renderAt depth v :: renderItems depth vs

def renderMembers (depth : Nat) : List (String × JsonValue) → List String
  | [] => []
  | (name, v) :: rest => (quote name ++ ": " ++ renderAt depth v) :: renderMembers depth rest

end

/-- The text of a document. -/
def render (v : JsonValue) : String := renderAt 0 v

end JsonValue
end ModuleVisibility
