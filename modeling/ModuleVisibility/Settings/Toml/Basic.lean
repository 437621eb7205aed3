/-!
Values of a TOML document. Of numbers and dates only the kind is kept, since no setting is one.
Tables remember how they were written, which decides whether later lines may add to them.
-/
namespace ModuleVisibility

/-- How a table came to be. -/
inductive TableForm where
  /-- Between braces; complete as it stands. -/
  | inline
  /-- Under a header of its own. -/
  | header
  /-- Named by a longer header only. -/
  | implied
  /-- Named by the front of a dotted key. -/
  | dotted
  deriving DecidableEq

inductive TomlValue where
  | text (s : String)
  | boolean (b : Bool)
  | number
  | dateTime
  | list (items : List TomlValue)
  | table (form : TableForm) (entries : List (String × TomlValue))
  /-- The tables under headers in double brackets. -/
  | tables (items : List TomlValue)

/-- Keys and values, in the order in which they were written. -/
abbrev TomlEntries := List (String × TomlValue)

/-- A key with its dots: the keys of the tables around a value and the value's own key. -/
structure KeyPath where
  tables : List String
  last : String
  deriving DecidableEq

/-- A key path as it is written when it needs no quotes. -/
def KeyPath.text (p : KeyPath) : String := String.intercalate "." (p.tables ++ [p.last])

/-- One statement of a document. -/
inductive TomlStatement where
  | header (path : KeyPath)
  | itemHeader (path : KeyPath)
  | entry (path : KeyPath) (value : TomlValue)

/-- Why a text is no TOML document. -/
inductive TomlFault where
  | malformed (line : Nat)
  /-- A key gets a second meaning. -/
  | redefined (path : KeyPath)
  deriving DecidableEq

def TomlFault.message : TomlFault → String
  | malformed line => "malformed statement at line " ++ toString line
  | redefined path => "cannot define `" ++ path.text ++ "` here"

namespace TomlValue

/-- Whether a value is a list or a table that holds nothing. -/
def isEmptyContainer : TomlValue → Bool
  | list [] => true
  | table _ [] => true
  | tables [] => true
  | _ => false

end TomlValue
end ModuleVisibility
