import ModuleVisibility.Settings.Toml.Number

/-!
Dates written as tables. A table whose first key is the tag stands for the date in the tag's text,
and its other entries do not count. The text is a date by itself, so nothing may follow it, and it
is judged less strictly than a date of a document: midnight may be hour 24, and the distance from
universal time may be a whole day.
-/
namespace ModuleVisibility
namespace Toml

/-- Whether a text is a distance from universal time, or empty. -/
def isOffset : List Char → Bool
  | [] => true
  | ['Z'] => true
  | ['z'] => true
  | c :: cs => (c == '+' || c == '-') && ((minutes? cs).any (· ≤ 24 * 60))
where
  /-- The minutes in hours and minutes. -/
  minutes? (cs : List Char) : Option Nat := do
    let (hours, cs) ← fixed? 2 0 99 cs
    let (minutes, cs) ← fixed? 2 0 99 (← expect? ':' cs)
    if cs.isEmpty then return hours * 60 + minutes else none

/-- Whether a text is a date, a time or both. Only a date with a time has a distance from universal
time. -/
def isTaggedDate (cs : List Char) : Bool :=
  match skipDate? cs with
  | some [] => true
  | some (c :: rest) =>
    (c == 'T' || c == 't' || c == ' ') && (skipTime? 24 rest).any isOffset
  | none => (skipTime? 24 cs).any List.isEmpty

end Toml

namespace TomlValue

/-- The key that marks a table as a date. -/
def dateTag : String := "$__toml_private_datetime"

/-- Whether a value is the text of a date. -/
def isDateText : TomlValue → Bool
  | text s => Toml.isTaggedDate s.toList
  | _ => false

mutual

/-- The value with dates for the tables that are marked as dates, unless one of them holds none. -/
def untag? : TomlValue → Option TomlValue
  | table form entries =>
    match entries with
    | [] => some (table form [])
    | (key, v) :: rest =>
      if key = dateTag then (if v.isDateText then some dateTime else none)
      else do
        let v' ← untag? v
        return table form ((key, v') :: (← untagEntries? rest))
  | list items => list <$> untagItems? items
  | tables items => tables <$> untagItems? items
  | text s => some (text s)
  | boolean b => some (boolean b)
  | number => some number
  | dateTime => some dateTime

def untagItems? : List TomlValue → Option (List TomlValue)
  | [] => some []
  | v :: rest => do
    let v' ← untag? v
    return v' :: (← untagItems? rest)

def untagEntries? : List (String × TomlValue) → Option (List (String × TomlValue))
  | [] => some []
  | (key, v) :: rest => do
    let v' ← untag? v
    return (key, v') :: (← untagEntries? rest)

end

end TomlValue
end ModuleVisibility
