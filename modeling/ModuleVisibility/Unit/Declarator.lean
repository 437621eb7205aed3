import ModuleVisibility.Reference.Scan
import ModuleVisibility.Unit.Basic

/-!
The names that a constant or property statement declares, and the initializer of each. Both work
on the tokens of one statement, without its semicolon.
-/
namespace ModuleVisibility

/-- A declared name with the tokens behind it in its statement. -/
structure Declarator where
  name : String
  span : Span
  after : List Token
  deriving DecidableEq

namespace Declarator

/-- Whether the token opens any bracket. -/
def opensGroup (t : Token) : Bool := t.isPunct '(' || t.isPunct '[' || t.isPunct '\x7b'

/-- Whether the token closes any bracket. -/
def closesGroup (t : Token) : Bool := t.isPunct ')' || t.isPunct ']' || t.isPunct '\x7d'

/-- The names outside every bracket that are followed by an equals sign, where `depth` brackets
are open now. -/
def assigned : Nat → List Token → List Declarator
  | _, [] => []
  | depth, t :: ts =>
    if opensGroup t then assigned (depth + 1) ts
    else if closesGroup t then assigned (depth - 1) ts
    else
      match t.ident? with
      | some name =>
        if depth = 0 && Reference.headIs (·.isPunct '=') ts then
          ⟨name, t.span, ts⟩ :: assigned depth ts
        else assigned depth ts
      | none => assigned depth ts

/-- The last name of a statement. -/
def lastName? : List Token → Option Declarator
  | [] => none
  | t :: ts => (lastName? ts).orElse fun _ => t.ident?.map (⟨·, t.span, ts⟩)

/-- The constants of a statement: each assigned name, or the last name if nothing is assigned. -/
def constants (ts : List Token) : List Declarator :=
  match assigned 0 ts with
  | [] => (lastName? ts).toList
  | found => found

/-- The properties of a statement: variables before an equals sign, a comma or the end. Behind the
first equals sign only a variable right behind a comma counts. -/
def properties (assigned afterComma : Bool) : List Token → List Declarator
  | [] => []
  | t :: ts =>
    let later := properties (assigned || t.isPunct '=') (t.isPunct ',') ts
    match t.kind with
    | .variable name =>
      if (ts.isEmpty || Reference.headIs (fun n => n.isPunct '=' || n.isPunct ',') ts)
          && (!assigned || afterComma) then ⟨name, t.span, ts⟩ :: later
      else later
    | _ => later

/-- The tokens before the first comma outside parentheses and square brackets. -/
def upToComma : Nat → List Token → List Token
  | _, [] => []
  | depth, t :: ts =>
    if t.isPunct '(' || t.isPunct '[' then t :: upToComma (depth + 1) ts
    else if t.isPunct ')' || t.isPunct ']' then t :: upToComma (depth - 1) ts
    else if t.isPunct ',' && depth == 0 then []
    else t :: upToComma depth ts

/-- The initializer of a declared name, empty if it has none. -/
def initializer (d : Declarator) : List Token :=
  match d.after with
  | [] => []
  | t :: ts => if t.isPunct '=' then upToComma 0 ts else []

/-- The member that the name declares. -/
def toMember (ns : String) (kind : MemberKind) (visibility : Visibility) (d : Declarator) :
    Member :=
  ⟨d.name, kind, visibility, d.span, scanReferences ns d.initializer⟩

end Declarator
end ModuleVisibility
