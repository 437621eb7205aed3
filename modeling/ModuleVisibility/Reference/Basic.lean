import ModuleVisibility.Text.Span

/-!
References, the places in a body that use something declared elsewhere.
-/
namespace ModuleVisibility

inductive MemberKind where
  | method
  | constant
  | property
  deriving DecidableEq

namespace MemberKind

/-- The kind, as messages call it. -/
def text : MemberKind → String
  | method => "method"
  | constant => "constant"
  | property => "property"

/-- Methods come first and properties last. -/
def rank : MemberKind → Nat
  | method => 0
  | constant => 1
  | property => 2

end MemberKind

/-- The class that a reference goes through. -/
inductive ClassRef where
  | named (name : String)
  /-- The class through which the running member was reached. -/
  | current
  deriving DecidableEq

inductive ReferenceKind where
  /-- A call; `fallback` is the global function meant when nothing has the first name. -/
  | call (name : String) (fallback : Option String)
  /-- A constant, with a fallback like that of a call. -/
  | constant (name : String) (fallback : Option String)
  | new (owner : ClassRef)
  | member (owner : ClassRef) (name : String) (kind : MemberKind) (isStatic : Bool)
  deriving DecidableEq

structure Reference where
  kind : ReferenceKind
  span : Span
  deriving DecidableEq

end ModuleVisibility
