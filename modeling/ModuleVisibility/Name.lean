import ModuleVisibility.Text.Character

/-!
Names and namespaces. A declared name is stored with its namespace in front and no leading
separator; the global namespace is the empty text. A written name is absolute, relative,
qualified or simple, and only a simple name of a function or constant may mean a global one too.
-/
namespace ModuleVisibility
namespace Name

/-- Stands between the parts of a qualified name. -/
def separator : Char := '\\'

/-- The stored form of `name` declared in `ns`. -/
def qualify (ns name : String) : String :=
  if ns = "" then name else ns ++ separator.toString ++ name

/-- What an absolute, relative or qualified name means in `ns`; a simple one has no such meaning. -/
def explicit? (ns written : String) : Option String :=
  match Text.splitFirst? separator written.toList with
  | none => none
  | some ([], rest) => some (String.ofList rest)
  | some (head, rest) =>
    if Text.lowerAscii (String.ofList head) = "namespace" then
      some (qualify ns (String.ofList rest))
    else some (qualify ns written)

/-- The class or trait that a written name means in `ns`. -/
def resolveClass (ns written : String) : String :=
  (explicit? ns written).getD (qualify ns written)

/-- What the name of a function or constant means: the name itself, and the global name that is
tried when nothing has the first. -/
structure Target where
  name : String
  fallback : Option String
  deriving DecidableEq

/-- The function or constant that a written name means in `ns`. -/
def resolveFunction (ns written : String) : Target :=
  match explicit? ns written with
  | some name => ⟨name, none⟩
  | none => ⟨qualify ns written, if ns = "" then none else some written⟩

end Name
end ModuleVisibility
