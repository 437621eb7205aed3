import ModuleVisibility.Source

/-!
Files that hold several units. A line of four slashes and a name starts a unit of that name; what
stands before the first such line is a unit of its own unless it is blank.
-/
namespace ModuleVisibility
namespace Section

/-- The start of a line that separates units. -/
def mark : List Char := ['/', '/', '/', '/']

/-- The name of the unit that a line starts; a fifth slash or no name makes it an ordinary line. -/
def heading? (line : List Char) : Option (List Char) :=
  match Text.dropStart? mark (Text.trimEnd line) with
  | none => none
  | some name =>
    if Text.trim name = [] ∨ name.head? = some '/' then none else some (Text.trim name)

/-- The text before the first heading, and each heading's name with the text under it. -/
def group : List (List Char) → List Char × List (List Char × List Char)
  | [] => ([], [])
  | line :: rest =>
    let (before, sections) := group rest
    match heading? line with
    | some name => ([], (name, before) :: sections)
    | none => (line ++ before, sections)

/-- The path of a named section of a file. -/
def pathOf (path : String) (name : List Char) : String := path ++ "#" ++ String.ofList name

end Section

/-- The units of a file. -/
def SourceFile.units (f : SourceFile) : List SourceFile :=
  match Section.group (Text.lines f.chars) with
  | (_, []) => [f]
  | (before, sections) =>
    let named := sections.map fun (name, text) =>
      ⟨Section.pathOf f.path name, String.ofList text⟩
    if Text.trim before = [] then named else ⟨f.path, String.ofList before⟩ :: named

end ModuleVisibility
