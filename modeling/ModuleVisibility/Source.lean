import ModuleVisibility.Text.Lines

/-!
The texts of one run. Units are numbered in the order in which they are added, and a byte range
of a unit is turned into lines and columns here.
-/
namespace ModuleVisibility

/-- The text of a unit under the name it is reported by. -/
structure SourceFile where
  path : String
  text : String
  deriving DecidableEq

namespace SourceFile

def chars (f : SourceFile) : List Char := f.text.toList

/-- Number of lines; a last newline starts none. -/
def lineCount (f : SourceFile) : Nat := (Text.lines f.chars).length

def position (f : SourceFile) (offset : Nat) : Position := Text.position f.chars offset

def line? (f : SourceFile) (line : Nat) : Option String :=
  (Text.line? f.chars line).map String.ofList

def slice? (f : SourceFile) (span : Span) : Option String :=
  (Text.slice? f.chars span).map String.ofList

end SourceFile

/-- A byte range of a unit with its positions. -/
structure Location where
  unit : Nat
  file : String
  span : Span
  start : Position
  stop : Position
  deriving DecidableEq

/-- The units of a run, by number. -/
structure SourceMap where
  files : List SourceFile

namespace SourceMap

def empty : SourceMap := ⟨[]⟩

def add (m : SourceMap) (f : SourceFile) : SourceMap := ⟨m.files ++ [f]⟩

def size (m : SourceMap) : Nat := m.files.length

def get? (m : SourceMap) (unit : Nat) : Option SourceFile := m.files[unit]?

/-- Where a byte range of a unit is; a unit that is not there has no name and no lines. -/
def locate (m : SourceMap) (unit : Nat) (span : Span) : Location :=
  match m.get? unit with
  | some f => ⟨unit, f.path, span, f.position span.lo, f.position span.hi⟩
  | none => ⟨unit, "", span, ⟨0, 0⟩, ⟨0, 0⟩⟩

end SourceMap
end ModuleVisibility
