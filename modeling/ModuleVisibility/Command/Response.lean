import ModuleVisibility.File.Tree
import ModuleVisibility.Report.Style

/-!
What a command sees and what it answers. Commands are functions: the only change they ask for is a
file to write.
-/
namespace ModuleVisibility

/-- What decides about colors, apart from the arguments. -/
structure ColorEnvironment where
  noColor : Option String
  /-- Colors even if the output is no terminal. -/
  forced : Option String
  preferred : Option String
  isTerminal : Bool
  deriving DecidableEq

namespace ColorEnvironment

/-- A variable is on unless it is zero. -/
def isOn (value : String) : Bool := value != "0"

/-- Forced colors go first, then the wish for none, then what a terminal can show. -/
def mode (e : ColorEnvironment) : ColorMode :=
  if e.forced.any isOn then .colored
  else if e.noColor.isSome then .plain
  else if e.preferred.all isOn && e.isTerminal then .colored
  else .plain

end ColorEnvironment

/-- What a command is run in. -/
structure Surroundings where
  files : FileView
  colors : ColorEnvironment

/-- What a command answers. -/
structure Response where
  code : Nat
  output : String
  errors : String
  /-- A file to write: its path and its text. -/
  written : Option (List String × String)
  deriving DecidableEq

namespace Response

def success (output : String) : Response := ⟨0, output, "", none⟩

/-- The answer of a command that could not do its work. -/
def failure (message : String) : Response := ⟨1, "", "Error: " ++ message ++ "\n", none⟩

end Response
end ModuleVisibility
