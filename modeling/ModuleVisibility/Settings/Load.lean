import ModuleVisibility.File.Tree
import ModuleVisibility.Settings.Decode

/-!
Finding and loading the settings of a project: the nearest settings file at or above a path. A file
that cannot be used leaves the defaults and a warning.
-/
namespace ModuleVisibility

/-- Why a settings file could not be used. -/
inductive LoadFault where
  | unreadable (path : String) (fault : ReadFault)
  | invalid (path : String) (fault : SettingsFault)
  deriving DecidableEq

def LoadFault.message : LoadFault → String
  | unreadable path fault => "Failed to read config file '" ++ path ++ "': " ++ fault.message
  | invalid path fault => "Invalid TOML in '" ++ path ++ "': " ++ fault.message

namespace Settings

/-- The name of every settings file. -/
def fileName : String := "modscope.toml"

/-- The settings file nearest to a path. -/
def find? (v : FileView) (start : String) : Option String :=
  ((PathText.ancestors start).map fun above => PathText.join above fileName).find? v.exists?

/-- The settings of a file, with what is odd about them. -/
def load (v : FileView) (path : String) :
    Except LoadFault (Settings × List SettingsWarning) := do
  let text ← (v.read path).mapError (.unreadable path)
  (ofText text).mapError (.invalid path)

/-- The settings for a path and what there is to say about them. -/
def loadOrDefault (v : FileView) (start : String) : Settings × List String :=
  match find? v start with
  | none => (default, [])
  | some path =>
    match load v path with
    | .ok (settings, warnings) => (settings, warnings.map SettingsWarning.message)
    | .error fault => (default, [fault.message])

end Settings
end ModuleVisibility
