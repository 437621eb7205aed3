import ModuleVisibility.Settings.Basic
import ModuleVisibility.Settings.Toml.Reader
import ModuleVisibility.Settings.Toml.TaggedDate

/-!
Settings out of a TOML document. What the document leaves out has its default; what no setting is
called is reported and otherwise ignored.
-/
namespace ModuleVisibility

/-- Why settings could not be read. -/
inductive SettingsFault where
  | toml (fault : TomlFault)
  /-- The value of an option is none that the option can have. -/
  | unsuitable (option : String)
  deriving DecidableEq

def SettingsFault.message : SettingsFault → String
  | toml fault => fault.message
  | unsuitable option => "`" ++ option ++ "` has no suitable value"

namespace Settings

/-- A list of texts. -/
def texts? : TomlValue → Option (List String)
  | .list items => items.mapM fun
    | .text s => some s
    | _ => none
  | _ => none

def boolean? : TomlValue → Option Bool
  | .boolean b => some b
  | _ => none

/-- A severity: its name, or the name with an empty value. -/
def severity? : TomlValue → Option Severity
  | .text s => Severity.ofText? s
  | .table _ [(key, v)] => if v.isEmptyContainer then Severity.ofText? key else none
  | _ => none

/-- Severities by identifier. -/
def severities? : TomlValue → Option (List (String × Severity))
  | .table _ entries => entries.mapM fun (id, v) => (severity? v).map (id, ·)
  | _ => none

/-- The options of a section: by name in a table, by place in a list. A date has none. -/
def options? (names : List String) : TomlValue → Option (String → Option TomlValue)
  | .table _ entries => some fun name => entries.lookup name
  | .list items => some fun name => (names.idxOf? name).bind (items[·]?)
  | .tables items => some fun name => (names.idxOf? name).bind (items[·]?)
  | .dateTime => some fun _ => none
  | _ => none

/-- The value of an option, or its default if it is not given. -/
def decode {α : Type} (option : String) (decode? : TomlValue → Option α) (fallback : α) :
    Option TomlValue → Except SettingsFault α
  | none => .ok fallback
  | some v =>
    match decode? v with
    | some a => .ok a
    | none => .error (.unsuitable option)

/-- The names of the options, by section. -/
def topOptions : List String := ["extensions", "exclude", "analysis", "diagnostics"]

def analysisOptions : List String := ["parallel"]

def diagnosticsOptions : List String := ["disabled", "severity"]

/-- The options of a section that need not be there. -/
def sectionOptions (name : String) (names : List String) (entries : TomlEntries) :
    Except SettingsFault (String → Option TomlValue) :=
  decode name (options? names) (fun _ => none) (entries.lookup name)

/-- The settings that the entries of a document make. -/
def ofEntries (entries : TomlEntries) : Except SettingsFault Settings := do
  let extensions ← decode "extensions" texts? [] (entries.lookup "extensions")
  let exclude ← decode "exclude" texts? [] (entries.lookup "exclude")
  let analysis ← sectionOptions "analysis" analysisOptions entries
  let isParallel ← decode "parallel" boolean? true (analysis "parallel")
  let diagnostics ← sectionOptions "diagnostics" diagnosticsOptions entries
  let disabled ← decode "disabled" texts? [] (diagnostics "disabled")
  let severity ← decode "severity" severities? [] (diagnostics "severity")
  return ⟨extensions, exclude, isParallel, ⟨disabled, severity⟩⟩

/-- The keys among which no option is named, in order. -/
def unknownKeys (names : List String) (entries : TomlEntries) : List String :=
  ((entries.map Prod.fst).filter fun key => !names.contains key).mergeSort fun a b => decide (a ≤ b)

/-- A warning for every key of a section that names no option. -/
def sectionWarnings (name : String) (names : List String) (entries : TomlEntries) :
    List SettingsWarning :=
  match entries.lookup name with
  | some (.table _ inner) => (unknownKeys names inner).map (.unknownSectionOption name)
  | _ => []

/-- A warning for every key that names no option. There is none in a section that is marked as a
date, and none at all if a table is marked as a date and holds none. -/
def keyWarnings (entries : TomlEntries) : List SettingsWarning :=
  match TomlValue.untagEntries? entries with
  | none => []
  | some entries =>
    (unknownKeys topOptions entries).map .unknownOption
      ++ sectionWarnings "analysis" analysisOptions entries
      ++ sectionWarnings "diagnostics" diagnosticsOptions entries

/-- The settings of a text, with what is odd about them. -/
def ofText (text : String) : Except SettingsFault (Settings × List SettingsWarning) := do
  let entries ← (Toml.parse text).mapError SettingsFault.toml
  let settings ← ofEntries entries
  return (settings, keyWarnings entries ++ settings.diagnostics.warnings)

end Settings
end ModuleVisibility
