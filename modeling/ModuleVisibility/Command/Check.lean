import ModuleVisibility.Command.Invocation
import ModuleVisibility.Command.Response
import ModuleVisibility.File.Discovery
import ModuleVisibility.Report.Document
import ModuleVisibility.Report.Excerpt
import ModuleVisibility.Settings.Load

/-!
Checking the files at a path. What is shown comes from one report, and the exit code goes by the
outcome of the check.
-/
namespace ModuleVisibility

inductive ReportFormat where
  | pretty
  | text
  | json
  deriving DecidableEq

def ReportFormat.ofText? : String → Option ReportFormat
  | "pretty" => some .pretty
  | "text" => some .text
  | "json" => some .json
  | _ => none

/-- Why a check cannot be done. -/
inductive CheckFault where
  | unknownFormat (format : String)
  | unknownSeverity (severity : String)
  | missingPath (path : String)
  | unreadable (path : String) (fault : ReadFault)
  deriving DecidableEq

def CheckFault.message : CheckFault → String
  | unknownFormat format =>
    "Invalid format '" ++ format ++ "'. Valid values: pretty, text, json"
  | unknownSeverity severity =>
    "Invalid severity '" ++ severity ++ "'. Valid values: error, warning, info, hint"
  | missingPath path => "Path does not exist: " ++ path
  | unreadable path fault =>
    "Failed to read " ++ path ++ "\n\nCaused by:\n    " ++ fault.message

namespace Report

/-- What a check shows, by format. -/
def shown (r : Report) (mode : ColorMode) : ReportFormat → String
  | .json => r.document.render ++ "\n"
  | .text => r.compact mode
  | .pretty =>
    if r.diagnostics.isEmpty then
      (Style.bold .green).paint mode "✓" ++ " No problems found in " ++ toString r.fileCount
        ++ " file(s)\n"
    else r.pretty mode

/-- The report on files. -/
def ofFiles (settings : Settings) (minimum : Severity) (workingDirectory path : String)
    (files : List SourceFile) : Report :=
  ofAnalysis (Analysis.ofFiles (.ofSettings settings.diagnostics) files) minimum workingDirectory
    path files.length

end Report

namespace CheckRequest

/-- The format and the least severity asked for. -/
def presentation (r : CheckRequest) : Except CheckFault (ReportFormat × Severity) := do
  let format ← match ReportFormat.ofText? r.format with
    | some format => pure format
    | none => throw (.unknownFormat r.format)
  match r.severity with
  | none => return (format, .hint)
  | some text =>
    match Severity.ofText? text with
    | some severity => return (format, severity)
    | none => throw (.unknownSeverity text)

/-- Where the search for settings starts: at a directory, or beside a file. -/
def settingsStart (r : CheckRequest) (v : FileView) : String :=
  if v.isFile r.path then (PathText.parent? r.path).getD "." else r.path

def filter (settings : Settings) : FileFilter := ⟨settings.effectiveExtensions, settings.exclude⟩

/-- The files to check, with their texts. -/
def sources (r : CheckRequest) (v : FileView) (settings : Settings) :
    Except CheckFault (List SourceFile) :=
  match (filter settings).discover? v r.path with
  | none => .error (.missingPath r.path)
  | some paths => paths.mapM fun path =>
    match v.read path with
    | .ok text => .ok ⟨path, text⟩
    | .error fault => .error (.unreadable path fault)

/-- Colors are off if the request or the environment does not want them. -/
def mode (r : CheckRequest) (colors : ColorEnvironment) : ColorMode :=
  if r.noColor || colors.noColor.isSome then .plain else colors.mode

/-- Warnings, a line each. -/
def warningLines (mode : ColorMode) (warnings : List String) : String :=
  unlines (warnings.map fun w => (Style.bold .yellow).paint mode "warning:" ++ " " ++ w)

/-- What a check of files shows, and its outcome. -/
def examine (r : CheckRequest) (s : Surroundings) (format : ReportFormat) (minimum : Severity)
    (settings : Settings) (files : List SourceFile) : String × CheckOutcome :=
  if files.isEmpty && format != .json then ("No Hack files found.\n", .idle)
  else
    let report := Report.ofFiles settings minimum s.files.currentPath r.path files
    (report.shown (r.mode s.colors) format, report.outcome)

/-- The answer to a check of files. -/
def respond (r : CheckRequest) (s : Surroundings) (format : ReportFormat) (minimum : Severity)
    (settings : Settings) (files : List SourceFile) : Response :=
  let (output, outcome) := r.examine s format minimum settings files
  ⟨outcome.code r.failOnWarnings, output, "", none⟩

/-- Checks the files at a path. -/
def run (r : CheckRequest) (s : Surroundings) : Response :=
  match r.presentation with
  | .error fault => .failure fault.message
  | .ok (format, minimum) =>
    let (settings, warnings) := Settings.loadOrDefault s.files (r.settingsStart s.files)
    let response : Response := match r.sources s.files settings with
      | .error fault => .failure fault.message
      | .ok files => r.respond s format minimum settings files
    { response with
      errors := warningLines (r.mode s.colors) warnings ++ response.errors }

end CheckRequest
end ModuleVisibility
