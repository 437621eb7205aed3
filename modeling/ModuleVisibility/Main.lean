import ModuleVisibility.Command.Run

/-!
The program. It takes a picture of the files that a command may look at, lets the command answer
from that, and does what the answer says.
-/
namespace ModuleVisibility.CommandLine

/-- A file or directory with all below it. Hidden entries and links are no part of the picture. -/
partial def takePicture (path : String) : IO (Option FileNode) := do
  let place := (← IO.currentDir) / path
  match (← place.metadata).type with
  | .dir =>
    let mut entries := #[]
    for entry in ← place.readDir do
      if !entry.fileName.startsWith "." && (← entry.path.symlinkMetadata).type != .symlink then
        if let some node ← takePicture entry.path.toString then
          entries := entries.push (entry.fileName, node)
    return some (.directory entries.toList)
  | .file => return some (.file (String.fromUTF8? (← IO.FS.readBinFile place)))
  | _ => return none

/-- A picture, if there is something to take it of. -/
def picture? (path : String) : IO (Option FileNode) := do
  try takePicture path catch _ => return none

/-- The view with a directory at a path, if there is one and nothing was there. -/
def addDirectory (v : FileView) (path : String) : IO FileView := do
  let names := PathText.namesOf (v.steps path)
  let isThere ← ((← IO.currentDir) / path).isDir
  if isThere && (v.root.get? names).isNone then
    return { v with root := v.root.insert (.directory []) names }
  return v

/-- The view with all at and below a path. -/
def addPicture (v : FileView) (path : String) : IO FileView := do
  match ← picture? path with
  | some node => return { v with root := v.root.insert node (PathText.namesOf (v.steps path)) }
  | none => return v

/-- The view with the settings files at and above a path. -/
def addSettings (v : FileView) (path : String) : IO FileView :=
  (PathText.ancestors path).foldlM
    (fun v above => addPicture v (PathText.join above Settings.fileName)) v

/-- What a command may look at. -/
def viewFor (invocation : Invocation) : IO FileView := do
  let here := (← IO.currentDir).toString
  let names := PathText.namesOf (PathText.components here)
  let v : FileView := ⟨(FileNode.directory []).insert (.directory []) names, names⟩
  match invocation with
  | .check request =>
    let withPath ← addPicture v request.path
    let fronts := (PathText.ancestors request.path).filter (· ≠ "")
    addSettings (← (here :: fronts).foldlM addDirectory withPath) request.path
  | _ => addSettings v here

def colorEnvironment : IO ColorEnvironment := do
  return ⟨← IO.getEnv "NO_COLOR", ← IO.getEnv "CLICOLOR_FORCE", ← IO.getEnv "CLICOLOR",
    ← (← IO.getStdout).isTty⟩

/-- Shows an answer and writes the file it asks for. -/
def carryOut (r : Response) : IO UInt32 := do
  if let some (names, text) := r.written then
    IO.FS.writeFile ("/" ++ String.intercalate "/" names) text
  IO.eprint r.errors
  IO.print r.output
  return r.code.toUInt32

end ModuleVisibility.CommandLine

open ModuleVisibility in
def main (arguments : List String) : IO UInt32 := do
  let view ← match Invocation.ofArguments arguments with
    | .ok invocation => CommandLine.viewFor invocation
    | .error _ => pure ⟨.directory [], []⟩
  CommandLine.carryOut (runArguments ⟨view, ← CommandLine.colorEnvironment⟩ arguments)
