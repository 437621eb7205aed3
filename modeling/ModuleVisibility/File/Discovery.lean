import ModuleVisibility.File.Tree

/-!
The files below a directory, in the order in which they are analyzed: depth first, the entries of
a directory by name.
-/
namespace ModuleVisibility

/-- Which entries below a directory count. -/
structure FileFilter where
  extensions : List String
  exclude : List String

namespace FileFilter

/-- Hidden and excluded entries are left out, with all that is below them. -/
def skips (f : FileFilter) (name : String) : Bool := name.startsWith "." || f.exclude.contains name

/-- Whether a file of a name is analyzed. -/
def accepts (f : FileFilter) (name : String) : Bool :=
  (PathText.extension? name).any f.extensions.contains

/-- The paths that entries give, the entries taken by name. -/
def inNameOrder (entries : List (String × List (List String))) : List (List String) :=
  (entries.mergeSort fun a b => decide (a.1 ≤ b.1)).flatMap Prod.snd

mutual

/-- The accepted files at an entry and below it, as names from the entry on. -/
def filesAt (f : FileFilter) (name : String) : FileNode → List (List String)
  | .file _ => if f.accepts name then [[name]] else []
  | .directory entries => (inNameOrder (listing f entries)).map (name :: ·)

/-- The accepted files of every entry that is not skipped. -/
def listing (f : FileFilter) : List (String × FileNode) → List (String × List (List String))
  | [] => []
  | (name, node) :: rest =>
    if f.skips name then listing f rest else (name, filesAt f name node) :: listing f rest

end

/-- The accepted files below a directory, as names from there on. -/
def filesBelow (f : FileFilter) (entries : List (String × FileNode)) : List (List String) :=
  inNameOrder (f.listing entries)

/-- The accepted files at a path, each as a path; none if the path leads nowhere. -/
def discover? (f : FileFilter) (v : FileView) (path : String) : Option (List String) :=
  (v.resolve? path).map fun
    | .file _ => if f.accepts (PathText.fileName path) then [path] else []
    | .directory entries => (f.filesBelow entries).map fun names => names.foldl PathText.join path

end FileFilter
end ModuleVisibility
