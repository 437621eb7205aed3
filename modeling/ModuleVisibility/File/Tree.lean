import ModuleVisibility.File.Path

/-!
Directory trees and what paths lead to in them.
-/
namespace ModuleVisibility

inductive FileNode where
  /-- A file; there is no text if its bytes spell none. -/
  | file (text : Option String)
  | directory (entries : List (String × FileNode))

/-- Why the text of a path could not be read. -/
inductive ReadFault where
  | missing
  | isDirectory
  | notText
  deriving DecidableEq

def ReadFault.message : ReadFault → String
  | missing => "No such file or directory (os error 2)"
  | isDirectory => "Is a directory (os error 21)"
  | notText => "stream did not contain valid UTF-8"

namespace FileNode

def isFile : FileNode → Bool
  | file _ => true
  | directory _ => false

/-- The text of a file. -/
def read : FileNode → Except ReadFault String
  | file (some text) => .ok text
  | file none => .error .notText
  | directory _ => .error .isDirectory

/-- What components lead to from a node below `parents`, the nearest first. Only directories have
something below them, and the root is its own parent. -/
def descend? (node : FileNode) (parents : List FileNode) : List String → Option FileNode
  | [] => some node
  | c :: cs =>
    match node with
    | file _ => none
    | directory entries =>
      if c = "" ∨ c = "." then descend? node parents cs
      else if c = ".." then
        match parents with
        | [] => descend? node [] cs
        | parent :: above => descend? parent above cs
      else match entries.lookup c with
        | none => none
        | some child => descend? child (node :: parents) cs

/-- What names lead to from a node. -/
def get? : FileNode → List String → Option FileNode
  | node, [] => some node
  | file _, _ :: _ => none
  | directory entries, name :: names => (entries.lookup name).bind (get? · names)

/-- The tree with a node at the end of names. Directories missing on the way are made, and a file
on the way gives place to one. -/
def insert (root : FileNode) (node : FileNode) : List String → FileNode
  | [] => node
  | name :: names =>
    let entries := match root with
      | directory entries => entries
      | file _ => []
    match entries.lookup name with
    | none => directory (entries ++ [(name, insert (directory []) node names)])
    | some child =>
      directory (entries.map fun (k, v) =>
        if k = name then (k, insert child node names) else (k, v))

end FileNode

/-- A tree as it is seen from one of its directories. -/
structure FileView where
  root : FileNode
  /-- The names that lead from the root to the current directory. -/
  current : List String

namespace FileView

/-- The current directory as an absolute path. -/
def currentPath (v : FileView) : String := "/" ++ String.intercalate "/" v.current

/-- The components of a path from the root on. -/
def steps (v : FileView) (path : String) : List String :=
  let components := PathText.components path
  if PathText.isAbsolute path then components else v.current ++ components

/-- What a path leads to; the empty path leads nowhere. -/
def resolve? (v : FileView) (path : String) : Option FileNode :=
  if path.isEmpty then none else v.root.descend? [] (v.steps path)

def exists? (v : FileView) (path : String) : Bool := (v.resolve? path).isSome

def isFile (v : FileView) (path : String) : Bool := (v.resolve? path).any FileNode.isFile

/-- The text of the file that a path leads to. -/
def read (v : FileView) (path : String) : Except ReadFault String :=
  match v.resolve? path with
  | none => .error .missing
  | some node => node.read

end FileView
end ModuleVisibility
