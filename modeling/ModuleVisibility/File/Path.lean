/-!
Paths as text. A path is kept as it was written, so that everything found below it is shown the
same way; an empty component or a single dot stands for no step.
-/
namespace ModuleVisibility.PathText

/-- A name below a path. -/
def join (base name : String) : String :=
  if base.isEmpty || base.endsWith "/" then base ++ name else base ++ "/" ++ name

/-- The components of a path. -/
def components (path : String) : List String := (path.toList.splitOn '/').map String.ofList

/-- The names that components come down to, each step up taking back the name before it. -/
def namesOf (components : List String) : List String :=
  (components.foldl (fun names c =>
    if c = "" ∨ c = "." then names else if c = ".." then names.drop 1 else c :: names) []).reverse

def isAbsolute (path : String) : Bool := path.startsWith "/"

/-- The front of a path that no step leaves: the root, or a dot for the current directory. -/
def anchor : List Char → List Char
  | '/' :: _ => ['/']
  | ['.'] => ['.']
  | '.' :: '/' :: _ => ['.']
  | _ => []

/-- A reversed path without the steps at its end that lead nowhere. -/
def trimSteps : List Char → List Char
  | '/' :: cs => trimSteps cs
  | '.' :: '/' :: cs => trimSteps cs
  | ['.'] => []
  | cs => cs

/-- A reversed path without its last component. -/
def dropComponent (cs : List Char) : List Char := (cs.dropWhile (· != '/')).drop 1

/-- The path one step up. The root and the empty path have none. -/
def parentChars? (path : List Char) : Option (List Char) :=
  let start := anchor path
  match trimSteps (path.drop start.length).reverse with
  | [] => if start = ['.'] then some [] else none
  | back => some (start ++ (trimSteps (dropComponent back)).reverse)

theorem anchor_length_le (path : List Char) : (anchor path).length ≤ path.length := by
  unfold anchor
  split <;> simp

theorem trimSteps_length_le (cs : List Char) : (trimSteps cs).length ≤ cs.length := by
  fun_induction trimSteps cs <;> simp_all <;> omega

theorem dropComponent_length_lt {cs : List Char} (h : cs ≠ []) :
    (dropComponent cs).length < cs.length := by
  have hle := (List.dropWhile_sublist (· != '/') : (cs.dropWhile (· != '/')).Sublist cs).length_le
  have hpos := List.length_pos_iff.2 h
  simp only [dropComponent, List.length_drop]
  omega

/-- Going up ends, since every step makes the path shorter. -/
theorem parentChars?_length_lt {path up : List Char} (h : parentChars? path = some up) :
    up.length < path.length := by
  have hle := anchor_length_le path
  simp only [parentChars?] at h
  split at h
  · split at h
    · next hs =>
      simp only [Option.some.injEq] at h
      subst h
      rw [hs] at hle
      exact Nat.lt_of_lt_of_le Nat.zero_lt_one hle
    · cases h
  · next back hne =>
    simp only [Option.some.injEq] at h
    subst h
    have h1 := trimSteps_length_le (path.drop (anchor path).length).reverse
    have h2 := dropComponent_length_lt hne
    have h3 := trimSteps_length_le
      (dropComponent (trimSteps (path.drop (anchor path).length).reverse))
    simp only [List.length_reverse, List.length_drop, List.length_append] at *
    omega

def parent? (path : String) : Option String := (parentChars? path.toList).map String.ofList

/-- A path and all the paths above it, the nearest first. -/
def ancestorChars (path : List Char) : List (List Char) :=
  match _h : parentChars? path with
  | none => [path]
  | some up => path :: ancestorChars up
termination_by path.length
decreasing_by exact parentChars?_length_lt _h

def ancestors (path : String) : List String := (ancestorChars path.toList).map String.ofList

/-- What stands behind the last dot of a name. A dot in front makes a hidden name, not an
extension. -/
def extension? (name : String) : Option String :=
  let cs := name.toList.reverse
  match cs.dropWhile (· != '.') with
  | '.' :: _ :: _ =>
    if name = ".." then none else some (String.ofList (cs.takeWhile (· != '.')).reverse)
  | _ => none

/-- The last component of a path that names a file. -/
def fileName (path : String) : String := (components path).getLastD ""

end ModuleVisibility.PathText
