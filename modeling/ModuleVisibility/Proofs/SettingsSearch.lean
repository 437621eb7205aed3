import ModuleVisibility.Command.Check
import ModuleVisibility.Proofs.Descent

/-!
Which settings a check goes by. The search goes up along the path as it is written: it looks in the
directories that the fronts of the path lead to from where the path starts, the nearest first. From
the root on and without steps up, these are the directory that is checked and all above it. A path
without a root in front starts at the current directory, and nothing above that is looked at.
-/
namespace ModuleVisibility
open PathText

namespace FileView

/-- The names that a path goes on from: those of the current directory, unless it starts at the
root. -/
def base (v : FileView) (path : String) : List String := if isAbsolute path then [] else v.current

theorem steps_eq_base (v : FileView) (path : String) :
    v.steps path = v.base path ++ components path := by
  simp only [FileView.steps, base]
  split <;> rfl

theorem base_congr (v : FileView) {a b : String} (h : isAbsolute a = isAbsolute b) :
    v.base a = v.base b := by
  rw [base, base, h]

variable {v : FileView} {path name : String} {node : FileNode}

theorem descend?_of_resolve? (h : v.resolve? path = some node) :
    v.root.descend? [] (v.base path ++ components path) = some node := by
  rw [resolve?, steps_eq_base] at h
  split at h
  · cases h
  · exact h

theorem components_ne_nil (path : String) : components path ≠ [] := by
  rw [components_eq, ne_eq, List.map_eq_nil_iff]
  exact List.splitOn_ne_nil _ _

/-- A path that leads somewhere leads there without the components that lead nowhere, and what it
goes on from is a directory. -/
theorem descend?_steps (h : v.resolve? path = some node) :
    (∃ entries, v.root.descend? [] (v.base path) = some (.directory entries)) ∧
      v.root.descend? [] (v.base path ++ PathText.steps path) = some node := by
  have hfound := descend?_of_resolve? h
  obtain ⟨entries, hbase⟩ := FileNode.exists_directory_of_descend? (components_ne_nil path) hfound
  obtain ⟨above, -, hrest⟩ := FileNode.Below.root.of_descend? hbase
  rw [hrest] at hfound
  exact ⟨⟨entries, hbase⟩, by rw [hrest]; exact FileNode.descend?_filter hfound⟩

/-- What a name below a path leads to. -/
theorem resolve?_join (v : FileView) (path : String) (hname : name ≠ "")
    (hslash : '/' ∉ name.toList) :
    v.resolve? (join path name) =
      v.root.descend? [] (v.base path ++ PathText.steps path ++ [name]) := by
  have hsome : (join path name).isEmpty ≠ true := by
    have hchars : name.toList ≠ [] := by rwa [ne_eq, String.toList_eq_nil_iff]
    rw [ne_eq, String.isEmpty_iff, ← String.toList_eq_nil_iff, toList_join]
    split <;> simp [hchars]
  obtain ⟨front, hfront, hsteps⟩ := exists_components_join path hslash
  rw [resolve?, if_neg hsome, steps_eq_base, hfront, base_congr v (isAbsolute_join hslash),
    ← List.append_assoc, FileNode.descend?_filter_append, List.filter_append, hsteps]
  conv => rhs; rw [FileNode.descend?_filter_append, List.filter_append, PathText.steps,
    List.filter_filter]
  simp only [Bool.and_self, PathText.steps]

end FileView

namespace FileNode

/-- The settings file in the first directory that has one. -/
def firstSettings? (root : FileNode) (places : List (List String)) : Option FileNode :=
  places.findSome? fun place => root.get? (place ++ [Settings.fileName])

end FileNode

namespace Settings

/-- The settings of a file: the defaults if there is none, or if it cannot be used. -/
def ofNode? : Option FileNode → Settings
  | none => default
  | some node =>
    match node.read with
    | .error _ => default
    | .ok text =>
      match ofText text with
      | .error _ => default
      | .ok (settings, _) => settings

theorem loadOrDefault_fst (v : FileView) (start : String) :
    (loadOrDefault v start).1 = ofNode? ((find? v start).bind v.resolve?) := by
  unfold loadOrDefault
  cases hfind : find? v start with
  | none => rfl
  | some path =>
    have hexists : v.exists? path = true := List.find?_some (by rw [find?] at hfind; exact hfind)
    obtain ⟨node, hnode⟩ := Option.isSome_iff_exists.1 hexists
    rw [Option.bind_some, hnode]
    simp only [load, ofNode?, FileView.read, hnode]
    cases node.read with
    | error fault => rfl
    | ok text =>
      cases hsettings : ofText text with
      | error fault => simp [Except.mapError, bind, Except.bind, hsettings]
      | ok settings => simp [Except.mapError, bind, Except.bind, hsettings]

/-- The search looks in the directories that the fronts of the path lead to. -/
theorem find?_bind_resolve? (v : FileView) (start : String) :
    (find? v start).bind v.resolve? =
      (fronts (steps start)).findSome? fun front =>
        v.root.descend? [] (v.base start ++ front ++ [fileName]) := by
  have hfirst : ∀ paths : List String, (paths.find? v.exists?).bind v.resolve? =
      paths.findSome? v.resolve? := by
    intro paths
    induction paths with
    | nil => rfl
    | cons path paths ih =>
      rw [List.find?_cons, List.findSome?_cons, ← ih, FileView.exists?]
      cases hpath : v.resolve? path with
      | none => rfl
      | some node => exact hpath
  rw [find?, hfirst, List.findSome?_map, ← findSome?_ancestors]
  rw [← List.head?_filterMap, ← List.head?_filterMap]
  refine congrArg List.head? (List.filterMap_congr fun above habove => ?_)
  rw [Function.comp_apply, v.resolve?_join above (by decide) (by decide),
    v.base_congr (isAbsolute_of_mem_ancestors habove)]

end Settings

namespace CheckRequest

/-- The directory that is checked, or that holds the file that is checked, as names from the root
on. -/
def directory (r : CheckRequest) (v : FileView) : List String :=
  let names := namesOf (v.steps r.path)
  if v.isFile r.path then names.dropLast else names

/-- The steps to that directory as the path writes them. -/
def directorySteps (r : CheckRequest) (v : FileView) : List String :=
  if v.isFile r.path then (steps r.path).dropLast else steps r.path

/-- The directories that are searched for settings, in order. -/
def searched (r : CheckRequest) (v : FileView) : List (List String) :=
  (fronts (r.directorySteps v)).map fun front => namesOf (v.base r.path ++ front)

variable {r : CheckRequest} {v : FileView}

/-- A path to a file has a step. -/
theorem steps_ne_nil_of_isFile (h : v.isFile r.path = true) : steps r.path ≠ [] := by
  obtain ⟨node, hnode, hfile⟩ := (Option.any_eq_true _ _).1 h
  obtain ⟨⟨entries, hbase⟩, hsteps⟩ := FileView.descend?_steps hnode
  intro hnone
  rw [hnone, List.append_nil, hbase] at hsteps
  cases hsteps
  cases hfile

theorem steps_settingsStart (r : CheckRequest) (v : FileView) :
    steps (r.settingsStart v) = r.directorySteps v := by
  unfold settingsStart directorySteps
  split
  · next hfile => exact steps_parent?_getD r.path (steps_ne_nil_of_isFile hfile)
  · rfl

theorem base_settingsStart (r : CheckRequest) (v : FileView) :
    v.base (r.settingsStart v) = v.base r.path := by
  refine v.base_congr ?_
  unfold settingsStart
  split
  · next hfile => exact isAbsolute_parent?_getD r.path (steps_ne_nil_of_isFile hfile)
  · rfl

/-- Every front of the steps leads to a directory. -/
theorem exists_directory_of_front (h : v.exists? r.path = true) {front : List String}
    (hfront : front <+: r.directorySteps v) :
    ∃ entries, v.root.descend? [] (v.base r.path ++ front) = some (.directory entries) := by
  obtain ⟨node, hnode⟩ := Option.isSome_iff_exists.1 h
  have hsteps := (FileView.descend?_steps hnode).2
  unfold directorySteps at hfront
  split at hfront
  · next hfile =>
    obtain ⟨back, hback⟩ := hfront
    obtain ⟨last, hlast⟩ : ∃ last, steps r.path = (steps r.path).dropLast ++ [last] :=
      ⟨_, (List.dropLast_append_getLast (steps_ne_nil_of_isFile hfile)).symm⟩
    rw [hlast, ← hback, List.append_assoc, ← List.append_assoc] at hsteps
    exact FileNode.exists_directory_of_descend? (by simp) hsteps
  · next hfile =>
    obtain ⟨back, hback⟩ := hfront
    rw [← hback, ← List.append_assoc] at hsteps
    cases back with
    | nil =>
      rw [List.append_nil] at hsteps
      cases node with
      | file text => exact absurd (by rw [FileView.isFile, hnode]; rfl) hfile
      | directory entries => exact ⟨entries, hsteps⟩
    | cons step back => exact FileNode.exists_directory_of_descend? (by simp) hsteps

/-- The settings file that is found is that of the first directory searched that has one. -/
theorem found_eq (h : v.exists? r.path = true) :
    (Settings.find? v (r.settingsStart v)).bind v.resolve? =
      v.root.firstSettings? (r.searched v) := by
  rw [Settings.find?_bind_resolve?, steps_settingsStart, base_settingsStart,
    FileNode.firstSettings?, searched, List.findSome?_map, ← List.head?_filterMap,
    ← List.head?_filterMap]
  refine congrArg List.head? (List.filterMap_congr fun front hfront => ?_)
  obtain ⟨entries, hdirectory⟩ := exists_directory_of_front h (mem_fronts.1 hfront)
  exact FileNode.descend?_concat hdirectory (by decide) (by decide)

/-- Without steps up, the steps are added to the names that the path goes on from. -/
theorem namesOf_base_append {front : List String} (hup : ".." ∉ steps r.path)
    (hfront : front <+: steps r.path) :
    namesOf (v.base r.path ++ front) = namesOf (v.base r.path) ++ front := by
  refine namesOf_append_of_plain fun c hc => ?_
  have hmem : c ∈ steps r.path := hfront.subset hc
  have hstep := List.of_mem_filter hmem
  simp only [ne_eq, decide_eq_true_eq] at hstep
  exact ⟨hstep.1, hstep.2, fun heq => hup (heq ▸ hmem)⟩

theorem directorySteps_front (r : CheckRequest) (v : FileView) :
    r.directorySteps v <+: steps r.path := by
  unfold directorySteps
  split
  · exact List.dropLast_prefix _
  · exact List.prefix_rfl

theorem directory_eq (hup : ".." ∉ steps r.path) :
    r.directory v = namesOf (v.base r.path) ++ r.directorySteps v := by
  have hnames : namesOf (v.steps r.path) = namesOf (v.base r.path) ++ steps r.path := by
    rw [FileView.steps_eq_base, ← namesOf_base_append hup List.prefix_rfl]
    exact namesOf_append_filter _ _
  unfold directory directorySteps
  rw [hnames]
  split
  · next hfile => exact List.dropLast_append_of_ne_nil (steps_ne_nil_of_isFile hfile)
  · rfl

/-- Without steps up, the directories searched are the one that is checked and those above it, down
from where the path starts. -/
theorem searched_eq (hup : ".." ∉ steps r.path) :
    r.searched v = (fronts (r.directory v)).filter (namesOf (v.base r.path)).isPrefixOf := by
  rw [directory_eq hup, filter_fronts_append, searched]
  exact List.map_congr_left fun front hfront =>
    namesOf_base_append hup ((mem_fronts.1 hfront).trans (r.directorySteps_front v))

theorem searched_eq_of_isAbsolute (hup : ".." ∉ steps r.path)
    (habsolute : isAbsolute r.path = true) :
    r.searched v = fronts (r.directory v) := by
  have hbase : v.base r.path = [] := if_pos habsolute
  rw [searched_eq hup, hbase]
  exact List.filter_eq_self.2 fun _ _ => rfl

/-- How a check finds its settings. -/
structure SearchesUp (r : CheckRequest) (v : FileView) : Prop where
  /-- The settings file is that of the first directory that has one, on the way up the path as it is
  written. -/
  found : (Settings.find? v (r.settingsStart v)).bind v.resolve? =
    v.root.firstSettings? (r.searched v)
  /-- The defaults count only if none of these directories has one, or if it cannot be used. -/
  settings : (Settings.loadOrDefault v (r.settingsStart v)).1 =
    Settings.ofNode? (v.root.firstSettings? (r.searched v))
  /-- Without steps up, these are the directories from the one that is checked up to where the path
  starts. -/
  within : ".." ∉ steps r.path →
    r.searched v = (fronts (r.directory v)).filter (namesOf (v.base r.path)).isPrefixOf
  /-- From the root on, the settings are those of the nearest directory at or above the one that is
  checked. -/
  nearest : ".." ∉ steps r.path → isAbsolute r.path = true →
    (Settings.loadOrDefault v (r.settingsStart v)).1 =
    Settings.ofNode? (v.root.firstSettings? (fronts (r.directory v)))

theorem searchesUp_settingsStart (r : CheckRequest) (v : FileView) (h : v.exists? r.path = true) :
    r.SearchesUp v where
  found := found_eq h
  settings := by rw [Settings.loadOrDefault_fst, found_eq h]
  within := searched_eq
  nearest hup habsolute := by
    rw [Settings.loadOrDefault_fst, found_eq h, searched_eq_of_isAbsolute hup habsolute]

/-- A project with settings that is checked from the directory of its sources. -/
def inSources : FileView where
  root := .directory [("modscope.toml", .file (some "extensions = [\"hh\"]\n")),
    ("src", .directory [("a.php", .file (some "<?hh\n"))])]
  current := ["src"]

/-- A check of a path as it is done without options. -/
def plain (path : String) : CheckRequest := ⟨path, "pretty", false, none, false⟩

theorem searchesUp_root : inSources.exists? "/src/a.php" = true ∧
      (plain "/src/a.php").SearchesUp inSources := by
  have h : inSources.exists? "/src/a.php" = true := by decide +kernel
  exact ⟨h, searchesUp_settingsStart _ _ h⟩

/-- The search does not get above the current directory from a dot, though there are settings above
it. -/
theorem not_settings_nearest : inSources.exists? "." = true ∧
    (Settings.loadOrDefault inSources ((plain ".").settingsStart inSources)).1 ≠
      Settings.ofNode? (inSources.root.firstSettings?
        (fronts ((plain ".").directory inSources))) := by
  decide +kernel

-- A step up brings the search back to where the path starts.
example : (plain "../src").searched inSources = [["src"], [], ["src"]] := by decide +kernel

end CheckRequest
end ModuleVisibility
