import Mathlib.Data.List.Nodup
import ModuleVisibility.Proofs.Lookup
import ModuleVisibility.Proofs.SettingsSearch

/-!
Trees as a file system has them: the entries of a directory have different names, and every name can
stand in a path. What is below such a directory has one path from there on. Trees stay so when files
are put into them.
-/
namespace ModuleVisibility

namespace PathText

variable {name path : String} {names : List String}

/-- Whether a name can stand for an entry of a directory. -/
structure IsEntryName (name : String) : Prop where
  nonempty : name ≠ ""
  here : name ≠ "."
  above : name ≠ ".."
  slash : '/' ∉ name.toList

instance (name : String) : Decidable (IsEntryName name) :=
  decidable_of_iff (name ≠ "" ∧ name ≠ "." ∧ name ≠ ".." ∧ '/' ∉ name.toList)
    ⟨fun ⟨nonempty, here, above, slash⟩ => ⟨nonempty, here, above, slash⟩,
      fun ⟨nonempty, here, above, slash⟩ => ⟨nonempty, here, above, slash⟩⟩

theorem steps_join (path : String) (h : IsEntryName name) :
    steps (join path name) = steps path ++ [name] := by
  obtain ⟨front, hfront, hsteps⟩ := exists_components_join path h.slash
  have hname : [name].filter (fun c => c ≠ "" ∧ c ≠ ".") = [name] :=
    List.filter_cons_of_pos (decide_eq_true ⟨h.nonempty, h.here⟩)
  rw [steps, hfront, List.filter_append, hsteps, hname]

/-- Names below a path, as a path. -/
def below (path : String) (names : List String) : String := names.foldl join path

/-- The names can be read off the path. -/
theorem steps_below (h : ∀ name ∈ names, IsEntryName name) :
    steps (below path names) = steps path ++ names := by
  induction names generalizing path with
  | nil => exact (List.append_nil _).symm
  | cons name names ih =>
    obtain ⟨hname, hnames⟩ := List.forall_mem_cons.1 h
    rw [below, List.foldl_cons]
    exact (ih hnames).trans (by rw [steps_join path hname, List.append_assoc,
      List.singleton_append])

end PathText

open PathText

namespace FileNode

variable {node found : FileNode} {entries : List (String × FileNode)}
  {names : List String} {name : String}

/-- Whether each directory has entries under names, and no two under the same. -/
inductive Proper : FileNode → Prop
  | file (text : Option String) : Proper (file text)
  | directory {entries : List (String × FileNode)} (hnodup : (entries.map Prod.fst).Nodup)
      (hnames : ∀ entry ∈ entries, IsEntryName entry.1)
    (hchildren : ∀ entry ∈ entries, Proper entry.2) :
      Proper (directory entries)

@[simp] theorem get?_nil (node : FileNode) : node.get? [] = some node := by
  rw [get?]

theorem get?_cons_eq_some_iff {rest : List String} :
    (directory entries).get? (name :: rest) = some found ↔
    ∃ child, entries.lookup name = some child ∧ child.get? rest = some found := by
  rw [get?]
  exact Option.bind_eq_some_iff

/-- Names lead from a proper tree to proper trees, and they are such that a path can be made of
them. -/
theorem Proper.get? (h : node.Proper) (hfound : node.get? names = some found) :
    found.Proper ∧ ∀ name ∈ names, IsEntryName name := by
  induction names generalizing node with
  | nil =>
    rw [get?_nil] at hfound
    cases hfound
    exact ⟨h, by simp⟩
  | cons name rest ih =>
    cases h with
    | file text => cases hfound
    | directory hnodup hnames hchildren =>
      obtain ⟨child, hchild, hrest⟩ := get?_cons_eq_some_iff.1 hfound
      have hmem := mem_of_lookup_eq_some hchild
      obtain ⟨hproper, hall⟩ := ih (hchildren _ hmem) hrest
      exact ⟨hproper, List.forall_mem_cons.2 ⟨hnames _ hmem, hall⟩⟩

theorem proper_empty : (directory []).Proper := by
  apply Proper.directory <;> simp

/-- A proper directory with another entry, under a name of its own. -/
theorem Proper.append_entry (h : (FileNode.directory entries).Proper) (hname : IsEntryName name)
    (hnew : name ∉ entries.map Prod.fst) (hnode : node.Proper) :
    (FileNode.directory (entries ++ [(name, node)])).Proper := by
  cases h with
  | directory hnodup hnames hchildren =>
    apply Proper.directory
    · rw [List.map_append]
      exact hnodup.append (List.nodup_singleton _) (by simpa using hnew)
    · rw [List.forall_mem_append, List.forall_mem_singleton]
      exact ⟨hnames, hname⟩
    · rw [List.forall_mem_append, List.forall_mem_singleton]
      exact ⟨hchildren, hnode⟩

/-- A proper directory with something else under a name. -/
theorem Proper.replace_entry (h : (FileNode.directory entries).Proper) (name : String)
      (hnode : node.Proper) :
    (FileNode.directory (entries.map fun (k, v) => if k = name then (k, node)
      else (k, v))).Proper := by
  cases h with
  | directory hnodup hnames hchildren =>
    have hsame : ∀ entry : String × FileNode, (if entry.1 = name then (entry.1, node)
        else entry).1 = entry.1 := by
      intro entry
      split <;> rfl
    apply Proper.directory
    · rw [List.map_map]
      exact (List.map_congr_left fun entry _ => hsame entry) ▸ hnodup
    · rw [List.forall_mem_map]
      intro entry hentry
      exact (hsame entry).symm ▸ hnames entry hentry
    · rw [List.forall_mem_map]
      intro entry hentry
      simp only
      split
      · exact hnode
      · exact hchildren entry hentry

theorem insert_file (text : Option String) (node : FileNode) (name : String) (names : List String) :
    (file text).insert node (name :: names) = (directory []).insert node (name :: names) := by
  rw [insert, insert]

/-- A tree stays proper when a proper one is put into it. -/
theorem Proper.insert {root : FileNode} (hroot : root.Proper) (hnode : node.Proper)
    (hnames : ∀ name ∈ names, IsEntryName name) : (root.insert node names).Proper := by
  induction names generalizing root with
  | nil => rwa [FileNode.insert]
  | cons name rest ih =>
    obtain ⟨hname, hrest⟩ := List.forall_mem_cons.1 hnames
    have hdirectory : ∀ entries, (FileNode.directory entries).Proper →
        ((FileNode.directory entries).insert node (name :: rest)).Proper := by
      intro entries hentries
      rw [FileNode.insert]
      cases hlookup : entries.lookup name with
      | none =>
        apply hentries.append_entry hname _ (ih proper_empty hrest)
        intro hmem
        obtain ⟨entry, hentry, heq⟩ := List.mem_map.1 hmem
        exact bne_iff_ne.1 (List.lookup_eq_none_iff.1 hlookup entry hentry) heq.symm
      | some child =>
        apply hentries.replace_entry name
        exact ih (hentries.get? (get?_cons_eq_some_iff.2 ⟨child, hlookup, child.get?_nil⟩)).1 hrest
    cases root with
    | file text =>
      rw [insert_file]
      exact hdirectory [] proper_empty
    | directory entries => exact hdirectory entries hroot

/-- The tree that has some files, put in one after the other under their names. -/
def ofFiles (files : List (List String × Option String)) : FileNode :=
  files.foldl (fun (root : FileNode) written =>
    root.insert (.file written.2) written.1) (.directory [])

theorem proper_ofFiles {files : List (List String × Option String)}
    (h : ∀ written ∈ files, ∀ name ∈ written.1, IsEntryName name) : (ofFiles files).Proper := by
  induction files using List.reverseRecOn with
  | nil => exact proper_empty
  | append_singleton files last ih =>
    obtain ⟨hfiles, hlast⟩ := List.forall_mem_append.1 h
    rw [ofFiles, List.foldl_concat]
    exact (ih hfiles).insert (.file _) (List.forall_mem_singleton.1 hlast)

end FileNode

namespace FileView

variable {v : FileView} {path : String} {node found : FileNode} {names : List String}

theorem proper_resolve? (hroot : v.root.Proper) (h : v.resolve? path = some node) :
    node.Proper := by
  obtain ⟨above, hbelow, -⟩ := FileNode.Below.root.of_descend? (descend?_of_resolve? h)
  exact (hroot.get? hbelow.get?_reverse).1

theorem resolve?_join_entry {entries : List (String × FileNode)} {name : String}
    (h : v.resolve? path = some (.directory entries)) (hname : IsEntryName name) :
    v.resolve? (join path name) = entries.lookup name := by
  obtain ⟨above, hbelow, hrest⟩ := FileNode.Below.root.of_descend? (descend?_steps h).2
  rw [v.resolve?_join path hname.nonempty hname.slash, hrest,
    FileNode.descend?_name (by simp [hname.nonempty, hname.here]) hname.above]
  cases entries.lookup name with
  | none => rfl
  | some child => exact FileNode.descend?_nil child (.directory entries :: above)

/-- A path with names below it leads where the names lead from where the path leads. -/
theorem resolve?_below (h : v.resolve? path = some node) (hnames : ∀ name ∈ names, IsEntryName name)
    (hfound : node.get? names = some found) : v.resolve? (below path names) = some found := by
  induction names generalizing path node with
  | nil =>
    rw [FileNode.get?_nil] at hfound
    rwa [← hfound]
  | cons name rest ih =>
    obtain ⟨hname, hrest⟩ := List.forall_mem_cons.1 hnames
    cases node with
    | file text => cases hfound
    | directory entries =>
      obtain ⟨child, hchild, hfound⟩ := FileNode.get?_cons_eq_some_iff.1 hfound
      rw [below, List.foldl_cons]
      apply ih _ hrest hfound
      rw [resolve?_join_entry h hname, hchild]

end FileView

end ModuleVisibility
