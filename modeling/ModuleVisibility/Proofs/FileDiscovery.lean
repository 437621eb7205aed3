import Mathlib.Data.List.Lex
import Mathlib.Data.List.Sort
import Mathlib.Data.String.Basic
import ModuleVisibility.Proofs.ProperTree

/-!
Which files a check takes up. Below a directory these are the files with one of the extensions to
which no hidden and no excluded name leads, each once: depth first, and what is below a directory by
name. The names that lead to the directory itself do not count, and a single file is taken up by its
extension alone.
-/
namespace ModuleVisibility

namespace PathText

variable {name extension : String}

/-- Whether an extension stands behind the last dot of a name, with something in front of that dot.
The name of the directory above has none. -/
def HasExtension (name extension : String) : Prop :=
  name ≠ ".." ∧ '.' ∉ extension.toList ∧
    ∃ stem : List Char, stem ≠ [] ∧ name.toList = stem ++ '.' :: extension.toList

theorem hasExtension_of_extension? (h : extension? name = some extension) :
    HasExtension name extension := by
  have hsplit := List.takeWhile_append_dropWhile (p := (· != '.')) (l := name.toList.reverse)
  unfold extension? at h
  simp only at h
  split at h
  · next c rest hdrop =>
    split at h
    · cases h
    · next hup =>
      rw [hdrop] at hsplit
      apply Option.some.inj at h
      subst h
      refine ⟨hup, ?_, (c :: rest).reverse, by simp, ?_⟩
      · intro hdot
        rw [String.toList_ofList, List.mem_reverse] at hdot
        simpa using List.mem_takeWhile_imp hdot
      · have hname := congrArg List.reverse hsplit
        rw [List.reverse_append, List.reverse_cons, List.append_assoc, List.singleton_append,
          List.reverse_reverse]
          at hname
        rw [String.toList_ofList, hname]
  · cases h

theorem extension?_eq_some_iff : extension? name = some extension ↔
      HasExtension name extension := by
  constructor
  · exact hasExtension_of_extension?
  · rintro ⟨hup, hdot, stem, hstem, hname⟩
    have hreverse : name.toList.reverse =
        extension.toList.reverse ++ '.' :: stem.reverse := by simp [hname]
    have hfree : ∀ c ∈ extension.toList.reverse, (c != '.') = true := by
      intro c hc
      rw [List.mem_reverse] at hc
      exact bne_iff_ne.2 fun heq => hdot (heq ▸ hc)
    have hdrop : name.toList.reverse.dropWhile (· != '.') = '.' :: stem.reverse := by
      rw [hreverse, List.dropWhile_append_of_pos hfree]
      rfl
    have htake : name.toList.reverse.takeWhile (· != '.') = extension.toList.reverse := by
      rw [hreverse, List.takeWhile_append_of_pos hfree]
      simp
    obtain ⟨c, rest, hback⟩ := List.exists_cons_of_ne_nil (List.reverse_ne_nil_iff.2 hstem)
    unfold extension?
    simp only [hdrop, htake, hback, if_neg hup, List.reverse_reverse, String.ofList_toList]

end PathText

open PathText

namespace FileFilter
open FileNode

variable {f : FileFilter} {node : FileNode} {entries : List (String × FileNode)}
  {names : List String}
  {name : String}

theorem accepts_iff : f.accepts name = true ↔
      ∃ extension ∈ f.extensions, HasExtension name extension := by
  simp only [accepts, Option.any_eq_true, extension?_eq_some_iff, List.contains_iff_mem]
  exact exists_congr fun extension => and_comm

theorem skips_eq_false_iff : f.skips name = false ↔
      name.toList.head? ≠ some '.' ∧ name ∉ f.exclude := by
  have hhidden : name.startsWith "." = true ↔ name.toList.head? = some '.' := by
    rw [String.startsWith_string_iff, List.head?_eq_some_iff]
    exact exists_congr fun _ => eq_comm
  rw [← Bool.not_eq_true, skips, Bool.or_eq_true, hhidden, List.contains_iff_mem, not_or]

/-- Names lead from a node to a file, and none of them is left out. -/
structure LeadsToFile (f : FileFilter) (node : FileNode) (names : List String) : Prop where
  file : ∃ text, node.get? names = some (.file text)
  taken : ∀ name ∈ names, f.skips name = false

theorem leadsToFile_file_iff (text : Option String) :
    f.LeadsToFile (.file text) names ↔ names = [] := by
  constructor
  · rintro ⟨⟨other, hother⟩, -⟩
    cases names with
    | nil => rfl
    | cons name rest => cases hother
  · rintro rfl
    exact ⟨⟨text, get?_nil _⟩, by simp⟩

theorem not_leadsToFile_directory_nil : ¬ f.LeadsToFile (.directory entries) [] := by
  rintro ⟨⟨text, htext⟩, -⟩
  rw [get?_nil] at htext
  cases htext

theorem leadsToFile_cons_iff : f.LeadsToFile (.directory entries) (name :: rest) ↔
    f.skips name = false ∧ ∃ child, entries.lookup name = some child ∧
      f.LeadsToFile child rest := by
  constructor
  · rintro ⟨⟨text, htext⟩, htaken⟩
    obtain ⟨hname, hrest⟩ := List.forall_mem_cons.1 htaken
    obtain ⟨child, hchild, hfile⟩ := get?_cons_eq_some_iff.1 htext
    exact ⟨hname, child, hchild, ⟨text, hfile⟩, hrest⟩
  · rintro ⟨hname, child, hchild, ⟨text, hfile⟩, hrest⟩
    exact ⟨⟨text, get?_cons_eq_some_iff.2 ⟨child, hchild, hfile⟩⟩,
      List.forall_mem_cons.2 ⟨hname, hrest⟩⟩

theorem listing_eq (f : FileFilter) (entries : List (String × FileNode)) :
    f.listing entries =
      (entries.filter fun entry => !f.skips entry.1).map fun entry =>
        (entry.1, f.filesAt entry.1 entry.2) := by
  induction entries with
  | nil => rw [listing]; rfl
  | cons entry rest ih =>
    obtain ⟨name, node⟩ := entry
    rw [listing]
    cases hskips : f.skips name with
    | true => simpa [hskips] using ih
    | false => simpa [hskips] using ih

theorem filesAt_directory (f : FileFilter) (name : String) (entries : List (String × FileNode)) :
    f.filesAt name (.directory entries) = (f.filesBelow entries).map (name :: ·) := by
  rw [filesAt, filesBelow]

theorem mem_listing_iff {found : List (List String)} : (name, found) ∈ f.listing entries ↔
    ∃ node, (name, node) ∈ entries ∧ f.skips name = false ∧ f.filesAt name node = found := by
  simp [listing_eq, and_assoc]

theorem mem_filesBelow_iff : names ∈ f.filesBelow entries ↔
    ∃ name node, (name, node) ∈ entries ∧ f.skips name = false ∧ names ∈ f.filesAt name node := by
  simp only [filesBelow, inNameOrder, List.mem_flatMap, List.mem_mergeSort, Prod.exists,
    mem_listing_iff]
  constructor
  · rintro ⟨name, _, ⟨node, hmem, hskips, rfl⟩, hnames⟩
    exact ⟨name, node, hmem, hskips, hnames⟩
  · rintro ⟨name, node, hmem, hskips, hnames⟩
    exact ⟨name, _, ⟨node, hmem, hskips, rfl⟩, hnames⟩

/-- What is found at an entry are the files that are accepted and that the names lead to from
there. -/
theorem mem_filesAt_iff (h : node.Proper) : names ∈ f.filesAt name node ↔
    ∃ rest, names = name :: rest ∧ f.LeadsToFile node rest ∧
      f.accepts (names.getLastD "") = true := by
  -- Along the tree. Since names are different, what is listed under a name is what the name leads
  -- to.
  induction h generalizing name names with
  | file text =>
    simp only [leadsToFile_file_iff]
    rw [filesAt]
    split
    · simp_all
    · simp_all
  | @directory entries hnodup hnames hchildren ih =>
    rw [filesAt_directory, List.mem_map]
    simp only [mem_filesBelow_iff]
    constructor
    · rintro ⟨below, ⟨first, child, hmem, hskips, hbelow⟩, rfl⟩
      obtain ⟨rest, rfl, hleads, haccepts⟩ := (ih _ hmem).1 hbelow
      exact ⟨first :: rest, rfl,
        leadsToFile_cons_iff.2 ⟨hskips, child, (lookup_eq_some_iff_mem hnodup).2 hmem, hleads⟩,
        haccepts⟩
    · rintro ⟨below, rfl, hleads, haccepts⟩
      cases below with
      | nil => exact absurd hleads not_leadsToFile_directory_nil
      | cons first rest =>
        obtain ⟨hskips, child, hchild, hleads⟩ := leadsToFile_cons_iff.1 hleads
        have hmem := (lookup_eq_some_iff_mem hnodup).1 hchild
        exact ⟨first :: rest, ⟨first, child, hmem, hskips,
          (ih _ hmem).2 ⟨rest, rfl, hleads, haccepts⟩⟩, rfl⟩

/-- What is found below a directory are the files that are accepted and that the names lead to from
there. -/
theorem mem_filesBelow_iff_leadsToFile (h : (FileNode.directory entries).Proper) :
    names ∈ f.filesBelow entries ↔
    f.LeadsToFile (.directory entries) names ∧ f.accepts (names.getLastD "") = true := by
  -- The name that leads to the directory stands in front of all that is found and does not matter.
  have hat : "" :: names ∈ f.filesAt "" (.directory entries) ↔ _ := mem_filesAt_iff h
  rw [filesAt_directory, List.mem_map_of_injective List.cons_injective, List.getLastD_cons] at hat
  rw [hat]
  constructor
  · rintro ⟨rest, hrest, hleads, haccepts⟩
    cases hrest
    exact ⟨hleads, haccepts⟩
  · rintro ⟨hleads, haccepts⟩
    exact ⟨names, rfl, hleads, haccepts⟩

/-- Entries with different names are sorted strictly. -/
theorem pairwise_mergeSort_name {β : Type} {l : List (String × β)}
    (hnodup : (l.map Prod.fst).Nodup) :
    (l.mergeSort fun a b => decide (a.1 ≤ b.1)).Pairwise fun a b => a.1 < b.1 := by
  have hsorted : (l.mergeSort fun a b => decide (a.1 ≤ b.1)).Pairwise fun a b =>
      decide (a.1 ≤ b.1) = true := by
    apply List.pairwise_mergeSort
    · intro a b c hab hbc
      exact decide_eq_true (le_trans (of_decide_eq_true hab) (of_decide_eq_true hbc))
    · intro a b
      simpa using le_total a.1 b.1
  have hdistinct : (l.mergeSort fun a b => decide (a.1 ≤ b.1)).Pairwise fun a b => a.1 ≠ b.1 := by
    apply List.pairwise_map.1
    exact (((List.mergeSort_perm l _).map Prod.fst).nodup_iff).2 hnodup
  apply (hsorted.and hdistinct).imp
  rintro a b ⟨hle, hne⟩
  exact lt_of_le_of_ne (of_decide_eq_true hle) hne

/-- Where the paths of each entry start with its name, all paths are in order if those of every
entry are. -/
theorem pairwise_inNameOrder {l : List (String × List (List String))}
    (hnodup : (l.map Prod.fst).Nodup)
    (hfirst : ∀ entry ∈ l, ∀ names ∈ entry.2, names.head? = some entry.1)
    (hpaths : ∀ entry ∈ l, entry.2.Pairwise (· < ·)) : (inNameOrder l).Pairwise (· < ·) := by
  rw [inNameOrder, List.pairwise_flatMap]
  constructor
  · intro entry hentry
    exact hpaths entry (List.mem_mergeSort.1 hentry)
  · apply (pairwise_mergeSort_name hnodup).imp_of_mem
    intro a b ha hb hlt first hone second htwo
    obtain ⟨below, rfl⟩ := List.head?_eq_some_iff.1 (hfirst a (List.mem_mergeSort.1 ha) first hone)
    obtain ⟨other, rfl⟩ := List.head?_eq_some_iff.1 (hfirst b (List.mem_mergeSort.1 hb) second htwo)
    exact List.cons_lt_cons_iff.2 (.inl hlt)

theorem pairwise_filesBelow (hnodup : (entries.map Prod.fst).Nodup)
      (hchildren : ∀ entry ∈ entries, entry.2.Proper)
    (hpaths : ∀ entry ∈ entries, (f.filesAt entry.1 entry.2).Pairwise (· < ·)) :
    (f.filesBelow entries).Pairwise (· < ·) := by
  apply pairwise_inNameOrder
  · rw [listing_eq, List.map_map]
    exact hnodup.sublist (List.filter_sublist.map Prod.fst)
  · rintro ⟨name, found⟩ hentry names hnames
    obtain ⟨node, hmem, -, rfl⟩ := mem_listing_iff.1 hentry
    obtain ⟨rest, rfl, -⟩ := (mem_filesAt_iff (hchildren _ hmem)).1 hnames
    rfl
  · rintro ⟨name, found⟩ hentry
    obtain ⟨node, hmem, -, rfl⟩ := mem_listing_iff.1 hentry
    exact hpaths _ hmem

theorem pairwise_filesAt (h : node.Proper) (name : String) :
    (f.filesAt name node).Pairwise (· < ·) := by
  induction h generalizing name with
  | file text =>
    rw [filesAt]
    split
    · exact List.pairwise_singleton _ _
    · exact List.Pairwise.nil
  | directory hnodup hnames hchildren ih =>
    rw [filesAt_directory, List.pairwise_map]
    apply (pairwise_filesBelow hnodup hchildren fun entry hentry => ih entry hentry entry.1).imp
    intro first second hlt
    exact List.cons_lt_cons_iff.2 (.inr ⟨rfl, hlt⟩)

end FileFilter

/-- The files that are sought below a directory: those with one of the extensions that names lead to
of which none is hidden and none is excluded. -/
structure Settings.Sought (s : Settings) (directory : FileNode) (names : List String) : Prop where
  file : ∃ text, directory.get? names = some (.file text)
  visible : ∀ name ∈ names, name.toList.head? ≠ some '.' ∧ name ∉ s.exclude
  extension : ∃ extension ∈ s.effectiveExtensions, HasExtension (names.getLastD "") extension

namespace CheckRequest
open FileFilter

variable {s : Settings} {v : FileView} {path : String} {node : FileNode}
  {entries : List (String × FileNode)}
  {names : List String}

theorem sought_iff : s.Sought node names ↔
    (filter s).LeadsToFile node names ∧ (filter s).accepts (names.getLastD "") = true := by
  rw [accepts_iff]
  constructor
  · rintro ⟨hfile, hvisible, hextension⟩
    exact ⟨⟨hfile, fun name hname => skips_eq_false_iff.2 (hvisible name hname)⟩, hextension⟩
  · rintro ⟨⟨hfile, htaken⟩, hextension⟩
    exact ⟨hfile, fun name hname => skips_eq_false_iff.1 (htaken name hname), hextension⟩

/-- Files are given as paths below a directory: all that are sought, each once, and in order of the
first names that differ. So all that is below an entry comes together, and the entries of a
directory come by name. -/
structure Gives (s : Settings) (v : FileView) (path : String) (directory : FileNode)
    (found : List (List String)) :
    Prop where
  sought : ∀ names, names ∈ found ↔ s.Sought directory names
  order : found.Pairwise (· < ·)
  once : (found.map (below path)).Nodup
  leads : ∀ names ∈ found, v.resolve? (below path names) = directory.get? names

/-- There is one way to give them. -/
theorem Gives.unique {directory : FileNode} {found other : List (List String)}
    (h : Gives s v path directory found) (hother : Gives s v path directory other) :
    found = other :=
  h.order.eq_of_mem_iff hother.order fun names => (h.sought names).trans (hother.sought names).symm

theorem gives_filesBelow (hproper : (FileNode.directory entries).Proper)
    (h : v.resolve? path = some (.directory entries)) :
    Gives s v path (.directory entries) ((filter s).filesBelow entries) := by
  have hsought : ∀ names, names ∈ (filter s).filesBelow entries ↔
      s.Sought (.directory entries) names := by
    intro names
    rw [mem_filesBelow_iff_leadsToFile hproper, sought_iff]
  have horder : ((filter s).filesBelow entries).Pairwise (· < ·) := by
    cases hproper with
    | directory hnodup hnames hchildren =>
      exact pairwise_filesBelow hnodup hchildren fun entry hentry =>
        pairwise_filesAt (hchildren entry hentry) entry.1
  have hentries : ∀ names ∈ (filter s).filesBelow entries, ∀ name ∈ names, IsEntryName name := by
    intro names hnames
    obtain ⟨text, htext⟩ := ((hsought names).1 hnames).file
    exact (hproper.get? htext).2
  constructor
  · exact hsought
  · exact horder
  · have hnodup : ((filter s).filesBelow entries).Nodup := horder.imp ne_of_lt
    apply hnodup.map_on
    intro first hfirst second hsecond heq
    have hsteps := congrArg steps heq
    rw [steps_below (hentries first hfirst), steps_below (hentries second hsecond)] at hsteps
    exact List.append_cancel_left hsteps
  · intro names hnames
    obtain ⟨text, htext⟩ := ((hsought names).1 hnames).file
    rw [htext]
    exact FileView.resolve?_below h (hentries names hnames) htext

/-- What a check of a path takes up under some settings. -/
structure TakesUp (s : Settings) (v : FileView) (path : String) : Prop where
  directory : ∀ entries, v.resolve? path = some (.directory entries) → ∃ found,
    (filter s).discover? v path = some (found.map (below path)) ∧
    Gives s v path (.directory entries) found
  file : ∀ text, v.resolve? path = some (.file text) →
    (∃ extension ∈ s.effectiveExtensions, HasExtension (fileName path) extension) →
      (filter s).discover? v path = some [path]
  otherFile : ∀ text, v.resolve? path = some (.file text) →
    (¬ ∃ extension ∈ s.effectiveExtensions, HasExtension (fileName path) extension) →
      (filter s).discover? v path = some []
  nothing : v.resolve? path = none → (filter s).discover? v path = none

theorem takesUp_discover? (s : Settings) (path : String) (hroot : v.root.Proper) :
    TakesUp s v path := by
  constructor
  · intro entries h
    refine ⟨(filter s).filesBelow entries, ?_,
      gives_filesBelow (FileView.proper_resolve? hroot h) h⟩
    rw [discover?, h]
    rfl
  · intro text h hextension
    have haccepts : (filter s).accepts (fileName path) = true := accepts_iff.2 hextension
    simp [discover?, h, haccepts]
  · intro text h hextension
    have haccepts : (filter s).accepts (fileName path) ≠ true := fun hyes =>
      hextension (accepts_iff.1 hyes)
    simp [discover?, h, haccepts]
  · intro h
    rw [discover?, h]
    rfl

/-- Sources beside a hidden directory, an excluded one and notes. -/
def sourceTree : FileNode :=
  .ofFiles [(["src", "b.php"], some "<?hh\n"), (["src", ".git", "b.php"], none),
    (["src", "a", "c.hack"], some "module M;\n"), (["src", "a", "notes.txt"], some "\n"),
    (["src", "vendor", "d.php"], some "<?hh\n")]

theorem takesUp_sources :
    sourceTree.Proper ∧ TakesUp ⟨[], ["vendor"], true, .default⟩ ⟨sourceTree, []⟩ "src" := by
  have hproper : sourceTree.Proper := FileNode.proper_ofFiles (by decide +kernel)
  exact ⟨hproper, takesUp_discover? _ _ hproper⟩

-- A file that is named itself is taken up in a hidden directory, too.
example : (FileFilter.mk ["php", "hack"] ["vendor"]).discover? ⟨sourceTree, []⟩ "src/.git/b.php" =
    some ["src/.git/b.php"] := by
  decide +kernel

end CheckRequest
end ModuleVisibility
