import ModuleVisibility.File.Tree
import ModuleVisibility.Proofs.PathSteps

/-!
Where components lead in a tree. They come down to names, and where they lead to anything, they lead
where the names lead; on the way they pass through directories only.
-/
namespace ModuleVisibility

namespace PathText

/-- The names behind one more component, the last one first. -/
def stepNames (names : List String) (c : String) : List String :=
  if c = "" ∨ c = "." then names else if c = ".." then names.drop 1 else c :: names

theorem namesOf_eq (components : List String) :
    namesOf components = (components.foldl stepNames []).reverse :=
  rfl

/-- Components that take nothing back are added to the names before them. -/
theorem namesOf_append_of_plain {front back : List String}
    (h : ∀ c ∈ back, c ≠ "" ∧ c ≠ "." ∧ c ≠ "..") :
    namesOf (front ++ back) = namesOf front ++ back := by
  have hback : ∀ names, back.foldl stepNames names = back.reverse ++ names := by
    induction back with
    | nil => exact fun names => rfl
    | cons c back ih =>
      intro names
      obtain ⟨hempty, hdot, hup⟩ := h c List.mem_cons_self
      rw [List.foldl_cons, ih fun c hc => h c (List.mem_cons_of_mem _ hc), stepNames,
        if_neg (by tauto), if_neg hup, List.reverse_cons, List.append_assoc, List.singleton_append]
  rw [namesOf_eq, namesOf_eq, List.foldl_append, hback, List.reverse_append, List.reverse_reverse]

/-- Components that lead nowhere come down to no names. -/
theorem namesOf_append_filter (front back : List String) :
    namesOf (front ++ back) = namesOf (front ++ back.filter fun c => c ≠ "" ∧ c ≠ ".") := by
  have hback : ∀ names, back.foldl stepNames names =
      (back.filter fun c => c ≠ "" ∧ c ≠ ".").foldl stepNames names := by
    induction back with
    | nil => exact fun names => rfl
    | cons c back ih =>
      intro names
      by_cases hstay : c = "" ∨ c = "."
      · rw [List.filter_cons_of_neg (by simp; tauto), List.foldl_cons, stepNames, if_pos hstay, ih]
      · rw [List.filter_cons_of_pos (by simp; tauto), List.foldl_cons, List.foldl_cons, ih]
  rw [namesOf_eq, namesOf_eq, List.foldl_append, List.foldl_append, hback]

end PathText

namespace FileNode
open PathText

variable {root node found : FileNode} {parents : List FileNode} {entries : List (String × FileNode)}
  {names cs : List String} {c name : String}

@[simp] theorem descend?_nil (node : FileNode) (parents : List FileNode) :
    descend? node parents [] = some node := by
  unfold descend?
  rfl

/-- Nothing is below a file. -/
theorem descend?_file (text : Option String) (h : cs ≠ []) :
    descend? (file text) parents cs = none := by
  cases cs with
  | nil => exact absurd rfl h
  | cons c cs => rw [descend?.eq_def]

theorem descend?_stay (h : c = "" ∨ c = ".") :
    descend? (directory entries) parents (c :: cs) = descend? (directory entries) parents cs := by
  rw [descend?.eq_def]
  exact if_pos h

theorem descend?_up (parent : FileNode) :
    descend? (directory entries) (parent :: parents) (".." :: cs) = descend? parent parents cs :=
  rfl

theorem descend?_up_root :
    descend? (directory entries) [] (".." :: cs) = descend? (directory entries) [] cs := rfl

theorem descend?_name (h : ¬ (c = "" ∨ c = ".")) (hup : c ≠ "..") :
    descend? (directory entries) parents (c :: cs) =
      (entries.lookup c).bind fun child => descend? child (directory entries :: parents) cs := by
  rw [descend?.eq_def]
  simp only [if_neg h, if_neg hup]
  cases entries.lookup c <;> rfl

/-- What a component does in a directory does not depend on those behind it. -/
theorem descend?_directory_cases (entries : List (String × FileNode))
      (parents : List FileNode) (c : String) :
    (∃ next above, ∀ cs, descend? (directory entries) parents (c :: cs) = descend? next above cs) ∨
      ∀ cs, descend? (directory entries) parents (c :: cs) = none := by
  by_cases hstay : c = "" ∨ c = "."
  · exact .inl ⟨_, _, fun _ => descend?_stay hstay⟩
  by_cases hup : c = ".."
  · subst hup
    cases parents with
    | nil => exact .inl ⟨_, _, fun _ => descend?_up_root⟩
    | cons parent parents => exact .inl ⟨_, _, fun _ => descend?_up parent⟩
  · simp only [descend?_name hstay hup]
    cases entries.lookup c with
    | none => exact .inr fun _ => rfl
    | some child => exact .inl ⟨_, _, fun _ => rfl⟩

/-- What leads nowhere can be left out in front of a component. -/
theorem descend?_filter_append (last : String) :
    ∀ (cs : List String) (node : FileNode) (parents : List FileNode),
    descend? node parents (cs ++ [last]) =
      descend? node parents (cs.filter (fun c => c ≠ "" ∧ c ≠ ".") ++ [last])
  | [], _, _ => rfl
  | _ :: _, file text, _ => by rw [descend?_file text (by simp), descend?_file text (by simp)]
  | c :: cs, directory entries, parents => by
    by_cases hstay : c = "" ∨ c = "."
    · rw [List.cons_append, descend?_stay hstay, List.filter_cons_of_neg (by simp; tauto)]
      exact descend?_filter_append last cs _ _
    · rw [List.filter_cons_of_pos (by simp; tauto), List.cons_append, List.cons_append]
      rcases descend?_directory_cases entries parents c with ⟨next, above, hnext⟩ | hnone
      · rw [hnext, hnext]
        exact descend?_filter_append last cs _ _
      · rw [hnone, hnone]

/-- What leads nowhere can be left out where the components lead somewhere. -/
theorem descend?_filter : ∀ {cs : List String} {node : FileNode} {parents : List FileNode},
    descend? node parents cs = some found →
      descend? node parents (cs.filter fun c => c ≠ "" ∧ c ≠ ".") = some found
  | [], _, _, h => h
  | _ :: _, file text, _, h => by
    rw [descend?_file text (by simp)] at h
    cases h
  | c :: cs, directory entries, parents, h => by
    by_cases hstay : c = "" ∨ c = "."
    · rw [descend?_stay hstay] at h
      rw [List.filter_cons_of_neg (by simp; tauto)]
      exact descend?_filter h
    · rw [List.filter_cons_of_pos (by simp; tauto)]
      rcases descend?_directory_cases entries parents c with ⟨next, above, hnext⟩ | hnone
      · rw [hnext] at h ⊢
        exact descend?_filter h
      · rw [hnone] at h
        cases h

/-- Components that lead on lead to a directory first. -/
theorem exists_directory_of_descend? {back : List String} (hback : back ≠ []) :
    ∀ {cs : List String} {node : FileNode} {parents : List FileNode},
      descend? node parents (cs ++ back) = some found →
        ∃ entries, descend? node parents cs = some (directory entries)
  | cs, file text, _, h => by
    rw [descend?_file text (by simp [hback])] at h
    cases h
  | [], directory entries, parents, _ => ⟨entries, descend?_nil _ parents⟩
  | c :: cs, directory entries, parents, h => by
    rw [List.cons_append] at h
    rcases descend?_directory_cases entries parents c with ⟨next, above, hnext⟩ | hnone
    · rw [hnext] at h ⊢
      exact exists_directory_of_descend? hback h
    · rw [hnone] at h
      cases h

/-- The names lead from the root to a node, the last one first, with these nodes above it. -/
inductive Below (root : FileNode) : List String → FileNode → List FileNode → Prop
  | root : Below root [] root []
  | entry {names : List String} {entries : List (String × FileNode)}
    {parents : List FileNode} {name : String}
      {child : FileNode} (h : Below root names (directory entries) parents)
      (hchild : entries.lookup name = some child) :
    Below root (name :: names) child (directory entries :: parents)

theorem get?_concat (root : FileNode) (names : List String) (name : String) :
    root.get? (names ++ [name]) = (root.get? names).bind fun node => node.get? [name] := by
  induction names generalizing root with
  | nil => rw [List.nil_append, get?]; rfl
  | cons first names ih =>
    cases root with
    | file text => rfl
    | directory entries =>
      rw [List.cons_append, get?, get?]
      cases entries.lookup first with
      | none => rfl
      | some child => exact ih child

theorem get?_entry (entries : List (String × FileNode)) (name : String) :
    (directory entries).get? [name] = entries.lookup name := by
  rw [get?]
  cases entries.lookup name with
  | none => rfl
  | some child => rw [Option.bind_some, get?]

theorem Below.get?_reverse (h : Below root names node parents) :
    root.get? names.reverse = some node := by
  induction h with
  | root => rw [List.reverse_nil, get?]
  | entry _ hchild ih =>
    rw [List.reverse_cons, get?_concat, ih, Option.bind_some, get?_entry, hchild]

/-- Components lead where the names lead that they come down to, and so do all behind them. -/
theorem Below.of_descend? (h : Below root names node parents)
    (hfound : descend? node parents cs = some found) :
    ∃ above, Below root (cs.foldl stepNames names) found above ∧
      ∀ rest, descend? node parents (cs ++ rest) = descend? found above rest := by
  induction cs generalizing names node parents with
  | nil =>
    rw [descend?_nil] at hfound
    cases hfound
    exact ⟨parents, h, fun rest => rfl⟩
  | cons c cs ih =>
    cases node with
    | file text => rw [descend?_file text (by simp)] at hfound; cases hfound
    | directory entries =>
      by_cases hstay : c = "" ∨ c = "."
      · rw [descend?_stay hstay] at hfound
        simp only [List.foldl_cons, List.cons_append, stepNames, if_pos hstay, descend?_stay hstay]
        exact ih h hfound
      by_cases hup : c = ".."
      · subst hup
        cases h with
        | root => exact ih .root hfound
        | entry hparent _ => exact ih hparent hfound
      · rw [descend?_name hstay hup] at hfound
        obtain ⟨child, hchild, hfound⟩ := Option.bind_eq_some_iff.1 hfound
        simp only [List.foldl_cons, List.cons_append, stepNames, if_neg hstay, if_neg hup,
          descend?_name hstay hup, hchild, Option.bind_some]
        exact ih (h.entry hchild) hfound

/-- In a directory that components lead to, a name leads to the entry under it. -/
theorem descend?_concat {entries : List (String × FileNode)}
    (h : descend? root [] cs = some (directory entries))
    (hname : ¬ (name = "" ∨ name = ".")) (hup : name ≠ "..") :
    descend? root [] (cs ++ [name]) = root.get? (namesOf cs ++ [name]) := by
  obtain ⟨above, hbelow, hrest⟩ := Below.root.of_descend? h
  rw [hrest, descend?_name hname hup, get?_concat, namesOf_eq, hbelow.get?_reverse,
    Option.bind_some, get?_entry]
  cases entries.lookup name with
  | none => rfl
  | some child => rw [Option.bind_some, descend?_nil]

end FileNode
end ModuleVisibility
