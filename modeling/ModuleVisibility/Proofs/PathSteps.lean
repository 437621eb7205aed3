import Mathlib.Data.List.Infix
import Mathlib.Data.List.TakeWhile
import ModuleVisibility.File.Path

/-!
The steps of a path: its components but for those that lead nowhere. The path above takes the last
step away, so going up passes once through every front of the steps, and it never takes a step that
the path does not write down.
-/
namespace ModuleVisibility.PathText

/-- Whether a component leads anywhere. -/
def isStep (component : List Char) : Bool := component ≠ [] ∧ component ≠ ['.']

/-- The components of a path that lead anywhere. -/
def stepsIn (path : List Char) : List (List Char) := (path.splitOn '/').filter isStep

variable {path up cs front back : List Char}

theorem stepsIn_join (front back : List Char) :
    stepsIn (front ++ '/' :: back) = stepsIn front ++ stepsIn back := by
  rw [stepsIn, List.splitOn_append_cons_self, List.filter_append, stepsIn, stepsIn]

theorem stepsIn_word {word : List Char} (h : '/' ∉ word) (hstep : isStep word = true) :
    stepsIn word = [word] := by
  rw [stepsIn, List.splitOn_eq_singleton h, List.filter_cons_of_pos hstep, List.filter_nil]

@[simp] theorem stepsIn_nil : stepsIn [] = [] := rfl

@[simp] theorem stepsIn_dot : stepsIn ['.'] = [] := rfl

/-- What is cut off a reversed path has no step. -/
theorem stepsIn_trimSteps (cs : List Char) :
    stepsIn (trimSteps cs).reverse = stepsIn cs.reverse := by
  fun_induction trimSteps cs with
  | case1 cs ih =>
    rw [ih, List.reverse_cons, stepsIn_join, stepsIn_nil, List.append_nil]
  | case2 cs ih =>
    rw [ih, List.reverse_cons, List.reverse_cons, List.append_assoc,
      List.singleton_append, stepsIn_join, stepsIn_dot, List.append_nil]
  | case3 => rfl
  | case4 => rfl

/-- What is left ends with a component that leads somewhere. -/
theorem trimSteps_ne (cs rest : List Char) :
    trimSteps cs ≠ '/' :: rest ∧ trimSteps cs ≠ '.' :: '/' :: rest ∧ trimSteps cs ≠ ['.'] := by
  fun_induction trimSteps cs with
  | case1 cs ih => exact ih
  | case2 cs ih => exact ih
  | case3 => simp
  | case4 cs hslash hdot hlone =>
    exact ⟨fun heq => hslash rest heq, fun heq => hdot rest heq, fun heq => hlone heq⟩

/-- The component that is dropped is the last step. -/
theorem exists_step_of_dropComponent (h : trimSteps cs ≠ []) : ∃ step,
    stepsIn (trimSteps cs).reverse = stepsIn (dropComponent (trimSteps cs)).reverse ++ [step] := by
  obtain ⟨hslash, hdot, hlone⟩ := And.intro (fun rest => (trimSteps_ne cs rest).1)
    (And.intro (fun rest => (trimSteps_ne cs rest).2.1) (trimSteps_ne cs []).2.2)
  have hsplit := List.takeWhile_append_dropWhile (p := (· != '/')) (l := trimSteps cs)
  unfold dropComponent
  generalize trimSteps cs = back at h hslash hdot hlone hsplit ⊢
  generalize hword : back.takeWhile (· != '/') = word at hsplit
  have hfree : '/' ∉ word.reverse := by
    intro hmem
    rw [← hword, List.mem_reverse] at hmem
    simpa using List.mem_takeWhile_imp hmem
  cases hrest : back.dropWhile (· != '/') with
  | nil =>
    rw [hrest, List.append_nil] at hsplit
    subst hsplit
    refine ⟨word.reverse, ?_⟩
    have hstep : isStep word.reverse = true := by
      simp only [isStep, decide_eq_true_eq, ne_eq, List.reverse_eq_nil_iff]
      exact ⟨h, fun heq => hlone (by simpa using congrArg List.reverse heq)⟩
    rw [stepsIn_word hfree hstep, List.drop_nil, List.reverse_nil, stepsIn_nil, List.nil_append]
  | cons c rest =>
    have hc : c = '/' := by
      have hnot := List.head?_dropWhile_not (· != '/') back
      rw [hrest] at hnot
      simpa using hnot
    subst hc
    rw [hrest] at hsplit
    refine ⟨word.reverse, ?_⟩
    have hstep : isStep word.reverse = true := by
      simp only [isStep, decide_eq_true_eq, ne_eq, List.reverse_eq_nil_iff]
      refine ⟨?_, fun heq => ?_⟩
      · rintro rfl
        exact hslash rest hsplit.symm
      · have hone : word = ['.'] := by simpa using congrArg List.reverse heq
        subst hone
        exact hdot rest hsplit.symm
    rw [← hsplit, List.reverse_append, List.reverse_cons, List.append_assoc, List.singleton_append,
      stepsIn_join, stepsIn_word hfree hstep, List.drop_one, List.tail_cons]

/-- The front that no step leaves does not count as a step, nor does what goes on behind it. -/
theorem stepsIn_anchor (path : List Char) (hfront : front <+: path.drop (anchor path).length) :
    stepsIn (anchor path ++ front) = stepsIn front := by
  unfold anchor at hfront ⊢
  split at hfront
  · exact stepsIn_join [] front
  · obtain rfl : front = [] := List.prefix_nil.1 hfront
    rfl
  · next rest =>
    cases front with
    | nil => rfl
    | cons c front =>
      obtain rfl : c = '/' := (List.cons_prefix_cons.1 hfront).1
      exact (stepsIn_join ['.'] front).trans (stepsIn_join [] front).symm
  · rfl

theorem anchor_append (path : List Char) :
    anchor path ++ path.drop (anchor path).length = path := by
  unfold anchor
  split <;> rfl

theorem trimSteps_suffix (cs : List Char) : trimSteps cs <:+ cs := by
  fun_induction trimSteps cs with
  | case1 cs ih => exact ih.trans (List.suffix_cons '/' cs)
  | case2 cs ih => exact ih.trans (List.suffix_append ['.', '/'] cs)
  | case3 => exact List.nil_suffix
  | case4 => exact List.suffix_rfl

theorem dropComponent_suffix (cs : List Char) : dropComponent cs <:+ cs :=
  (List.drop_suffix 1 _).trans (List.dropWhile_suffix _)

/-- Going up takes something away behind the front that no step leaves, if there is a step. -/
theorem parentChars?_cases (h : parentChars? path = some up) :
    up = [] ∧ stepsIn path = [] ∧ anchor path = ['.'] ∨ ∃ front step, up = anchor path ++ front ∧
      front <+: path.drop (anchor path).length ∧ stepsIn path = stepsIn front ++ [step] := by
  have hbody :
      stepsIn path = stepsIn (trimSteps (path.drop (anchor path).length).reverse).reverse := by
    rw [stepsIn_trimSteps, List.reverse_reverse,
      ← stepsIn_anchor path List.prefix_rfl, anchor_append]
  rw [hbody]
  simp only [parentChars?] at h
  split at h
  · next hnone =>
    split at h
    · next hdot =>
      cases h
      exact .inl ⟨rfl, by rw [hnone, List.reverse_nil, stepsIn_nil], hdot⟩
    · cases h
  · next hsome =>
    obtain ⟨step, hstep⟩ := exists_step_of_dropComponent hsome
    cases h
    refine .inr ⟨_, step, rfl, ?_, by rw [hstep, stepsIn_trimSteps]⟩
    rw [← List.reverse_suffix, List.reverse_reverse]
    exact ((trimSteps_suffix _).trans (dropComponent_suffix _)).trans (trimSteps_suffix _)

/-- The path above is the path without its last step. -/
theorem stepsIn_parentChars? (h : parentChars? path = some up) :
    stepsIn up = (stepsIn path).dropLast := by
  rcases parentChars?_cases h with ⟨rfl, hnone, _⟩ | ⟨front, step, rfl, hfront, hsteps⟩
  · rw [hnone]
    rfl
  · rw [stepsIn_anchor path hfront, hsteps, List.dropLast_concat]

/-- Going up from the root one stays there, and one does not get there from elsewhere. -/
theorem head?_parentChars? (h : parentChars? path = some up) :
    up.head? = some '/' ↔ path.head? = some '/' := by
  rcases parentChars?_cases h with ⟨rfl, _, hdot⟩ | ⟨front, step, rfl, hfront, _⟩
  · rw [← anchor_append path, hdot]
    simp
  · constructor
    · intro hhead
      have hfront' : anchor path ++ front <+: path := by
        conv => rhs; rw [← anchor_append path]
        exact (List.prefix_append_right_inj _).2 hfront
      obtain ⟨rest, hpath⟩ := hfront'
      rw [← hpath, List.head?_append, hhead]
      rfl
    · intro hhead
      obtain ⟨rest, rfl⟩ := List.head?_eq_some_iff.1 hhead
      rfl

theorem stepsIn_of_parentChars?_eq_none (h : parentChars? path = none) : stepsIn path = [] := by
  rw [← anchor_append path, stepsIn_anchor path List.prefix_rfl,
    ← List.reverse_reverse (List.drop _ _), ← stepsIn_trimSteps]
  simp only [parentChars?] at h
  split at h
  · next hnone => rw [hnone]; rfl
  · cases h

/-- The fronts of a list, the whole list first. -/
def fronts {α : Type} (steps : List α) : List (List α) := steps.reverse.tails.map List.reverse

theorem mem_fronts {α : Type} {front steps : List α} : front ∈ fronts steps ↔ front <+: steps := by
  simp only [fronts, List.mem_map, List.mem_tails]
  constructor
  · rintro ⟨back, hback, rfl⟩
    rwa [← List.reverse_suffix, List.reverse_reverse]
  · intro h
    exact ⟨front.reverse, List.reverse_suffix.2 h, List.reverse_reverse front⟩

@[simp] theorem fronts_nil {α : Type} : fronts ([] : List α) = [[]] := rfl

theorem fronts_of_ne_nil {α : Type} {steps : List α} (h : steps ≠ []) :
    fronts steps = steps :: fronts steps.dropLast := by
  obtain ⟨front, last, rfl⟩ := (List.eq_nil_or_concat' steps).resolve_left h
  rw [List.dropLast_concat]
  simp [fronts]

theorem fronts_concat {α : Type} (front : List α) (last : α) :
    fronts (front ++ [last]) = (front ++ [last]) :: fronts front := by
  rw [fronts_of_ne_nil (by simp), List.dropLast_concat]

/-- The fronts of an appended list that reach its second part. -/
theorem filter_fronts_append {α : Type} [DecidableEq α] (front back : List α) :
    (fronts (front ++ back)).filter front.isPrefixOf = (fronts back).map (front ++ ·) := by
  induction back using List.reverseRecOn with
  | nil =>
    have hshort : ∀ {rest : List α}, rest ≠ front → rest <+: front →
        front.isPrefixOf rest = false := by
      intro rest hne hrest
      by_contra hrest'
      rw [Bool.not_eq_false, List.isPrefixOf_iff_prefix] at hrest'
      exact hne (hrest.eq_of_length_le hrest'.length_le)
    rw [List.append_nil, fronts_nil, List.map_singleton, List.append_nil]
    cases front using List.reverseRecOn with
    | nil => rfl
    | append_singleton front last =>
      rw [fronts_concat, List.filter_cons_of_pos (List.isPrefixOf_iff_prefix.2 List.prefix_rfl)]
      refine congrArg _ (List.filter_eq_nil_iff.2 fun rest hrest => ?_)
      have hrest' := mem_fronts.1 hrest
      rw [Bool.not_eq_true]
      refine hshort (fun heq => ?_) (hrest'.trans (List.prefix_append _ _))
      have hlength := hrest'.length_le
      rw [heq, List.length_append, List.length_singleton] at hlength
      omega
  | append_singleton back last ih =>
    rw [← List.append_assoc, fronts_concat, fronts_concat, List.map_cons, List.append_assoc,
      List.filter_cons_of_pos (List.isPrefixOf_iff_prefix.2 (List.prefix_append _ _)), ih]

/-- A path and those above it have the fronts of its steps, one after the other. -/
theorem findSome?_ancestorChars {β : Type} (find : List (List Char) → Option β) (path : List Char) :
    (ancestorChars path).findSome? (fun above => find (stepsIn above)) =
      (fronts (stepsIn path)).findSome? find := by
  fun_induction ancestorChars path with
  | case1 path h =>
    rw [stepsIn_of_parentChars?_eq_none h]
    simp [stepsIn_of_parentChars?_eq_none h]
  | case2 path up h ih =>
    rw [List.findSome?_cons, ih, stepsIn_parentChars? h]
    by_cases hnone : stepsIn path = []
    · rw [hnone]
      cases hroot : find [] <;> simp [hroot]
    · rw [fronts_of_ne_nil hnone, List.findSome?_cons]

/-! Paths as they are written. -/

/-- The components of a path that lead anywhere, as names. -/
def steps (path : String) : List String := (components path).filter fun c => c ≠ "" ∧ c ≠ "."

theorem steps_eq (path : String) : steps path = (stepsIn path.toList).map String.ofList := by
  have hstep : ∀ word : List Char,
      decide (String.ofList word ≠ "" ∧ String.ofList word ≠ ".") = isStep word := by
    intro word
    have hempty : String.ofList word = "" ↔ word = [] := String.ofList_inj
    have hdot : String.ofList word = "." ↔ word = ['.'] := String.ofList_inj
    simp only [isStep, ne_eq, hempty, hdot]
  rw [steps, components, List.filter_map, stepsIn]
  congr 2
  funext word
  exact hstep word

theorem isAbsolute_iff {path : String} : isAbsolute path = true ↔ path.toList.head? = some '/' := by
  rw [isAbsolute, String.startsWith_string_iff, List.head?_eq_some_iff]
  constructor
  · rintro ⟨rest, hrest⟩
    exact ⟨rest, hrest.symm⟩
  · rintro ⟨rest, hrest⟩
    exact ⟨rest, hrest.symm⟩

theorem toList_join (base name : String) : (join base name).toList =
    if base.toList = [] ∨ base.toList.getLast? = some '/' then base.toList ++ name.toList
    else base.toList ++ '/' :: name.toList := by
  have hempty : base.isEmpty = true ↔ base.toList = [] := by
    rw [String.isEmpty_iff, ← String.toList_eq_nil_iff]
  have hslash : base.endsWith "/" = true ↔ base.toList.getLast? = some '/' := by
    rw [String.endsWith_eq_endsWith_toSlice, String.Slice.endsWith_string_iff, String.copy_toSlice,
      List.getLast?_eq_some_iff]
    constructor
    · rintro ⟨front, hfront⟩
      exact ⟨front, hfront.symm⟩
    · rintro ⟨front, hfront⟩
      exact ⟨front, hfront.symm⟩
  rw [join]
  simp only [Bool.or_eq_true, hempty, hslash]
  split
  · rw [String.toList_append]
  · rw [String.toList_append, String.toList_append, List.append_assoc]
    rfl

section Join

variable {base name : String}

theorem components_eq (path : String) :
    components path = (path.toList.splitOn '/').map String.ofList := rfl

/-- A name below a path is the last component, and the steps before it are those of the path. -/
theorem exists_components_join (base : String) (h : '/' ∉ name.toList) : ∃ front,
    components (join base name) = front ++ [name] ∧
      front.filter (fun c => c ≠ "" ∧ c ≠ ".") = steps base := by
  have hname : (name.toList.splitOn '/').map String.ofList = [name] := by
    rw [List.splitOn_eq_singleton h, List.map_singleton, String.ofList_toList]
  simp only [components_eq, steps, toList_join]
  split
  · next hend =>
    obtain hnone | hlast := hend
    · exact ⟨[], by rw [hnone, List.nil_append, hname, List.nil_append], by rw [hnone]; rfl⟩
    · obtain ⟨front, hfront⟩ := List.getLast?_eq_some_iff.1 hlast
      refine ⟨(front.splitOn '/').map String.ofList, ?_, ?_⟩
      · rw [hfront, List.append_assoc, List.singleton_append, List.splitOn_append_cons_self,
          List.map_append, hname]
      · rw [hfront, List.splitOn_append_cons_self, List.map_append, List.filter_append]
        exact (List.append_nil _).symm
  · exact ⟨_, by rw [List.splitOn_append_cons_self, List.map_append, hname], rfl⟩

theorem isAbsolute_join (h : '/' ∉ name.toList) :
    isAbsolute (join base name) = isAbsolute base := by
  have hname : name.toList.head? ≠ some '/' := fun hhead => h (List.mem_of_head? hhead)
  rw [Bool.eq_iff_iff, isAbsolute_iff, isAbsolute_iff, toList_join]
  cases hbase : base.toList with
  | nil => simp [hname]
  | cons c cs => split <;> simp

end Join

theorem isAbsolute_of_mem_ancestors {path above : String} (h : above ∈ ancestors path) :
    isAbsolute above = isAbsolute path := by
  obtain ⟨aboveChars, hmem, rfl⟩ := List.mem_map.1 h
  rw [Bool.eq_iff_iff, isAbsolute_iff, isAbsolute_iff, String.toList_ofList]
  generalize path.toList = start at hmem
  fun_induction ancestorChars start with
  | case1 path hup =>
    rw [List.mem_singleton.1 hmem]
  | case2 path up hup ih =>
    rcases List.mem_cons.1 hmem with rfl | hmem
    · rfl
    · exact (ih hmem).trans (head?_parentChars? hup)

/-- A path and those above it have the fronts of its steps, one after the other. -/
theorem findSome?_ancestors {β : Type} (find : List String → Option β) (path : String) :
    (ancestors path).findSome? (fun above => find (steps above)) =
      (fronts (steps path)).findSome? find := by
  rw [ancestors, List.findSome?_map, steps_eq]
  have hwalk := findSome?_ancestorChars (fun names => find (names.map String.ofList)) path.toList
  simp only [Function.comp_def, steps_eq, String.toList_ofList]
  rw [hwalk, fronts, fronts, ← List.map_reverse, List.map_tails, List.map_map, List.findSome?_map,
    List.findSome?_map]
  simp only [Function.comp_def, List.map_reverse]

/-- The path beside a file is the path without its last step, if it has one. -/
theorem steps_parent?_getD (path : String) (h : steps path ≠ []) :
    steps ((parent? path).getD ".") = (steps path).dropLast := by
  rw [steps_eq] at h ⊢
  rw [steps_eq, parent?]
  cases hup : parentChars? path.toList with
  | none => rw [stepsIn_of_parentChars?_eq_none hup] at h; exact absurd rfl h
  | some up =>
    rw [Option.map_some, Option.getD_some, String.toList_ofList, stepsIn_parentChars? hup,
      List.map_dropLast]

theorem isAbsolute_parent?_getD (path : String) (h : steps path ≠ []) :
    isAbsolute ((parent? path).getD ".") = isAbsolute path := by
  rw [steps_eq] at h
  rw [Bool.eq_iff_iff, isAbsolute_iff, isAbsolute_iff, parent?]
  cases hup : parentChars? path.toList with
  | none => rw [stepsIn_of_parentChars?_eq_none hup] at h; exact absurd rfl h
  | some up => rw [Option.map_some, Option.getD_some, String.toList_ofList, head?_parentChars? hup]

end ModuleVisibility.PathText
