import ModuleVisibility.Proofs.QualifiedName

/-!
The ways to write the name of a declaration. Behind a separator the whole name means it in every
namespace; without that separator, what is written is what the namespace at hand leaves out of the
name, and the word for that namespace may stand in front. These are all the ways, and only a name of
one segment can mean a global declaration as well.
-/
namespace ModuleVisibility

namespace Text

theorem splitFirst?_of_not_mem {sep : Char} {cs : List Char} (h : sep ∉ cs) :
    splitFirst? sep cs = none := by
  induction cs with
  | nil => rfl
  | cons c cs ih =>
    rw [List.mem_cons, not_or] at h
    rw [splitFirst?, if_neg (Ne.symm h.1), ih h.2]
    rfl

theorem splitFirst?_append {sep : Char} {before : List Char} (h : sep ∉ before)
    (after : List Char) :
    splitFirst? sep (before ++ sep :: after) = some (before, after) := by
  induction before with
  | nil => exact if_pos rfl
  | cons c before ih =>
    rw [List.mem_cons, not_or] at h
    rw [List.cons_append, splitFirst?, if_neg (Ne.symm h.1), ih h.2]
    rfl

end Text

namespace Name

/-! Segments. -/

/-- The word for the namespace at hand, in any letters. -/
def IsHere (word : String) : Prop := Text.lowerAscii word = "namespace"

instance (word : String) : Decidable (IsHere word) := inferInstanceAs (Decidable (_ = _))

/-- The name has one segment. -/
def IsSimple (name : String) : Prop := separator ∉ name.toList

instance (name : String) : Decidable (IsSimple name) := inferInstanceAs (Decidable (_ ∉ _))

/-- No segment of the name is empty or the word for the namespace at hand. -/
def IsPath (name : String) : Prop :=
  ∀ segment ∈ name.toList.splitOn separator, segment ≠ [] ∧ ¬ IsHere (String.ofList segment)

instance (name : String) : Decidable (IsPath name) := inferInstanceAs (Decidable (∀ _ ∈ _, _))

variable {ns outer inner front first rest name last written word : String}

theorem toList_joined (front name : String) :
    (front ++ "\\" ++ name).toList = front.toList ++ separator :: name.toList := by
  simp [separator]

theorem joined_ne_empty (front name : String) : front ++ "\\" ++ name ≠ "" := by
  intro h
  have hlist := congrArg String.toList h
  simp at hlist

theorem not_isSimple_joined (front name : String) : ¬ IsSimple (front ++ "\\" ++ name) := by
  rw [IsSimple, toList_joined, not_not]
  exact List.mem_append_right _ List.mem_cons_self

theorem splitOn_joined (front name : String) : (front ++ "\\" ++ name).toList.splitOn separator =
    front.toList.splitOn separator ++ name.toList.splitOn separator := by
  rw [toList_joined]
  exact List.splitOnP_append_cons _ _ (beq_self_eq_true separator)

theorem not_isPath_empty : ¬ IsPath "" := by decide

theorem isPath_of_joined (h : IsPath (front ++ "\\" ++ name)) : IsPath name := by
  unfold IsPath at h
  rw [splitOn_joined] at h
  exact (List.forall_mem_append.1 h).2

/-- A name of several segments is the first one with the others behind it. -/
theorem exists_first (h : ¬ IsSimple name) :
    ∃ first rest, IsSimple first ∧ name = first ++ "\\" ++ rest := by
  obtain ⟨first, rest, hlist, hfirst⟩ := List.eq_append_cons_of_mem (not_not.1 h)
  refine ⟨String.ofList first, String.ofList rest, by rwa [IsSimple, String.toList_ofList], ?_⟩
  rw [← String.toList_inj, toList_joined, String.toList_ofList, String.toList_ofList]
  exact hlist

/-- The first segment of what starts with a path is one of the path. -/
theorem IsPath.first_of_joined (h : IsPath front) (hfirst : IsSimple first)
    (heq : front ++ "\\" ++ last = first ++ "\\" ++ rest) : first ≠ "" ∧ ¬ IsHere first := by
  obtain ⟨segment, later, hsegment⟩ :=
    List.exists_cons_of_ne_nil (List.splitOn_ne_nil separator front.toList)
  have hsegments := congrArg (fun name : String => name.toList.splitOn separator) heq
  rw [splitOn_joined, splitOn_joined, List.splitOn_eq_singleton hfirst, hsegment] at hsegments
  obtain ⟨rfl, -⟩ := List.cons.inj hsegments
  obtain ⟨hne, hhere⟩ := h first.toList (hsegment ▸ List.mem_cons_self)
  rw [String.ofList_toList] at hhere
  refine ⟨?_, hhere⟩
  rintro rfl
  exact hne rfl

/-! Qualifying. -/

theorem qualify_empty (name : String) : qualify "" name = name := if_pos rfl

theorem qualify_of_ne_empty (h : ns ≠ "") (name : String) :
    qualify ns name = ns ++ "\\" ++ name := if_neg h

/-- Qualifying twice is qualifying with both at once. -/
theorem qualify_qualify (h : inner ≠ "") (outer name : String) :
    qualify (qualify outer inner) name = qualify outer (inner ++ "\\" ++ name) := by
  by_cases houter : outer = ""
  · rw [houter, qualify_empty, qualify_empty, qualify_of_ne_empty h]
  · rw [qualify_of_ne_empty houter, qualify_of_ne_empty houter,
      qualify_of_ne_empty (joined_ne_empty _ _)]
    simp only [String.append_assoc]

/-- What is qualified to a path is one too. -/
theorem isPath_of_qualify (h : IsPath (qualify outer inner)) : IsPath inner := by
  by_cases houter : outer = ""
  · rwa [houter, qualify_empty] at h
  · rw [qualify_of_ne_empty houter] at h
    exact isPath_of_joined h

/-- Two ways to take a name apart, the second before its last segment: the first may do so further
to the front. -/
theorem eq_of_joined_eq (hname : IsSimple name) (h : outer ++ "\\" ++ rest = ns ++ "\\" ++ name) :
    (outer = ns ∧ rest = name) ∨ ∃ inner, ns = outer ++ "\\" ++ inner ∧
      rest = inner ++ "\\" ++ name := by
  rw [← String.toList_inj, toList_joined, toList_joined] at h
  rcases List.append_eq_append_iff.1 h with ⟨between, hns, hrest⟩ | ⟨between, houter, hlast⟩
  · cases between with
    | nil =>
      obtain ⟨-, hrest⟩ := List.cons.inj hrest
      exact .inl ⟨String.toList_inj.1 (by rw [hns, List.append_nil]), String.toList_inj.1 hrest⟩
    | cons c between =>
      obtain ⟨hc, hlater⟩ := List.cons.inj hrest
      refine .inr ⟨String.ofList between, ?_, ?_⟩
      · rw [← String.toList_inj, toList_joined, String.toList_ofList, hc]
        exact hns
      · rw [← String.toList_inj, toList_joined, String.toList_ofList]
        exact hlater
  · cases between with
    | nil =>
      obtain ⟨-, hrest⟩ := List.cons.inj hlast
      exact .inl ⟨String.toList_inj.1 (by rw [houter, List.append_nil]),
        String.toList_inj.1 hrest.symm⟩
    | cons c between =>
      obtain ⟨-, hlast⟩ := List.cons.inj hlast
      refine absurd ?_ hname
      rw [hlast]
      exact List.mem_append_right _ List.mem_cons_self

/-- What is qualified to a declared name is its last segment, or has segments of the namespace in
front. -/
theorem eq_of_qualify_eq (hns : ns = "" ∨ IsPath ns) (hname : IsSimple name)
    (h : qualify outer rest = qualify ns name) :
    (outer = ns ∧ rest = name) ∨ ∃ inner, inner ≠ "" ∧ ns = qualify outer inner ∧
      rest = inner ++ "\\" ++ name := by
  by_cases houter : outer = ""
  · rw [houter, qualify_empty] at h
    rw [h, houter]
    by_cases hempty : ns = ""
    · rw [hempty]
      exact .inl ⟨rfl, qualify_empty name⟩
    · exact .inr ⟨ns, hempty, (qualify_empty ns).symm, qualify_of_ne_empty hempty name⟩
  · rw [qualify_of_ne_empty houter] at h
    by_cases hempty : ns = ""
    · rw [hempty, qualify_empty] at h
      exact absurd (h ▸ hname) (not_isSimple_joined outer rest)
    · rw [qualify_of_ne_empty hempty] at h
      refine (eq_of_joined_eq hname h).imp_right ?_
      rintro ⟨inner, hinner, hrest⟩
      refine ⟨inner, ?_, by rw [hinner, qualify_of_ne_empty houter], hrest⟩
      rintro rfl
      exact not_isPath_empty (isPath_of_joined (hinner ▸ hns.resolve_left hempty))

/-! What is written. -/

theorem explicit?_of_isSimple (h : IsSimple written) (ns : String) :
    explicit? ns written = none := by
  rw [explicit?, Text.splitFirst?_of_not_mem h]

/-- The first of several segments decides what is meant. -/
theorem explicit?_joined (h : IsSimple first) (ns rest : String) :
    explicit? ns (first ++ "\\" ++ rest) =
    some (if first = "" then rest else if IsHere first then qualify ns rest
      else qualify ns (first ++ "\\" ++ rest)) := by
  rw [explicit?, toList_joined, Text.splitFirst?_append h]
  rcases hlist : first.toList with _ | ⟨c, cs⟩
  · rw [if_pos (String.toList_inj.1 hlist)]
    dsimp only
    rw [String.ofList_toList]
  · have hempty : first ≠ "" := by
      rintro rfl
      cases hlist
    rw [if_neg hempty, apply_ite some]
    dsimp only
    rw [← hlist, String.ofList_toList, String.ofList_toList]
    rfl

/-- In the namespace `outer` the written name means `name`, as a class and as a function or
constant. -/
structure Denotes (outer written name : String) : Prop where
  owner : resolveClass outer written = name
  target : (resolveFunction outer written).name = name

theorem denotes_iff : Denotes outer written name ↔
      (explicit? outer written).getD (qualify outer written) = name := by
  have htarget : (resolveFunction outer written).name = resolveClass outer written := by
    unfold resolveFunction resolveClass
    cases explicit? outer written <;> rfl
  exact ⟨Denotes.owner, fun h => ⟨h, htarget.trans h⟩⟩

theorem denotes_of_isSimple (h : IsSimple written) :
    Denotes outer written name ↔ qualify outer written = name := by
  rw [denotes_iff, explicit?_of_isSimple h, Option.getD_none]

theorem denotes_absolute : Denotes outer ("\\" ++ rest) name ↔ rest = name := by
  have hempty : IsSimple "" := by decide
  have hexplicit := explicit?_joined hempty outer rest
  rw [if_pos rfl, String.empty_append] at hexplicit
  rw [denotes_iff, hexplicit, Option.getD_some]

theorem denotes_joined (h : IsSimple first) (hempty : first ≠ "") :
    Denotes outer (first ++ "\\" ++ rest) name ↔
    (if IsHere first then qualify outer rest else qualify outer (first ++ "\\" ++ rest)) =
      name := by
  rw [denotes_iff, explicit?_joined h, if_neg hempty, Option.getD_some]

/-- The word for the namespace at hand is one segment. -/
theorem IsHere.isSimple (h : IsHere word) : IsSimple word ∧ word ≠ "" := by
  refine ⟨fun hmem => ?_, ?_⟩
  · have hlower : Char.toLower separator ∈ (Text.lowerAscii word).toList := by
      rw [Text.lowerAscii, String.toList_ofList]
      exact List.mem_map_of_mem hmem
    rw [h] at hlower
    exact absurd hlower (by decide)
  · rintro rfl
    exact absurd h (by decide)

theorem IsHere.denotes (h : IsHere word) : Denotes outer (word ++ "\\" ++ rest) name ↔
      qualify outer rest = name := by
  rw [denotes_joined h.isSimple.1 h.isSimple.2, if_pos h]

/-! The spellings of a declaration. -/

/-- The ways to write, in the namespace `outer`, what is declared as `name` in the namespace
`ns`. -/
inductive Spelling (ns name : String) : (outer written : String) → Prop
  | absolute {outer : String} : Spelling ns name outer ("\\" ++ qualify ns name)
  | simple : Spelling ns name ns name
  | here {word : String} (hword : IsHere word) : Spelling ns name ns (word ++ "\\" ++ name)
  | inner {outer inner : String} (hinner : inner ≠ "") (hns : ns = qualify outer inner) :
      Spelling ns name outer (inner ++ "\\" ++ name)
  | hereInner {outer inner word : String} (hword : IsHere word) (hinner : inner ≠ "")
    (hns : ns = qualify outer inner) :
      Spelling ns name outer (word ++ "\\" ++ (inner ++ "\\" ++ name))

theorem Spelling.denotes (h : Spelling ns name outer written) (hns : ns = "" ∨ IsPath ns)
    (hname : IsSimple name) :
    Denotes outer written (qualify ns name) := by
  cases h with
  | absolute => exact denotes_absolute.2 rfl
  | simple => exact (denotes_of_isSimple hname).2 rfl
  | here hword => exact hword.denotes.2 rfl
  | @inner _ inner hinner hqualified =>
    have hnonempty : ns ≠ "" := by
      rw [hqualified]
      unfold qualify
      split
      · exact hinner
      · exact joined_ne_empty outer inner
    have hpath : IsPath inner := isPath_of_qualify (hqualified ▸ hns.resolve_left hnonempty)
    -- What is written starts as the inner namespace does, so it is taken for neither an absolute
    -- nor a relative name.
    obtain ⟨first, rest, hfirst, hwritten⟩ := exists_first (not_isSimple_joined inner name)
    obtain ⟨hempty, hhere⟩ := hpath.first_of_joined hfirst hwritten
    rw [hwritten, denotes_joined hfirst hempty, if_neg hhere, ← hwritten, hqualified,
      qualify_qualify hinner]
  | hereInner hword hinner hqualified => rw [hword.denotes, hqualified, qualify_qualify hinner]

/-- A namespace cannot be named by the word for the namespace at hand. -/
example : resolveClass "A" "namespace\\f" = "A\\f" ∧
      resolveClass "A" "\\A\\namespace\\f" = "A\\namespace\\f" := by
  decide

theorem Denotes.spelling (h : Denotes outer written (qualify ns name)) (hns : ns = "" ∨ IsPath ns)
    (hname : IsSimple name) : Spelling ns name outer written := by
  by_cases hsimple : IsSimple written
  · rw [denotes_of_isSimple hsimple] at h
    rcases eq_of_qualify_eq hns hname h with ⟨rfl, rfl⟩ | ⟨inner, hinner, hqualified, rfl⟩
    · exact .simple
    · exact .inner hinner hqualified
  · obtain ⟨first, rest, hfirst, rfl⟩ := exists_first hsimple
    by_cases hempty : first = ""
    · rw [hempty, String.empty_append] at h ⊢
      rw [denotes_absolute.1 h]
      exact .absolute
    · rw [denotes_joined hfirst hempty] at h
      split at h
      · next hhere =>
        rcases eq_of_qualify_eq hns hname h with ⟨rfl, rfl⟩ | ⟨inner, hinner, hqualified, rfl⟩
        · exact .here hhere
        · exact .hereInner hhere hinner hqualified
      · rcases eq_of_qualify_eq hns hname h with ⟨rfl, rfl⟩ | ⟨inner, hinner, hqualified, heq⟩
        · exact .simple
        · rw [heq]
          exact .inner hinner hqualified

/-- Only a name of one segment, in a namespace, can mean a global declaration too: that of the name
itself. -/
theorem fallback_eq_some_iff {fallback : String} :
    (resolveFunction outer written).fallback = some fallback ↔
    outer ≠ "" ∧ IsSimple written ∧ fallback = written := by
  unfold resolveFunction
  by_cases hsimple : IsSimple written
  · rw [explicit?_of_isSimple hsimple]
    by_cases hempty : outer = ""
    · simp [hempty]
    · simp [hempty, hsimple, eq_comm]
  · obtain ⟨first, rest, hfirst, rfl⟩ := exists_first hsimple
    rw [explicit?_joined hfirst]
    simp [hsimple]

/-- A declaration is meant by its spellings and by nothing else that is written in any namespace; a
second, global declaration is tried for names of one segment in a namespace only. -/
theorem denotes_iff_spelling (hns : ns = "" ∨ IsPath ns) (hname : IsSimple name) :
    (∀ outer written, Denotes outer written (qualify ns name) ↔ Spelling ns name outer written) ∧
      ∀ outer written fallback, (resolveFunction outer written).fallback = some fallback ↔
        outer ≠ "" ∧ IsSimple written ∧ fallback = written :=
  ⟨fun _ _ => ⟨fun h => h.spelling hns hname, fun h => h.denotes hns hname⟩,
    fun _ _ _ => fallback_eq_some_iff⟩

/-- From the namespace around it, a function can be named by the inner namespace and behind the word
for the outer. -/
theorem denotes_iff_spelling_inner :
    (("A\\B" = "" ∨ IsPath "A\\B") ∧ IsSimple "f") ∧ Denotes "A" "B\\f" "A\\B\\f" ∧
      Denotes "A" "NameSpace\\B\\f" "A\\B\\f" ∧ Denotes "C" "\\A\\B\\f" "A\\B\\f" ∧
      (resolveFunction "A" "B\\f").fallback = none := by
  have hns : "A\\B" = "" ∨ IsPath "A\\B" := by decide
  have hname : IsSimple "f" := by decide
  obtain ⟨hmeant, hfallback⟩ := denotes_iff_spelling hns hname
  refine ⟨⟨hns, hname⟩, (hmeant "A" "B\\f").2 ?_, (hmeant "A" "NameSpace\\B\\f").2 ?_,
    (hmeant "C" "\\A\\B\\f").2 ?_, ?_⟩
  · exact @Spelling.inner "A\\B" "f" "A" "B" (by decide) (by decide)
  · exact @Spelling.hereInner "A\\B" "f" "A" "B" "NameSpace" (by decide) (by decide) (by decide)
  · exact .absolute
  · refine Option.eq_none_iff_forall_ne_some.2 fun fallback h => ?_
    exact absurd ((hfallback _ _ _).1 h).2.1 (by decide)

end Name
end ModuleVisibility
