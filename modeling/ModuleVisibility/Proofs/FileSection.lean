import Mathlib.Data.List.Basic
import Mathlib.Data.List.Infix
import Mathlib.Data.List.TakeWhile
import ModuleVisibility.Unit.Section

/-!
How a file is cut into units. A heading is a line of four slashes and a name, so what is cut between
headings is lines again, none of them a heading: put together with the headings, the texts of the
units are the file, and none of them is cut any further. Only a blank text before the first heading
is no unit.
-/
namespace ModuleVisibility

namespace Text

/-! Blanks at the ends of a text. -/

/-- Every character is a blank. -/
def AllBlank (cs : List Char) : Prop := ∀ c ∈ cs, isBlank c = true

instance (cs : List Char) : Decidable (AllBlank cs) := inferInstanceAs (Decidable (∀ _ ∈ _, _))

variable {cs rest : List Char}

theorem trimStart_eq_iff : trimStart cs = rest ↔
    ∃ left, AllBlank left ∧ cs = left ++ rest ∧ ∀ c ∈ rest.head?, isBlank c = false := by
  constructor
  · rintro rfl
    refine ⟨cs.takeWhile isBlank, fun c hc => List.mem_takeWhile_imp hc,
      List.takeWhile_append_dropWhile.symm, ?_⟩
    intro c hc
    have hhead := List.head?_dropWhile_not isBlank cs
    rw [show (cs.dropWhile isBlank).head? = some c from hc] at hhead
    simpa using hhead
  · rintro ⟨left, hleft, rfl, hhead⟩
    rw [trimStart, List.dropWhile_append_of_pos hleft]
    cases rest with
    | nil => rfl
    | cons c rest => exact List.dropWhile_cons_of_neg (by simp [hhead c rfl])

theorem trimEnd_eq_iff : trimEnd cs = rest ↔
    ∃ right, AllBlank right ∧ cs = rest ++ right ∧ ∀ c ∈ rest.getLast?, isBlank c = false := by
  have hreverse : trimEnd cs = rest ↔ trimStart cs.reverse = rest.reverse := List.reverse_eq_iff
  rw [hreverse, trimStart_eq_iff, List.head?_reverse]
  constructor
  · rintro ⟨right, hright, hcs, hlast⟩
    refine ⟨right.reverse, fun c hc => hright c (List.mem_reverse.1 hc), ?_, hlast⟩
    rw [← List.reverse_reverse cs, hcs, List.reverse_append, List.reverse_reverse]
  · rintro ⟨right, hright, rfl, hlast⟩
    exact ⟨right.reverse, fun c hc => hright c (List.mem_reverse.1 hc), List.reverse_append, hlast⟩

theorem trim_eq_nil_iff : trim cs = [] ↔ AllBlank cs := by
  rw [trim, trimEnd_eq_iff]
  simp only [List.nil_append, List.getLast?_nil]
  constructor
  · rintro ⟨right, hright, hstart, -⟩
    obtain ⟨left, hleft, rfl, -⟩ := trimStart_eq_iff.1 hstart
    exact List.forall_mem_append.2 ⟨hleft, hright⟩
  · intro h
    refine ⟨[], fun _ hc => absurd hc List.not_mem_nil,
      trimStart_eq_iff.2 ⟨cs, h, ?_, fun _ hc => ?_⟩, fun _ hc => ?_⟩
    · exact (List.append_nil cs).symm
    · cases hc
    · cases hc

theorem dropStart?_eq_some_iff {front : List Char} :
    dropStart? front cs = some rest ↔ cs = front ++ rest := by
  induction front generalizing cs with
  | nil => simp [dropStart?]
  | cons p front ih =>
    cases cs with
    | nil => simp [dropStart?]
    | cons c cs =>
      rw [dropStart?]
      split
      · next heq => simp [ih, heq]
      · next hne => simp [Ne.symm hne]

/-! Lines. -/

/-- Each line ends with a newline, which is the only one in it; the last may lack it, but is not
empty. -/
inductive AreLines : List (List Char) → Prop
  | nil : AreLines []
  | last {line : List Char} (hne : line ≠ []) (hline : '\n' ∉ line) : AreLines [line]
  | cons {line : List Char} {ls : List (List Char)} (hline : '\n' ∉ line) (hls : AreLines ls) :
      AreLines ((line ++ ['\n']) :: ls)

theorem areLines_lines (cs : List Char) : AreLines (lines cs) := by
  fun_induction lines cs with
  | case1 => exact .nil
  | case2 cs ih => exact .cons List.not_mem_nil ih
  | case3 c cs hc hlines ih => exact .last (List.cons_ne_nil c []) (by simpa using Ne.symm hc)
  | case4 c cs hc line ls hlines ih =>
    rw [hlines] at ih
    cases ih with
    | last hne hline => exact .last (List.cons_ne_nil c line) (by simpa [Ne.symm hc] using hline)
    | @cons line ls hline hls =>
      exact @AreLines.cons (c :: line) ls (by simpa [Ne.symm hc] using hline) hls

theorem lines_newline {line : List Char} (h : '\n' ∉ line) (cs : List Char) :
    lines (line ++ '\n' :: cs) = (line ++ ['\n']) :: lines cs := by
  induction line with
  | nil => exact if_pos rfl
  | cons c line ih =>
    rw [List.mem_cons, not_or] at h
    rw [List.cons_append, lines, if_neg (Ne.symm h.1), ih h.2]
    rfl

theorem lines_of_not_mem {line : List Char} (hne : line ≠ []) (h : '\n' ∉ line) :
    lines line = [line] := by
  induction line with
  | nil => contradiction
  | cons c line ih =>
    rw [List.mem_cons, not_or] at h
    rw [lines, if_neg (Ne.symm h.1)]
    cases line with
    | nil => rfl
    | cons d line => rw [ih (List.cons_ne_nil d line) h.2]

/-- Lines are the only way to cut a text into lines. -/
theorem lines_eq_iff {ls : List (List Char)} : lines cs = ls ↔ ls.flatten = cs ∧ AreLines ls := by
  constructor
  · rintro rfl
    exact ⟨flatten_lines cs, areLines_lines cs⟩
  · rintro ⟨rfl, h⟩
    induction h with
    | nil => rfl
    | @last line hne hline => rw [List.flatten_singleton, lines_of_not_mem hne hline]
    | @cons line ls hline hls ih =>
      rw [List.flatten_cons, List.append_assoc, List.singleton_append, lines_newline hline, ih]

/-- Lines that follow each other are lines of their own. -/
theorem AreLines.of_append {front back : List (List Char)} (h : AreLines (front ++ back)) :
    AreLines front ∧ AreLines back := by
  induction front with
  | nil => exact ⟨.nil, h⟩
  | cons line front ih =>
    rw [List.cons_append] at h
    generalize hall : front ++ back = ls at h
    cases h with
    | last hne hline =>
      obtain ⟨rfl, rfl⟩ := List.append_eq_nil_iff.1 hall
      exact ⟨.last hne hline, .nil⟩
    | cons hline hls =>
      obtain ⟨hfront, hback⟩ := ih (hall ▸ hls)
      exact ⟨.cons hline hfront, hback⟩

theorem AreLines.of_part {part ls : List (List Char)} (h : AreLines ls) (hpart : part <:+: ls) :
    AreLines part := by
  obtain ⟨front, back, rfl⟩ := hpart
  exact h.of_append.1.of_append.2

end Text

namespace Section

open Text (AllBlank)

/-! Headings. -/

/-- The line is four slashes and a name, with blanks around the name but no further slash before
it. -/
def IsHeading (line name : List Char) : Prop :=
  ∃ left right, line = mark ++ left ++ name ++ right ∧ AllBlank left ∧ AllBlank right ∧ name ≠ [] ∧
    (∀ c ∈ name.head?, Text.isBlank c = false) ∧ (∀ c ∈ name.getLast?, Text.isBlank c = false) ∧
    (left ++ name).head? ≠ some '/'

theorem trim_of_blanks {left name : List Char} (hleft : AllBlank left)
    (hfirst : ∀ c ∈ name.head?, Text.isBlank c = false)
    (hlast : ∀ c ∈ name.getLast?, Text.isBlank c = false) :
    Text.trim (left ++ name) = name := by
  rw [Text.trim, Text.trimStart_eq_iff.2 ⟨left, hleft, rfl, hfirst⟩, Text.trimEnd_eq_iff]
  exact ⟨[], fun _ hc => absurd hc List.not_mem_nil, (List.append_nil name).symm, hlast⟩

/-- What is left of a text that ends with no blank ends with none. -/
theorem trim_of_getLast? {front rest : List Char} (hne : Text.trim rest ≠ [])
    (hlast : ∀ c ∈ (front ++ rest).getLast?, Text.isBlank c = false) :
    ∃ left, AllBlank left ∧ rest = left ++ Text.trim rest ∧
      (∀ c ∈ (Text.trim rest).head?, Text.isBlank c = false) ∧
      ∀ c ∈ (Text.trim rest).getLast?, Text.isBlank c = false := by
  obtain ⟨left, hleft, hrest, hfirst⟩ := Text.trimStart_eq_iff.1 (rfl : Text.trimStart rest = _)
  have hstart : Text.trimStart rest ≠ [] := by
    intro hnil
    rw [Text.trim, hnil] at hne
    exact hne rfl
  rw [hrest, ← List.append_assoc, List.getLast?_append_of_ne_nil _ hstart] at hlast
  have htrim : Text.trim rest = Text.trimStart rest := by
    rw [hrest, trim_of_blanks hleft hfirst hlast, ← hrest]
  rw [htrim]
  exact ⟨left, hleft, hrest, hfirst, hlast⟩

theorem heading?_eq_some_iff {line name : List Char} :
    heading? line = some name ↔ IsHeading line name := by
  unfold heading?
  constructor
  · intro h
    split at h
    · cases h
    · next rest hrest =>
      split at h
      · cases h
      · next hname =>
        cases h
        rw [not_or] at hname
        -- The end of the line has been trimmed, so there is nothing left to trim at the end of the
        -- name.
        obtain ⟨right, hright, hline, hlast⟩ :=
          Text.trimEnd_eq_iff.1 (Text.dropStart?_eq_some_iff.1 hrest)
        obtain ⟨left, hleft, hsplit, hfirst, hend⟩ := trim_of_getLast? hname.1 hlast
        refine ⟨left, right, ?_, hleft, hright, hname.1, hfirst, hend, hsplit ▸ hname.2⟩
        rw [List.append_assoc mark, ← hsplit]
        exact hline
  · rintro ⟨left, right, rfl, hleft, hright, hne, hfirst, hlast, hslash⟩
    have hend : Text.trimEnd (mark ++ left ++ name ++ right) = mark ++ (left ++ name) := by
      refine Text.trimEnd_eq_iff.2 ⟨right, hright, by rw [List.append_assoc mark],
        fun c hc => hlast c ?_⟩
      rwa [← List.append_assoc, List.getLast?_append_of_ne_nil _ hne] at hc
    rw [hend, Text.dropStart?_eq_some_iff.2 rfl]
    dsimp only
    rw [trim_of_blanks hleft hfirst hlast, if_neg (not_or_intro hne hslash)]

theorem heading?_eq_none_iff {line : List Char} :
    heading? line = none ↔ ∀ name, ¬ IsHeading line name := by
  rw [Option.eq_none_iff_forall_ne_some]
  simp only [ne_eq, heading?_eq_some_iff]

/-! Cuts. -/

/-- A heading as it stands in a file, the name in it, and the lines up to the next one. -/
structure Part where
  heading : List Char
  name : List Char
  body : List (List Char)

namespace Part

def lines (p : Part) : List (List Char) := p.heading :: p.body

/-- What the unit of this part reads. -/
def text (p : Part) : List Char := p.body.flatten

/-- The unit of a part of the file. -/
def unit (f : SourceFile) (p : Part) : SourceFile := ⟨pathOf f.path p.name, String.ofList p.text⟩

end Part

theorem flatten_parts (parts : List Part) :
    (parts.flatMap Part.lines).flatten = parts.flatMap fun p => p.heading ++ p.text := by
  induction parts with
  | nil => rfl
  | cons p parts ih =>
    rw [List.flatMap_cons, List.flatten_append, ih, List.flatMap_cons]
    rfl

/-- The lines are some without a heading and parts, in this order. -/
structure Cut (ls before : List (List Char)) (parts : List Part) : Prop where
  lines : ls = before ++ parts.flatMap Part.lines
  before : ∀ line ∈ before, ∀ name, ¬ IsHeading line name
  headings : ∀ p ∈ parts, IsHeading p.heading p.name
  bodies : ∀ p ∈ parts, ∀ line ∈ p.body, ∀ name, ¬ IsHeading line name

theorem exists_cut (ls : List (List Char)) : ∃ before parts, Cut ls before parts ∧
    group ls = (before.flatten, parts.map fun p => (p.name, p.text)) := by
  induction ls with
  | nil => exact ⟨[], [], ⟨rfl, by simp, by simp, by simp⟩, rfl⟩
  | cons line ls ih =>
    obtain ⟨before, parts, hcut, hgroup⟩ := ih
    rw [group, hgroup]
    cases hheading : heading? line with
    | some name =>
      refine ⟨[], ⟨line, name, before⟩ :: parts, ⟨?_, by simp, ?_, ?_⟩, rfl⟩
      · rw [hcut.lines]
        rfl
      · exact List.forall_mem_cons.2 ⟨heading?_eq_some_iff.1 hheading, hcut.headings⟩
      · exact List.forall_mem_cons.2 ⟨hcut.before, hcut.bodies⟩
    | none =>
      refine ⟨line :: before, parts, ⟨?_, ?_, hcut.headings, hcut.bodies⟩, rfl⟩
      · rw [hcut.lines]
        rfl
      · exact List.forall_mem_cons.2 ⟨heading?_eq_none_iff.1 hheading, hcut.before⟩

namespace Cut

variable {ls before : List (List Char)} {parts : List Part}

/-- The texts are put together again. -/
theorem flatten (h : Cut ls before parts) :
    ls.flatten = before.flatten ++ parts.flatMap fun p => p.heading ++ p.text := by
  rw [h.lines, List.flatten_append, flatten_parts]

theorem parts_eq_nil_iff (h : Cut ls before parts) :
    parts = [] ↔ ∀ line ∈ ls, ∀ name, ¬ IsHeading line name := by
  constructor
  · rintro rfl line hline
    rw [h.lines, List.flatMap_nil, List.append_nil] at hline
    exact h.before line hline
  · intro hnone
    refine List.eq_nil_iff_forall_not_mem.2 fun p hp => hnone p.heading ?_ p.name (h.headings p hp)
    rw [h.lines]
    exact List.mem_append_right _ (List.mem_flatMap.2 ⟨p, hp, List.mem_cons_self⟩)

/-- The lines of a unit are lines of the file. -/
theorem before_part (h : Cut ls before parts) : before <:+: ls :=
  ⟨[], parts.flatMap Part.lines, h.lines.symm⟩

theorem body_part (h : Cut ls before parts) {p : Part} (hp : p ∈ parts) : p.body <:+: ls := by
  obtain ⟨front, back, rfl⟩ := List.append_of_mem hp
  refine ⟨before ++ front.flatMap Part.lines ++ [p.heading], back.flatMap Part.lines, ?_⟩
  rw [h.lines, List.flatMap_append, List.flatMap_cons, Part.lines]
  simp

end Cut

/-! The units of a file. -/

variable {f : SourceFile}

/-- A file whose lines are no headings is one unit. -/
theorem units_of_lines (h : ∀ line ∈ Text.lines f.chars, ∀ name, ¬ IsHeading line name) :
    f.units = [f] := by
  obtain ⟨before, parts, hcut, hgroup⟩ := exists_cut (Text.lines f.chars)
  rw [SourceFile.units, hgroup, hcut.parts_eq_nil_iff.2 h]
  rfl

/-- Lines of a file without a heading are one unit under any name. -/
theorem units_of_part {path : String} {ls : List (List Char)} (hpart : ls <:+: Text.lines f.chars)
    (h : ∀ line ∈ ls, ∀ name, ¬ IsHeading line name) :
    SourceFile.units ⟨path, String.ofList ls.flatten⟩ = [⟨path, String.ofList ls.flatten⟩] := by
  have hlines : Text.lines ls.flatten = ls :=
    Text.lines_eq_iff.2 ⟨rfl, (Text.areLines_lines f.chars).of_part hpart⟩
  refine units_of_lines ?_
  rwa [SourceFile.chars, String.toList_ofList, hlines]

/-- The units of a file with a heading: the text before the first one, unless it is blank, and the
parts. -/
theorem units_of_cut {before : List (List Char)} {parts : List Part} (hne : parts ≠ [])
    (hgroup : group (Text.lines f.chars) = (before.flatten, parts.map fun p => (p.name, p.text))) :
    f.units = (if AllBlank before.flatten then [] else [⟨f.path, String.ofList before.flatten⟩]) ++
      parts.map (Part.unit f) := by
  obtain ⟨p, parts, rfl⟩ := List.exists_cons_of_ne_nil hne
  rw [SourceFile.units, hgroup]
  simp only [List.map_cons, Text.trim_eq_nil_iff]
  split
  · simp [Part.unit]
  · simp [Part.unit]

/-- Nothing is lost between the units of a file, and each of them is a file of one unit. -/
structure Splits (f : SourceFile) : Prop where
  single : (∀ line ∈ Text.lines f.chars, ∀ name, ¬ IsHeading line name) → f.units = [f]
  several : (∃ line ∈ Text.lines f.chars, ∃ name, IsHeading line name) →
    ∃ before parts, Cut (Text.lines f.chars) before parts ∧ parts ≠ [] ∧
      f.chars = before.flatten ++ parts.flatMap (fun p => p.heading ++ p.text) ∧
      f.units = (if AllBlank before.flatten then []
        else [⟨f.path, String.ofList before.flatten⟩]) ++
        parts.map (Part.unit f)
  again : ∀ u ∈ f.units, u.units = [u]

theorem splits_units (f : SourceFile) : Splits f := by
  obtain ⟨before, parts, hcut, hgroup⟩ := exists_cut (Text.lines f.chars)
  refine ⟨units_of_lines, fun ⟨line, hline, name, hheading⟩ => ?_, fun u hu => ?_⟩
  · have hne : parts ≠ [] := fun hnil => hcut.parts_eq_nil_iff.1 hnil line hline name hheading
    refine ⟨before, parts, hcut, hne, ?_, units_of_cut hne hgroup⟩
    rw [← hcut.flatten, Text.flatten_lines]
  · by_cases hne : parts = []
    · rw [units_of_lines (hcut.parts_eq_nil_iff.1 hne), List.mem_singleton] at hu
      rw [hu]
      exact units_of_lines (hcut.parts_eq_nil_iff.1 hne)
    · rw [units_of_cut hne hgroup, List.mem_append] at hu
      rcases hu with hbefore | hpart
      · split at hbefore
        · cases hbefore
        · rw [List.mem_singleton.1 hbefore]
          exact units_of_part hcut.before_part hcut.before
      · obtain ⟨p, hp, rfl⟩ := List.mem_map.1 hpart
        exact units_of_part (hcut.body_part hp) (hcut.bodies p hp)

/-- A fifth slash makes no heading, and neither do blanks alone. -/
example : SourceFile.units ⟨"a.php", "a\n//// b \n\n////\n/////c\n////d"⟩ =
    [⟨"a.php", "a\n"⟩, ⟨"a.php#b", "\n////\n/////c\n"⟩, ⟨"a.php#d", ""⟩] := by
  decide

end Section
end ModuleVisibility
