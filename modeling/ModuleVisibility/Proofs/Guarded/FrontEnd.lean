import ModuleVisibility.Proofs.Guarded.Lines
import ModuleVisibility.Proofs.Guarded.Unit

/-!
Reading a program meets no trap: with texts of less than 2^32 bytes, every index, range, cut and
difference on the way from the files to their units is allowed, every loop ends, and what is read is
what the program reads. Nor does looking up a place in the line table of a text, however long it is.
-/
namespace ModuleVisibility
namespace Guarded

/-! Units are no longer than their file. -/

/-- Sorting lines into sections adds no text to any of them. -/
theorem byteSize_group (ls : List (List Char)) :
    Text.byteSize (Section.group ls).1 ≤ Text.byteSize ls.flatten ∧
      ∀ part ∈ (Section.group ls).2, Text.byteSize part.2 ≤ Text.byteSize ls.flatten := by
  induction ls with
  | nil => exact ⟨Nat.le_refl 0, fun _ h => (List.not_mem_nil h).elim⟩
  | cons line ls ih =>
    obtain ⟨hbefore, hparts⟩ := ih
    have hlater : ∀ part ∈ (Section.group ls).2, Text.byteSize part.2 ≤
        Text.byteSize line + Text.byteSize ls.flatten := fun part hpart =>
      Nat.le_trans (hparts part hpart) (Nat.le_add_left ..)
    rw [List.flatten_cons, Text.byteSize_append, Section.group]
    dsimp only
    cases Section.heading? line with
    | none =>
      refine ⟨?_, hlater⟩
      rw [Text.byteSize_append]
      exact Nat.add_le_add_left hbefore _
    | some name =>
      refine ⟨Nat.zero_le _, fun part hpart => ?_⟩
      rcases List.mem_cons.1 hpart with rfl | hpart
      · exact Nat.le_trans hbefore (Nat.le_add_left ..)
      · exact hlater part hpart

theorem byteSize_le_of_mem_units {f u : SourceFile} (h : u ∈ f.units) :
    Text.byteSize u.chars ≤ Text.byteSize f.chars := by
  obtain ⟨hbefore, hparts⟩ := byteSize_group (Text.lines f.chars)
  rw [Text.flatten_lines] at hbefore hparts
  unfold SourceFile.units at h
  split at h
  · rw [List.mem_singleton.1 h]
  · next before parts _ hgroup =>
    rw [hgroup] at hbefore hparts
    have hnamed : u ∈ parts.map (fun part => ⟨Section.pathOf f.path part.1, String.ofList part.2⟩) →
        Text.byteSize u.chars ≤ Text.byteSize f.chars := fun hu => by
      obtain ⟨part, hpart, rfl⟩ := List.mem_map.1 hu
      rw [SourceFile.chars, String.toList_ofList]
      exact hparts part hpart
    dsimp only at h
    split at h
    · exact hnamed h
    · rcases List.mem_cons.1 h with rfl | h
      · rw [SourceFile.chars, String.toList_ofList]
        exact hbefore
      · exact hnamed h

/-! The whole front end. -/

/-- A program of short enough files is read without a trap, and so is every place of every text
looked up: whatever the files say, no access on the way is one that is not allowed, and no loop gets
stuck. -/
theorem parseProgram_meets_no_trap (files : List SourceFile)
    (h : ∀ f ∈ files, Text.byteSize f.chars < 2 ^ 32) :
    parseProgram files = .ok (ModuleVisibility.parseProgram files) ∧
      ∀ cs : List Char, (∀ offset, lineColumn cs offset = .ok (Text.position cs offset)) ∧
        (∀ line, lineRange? cs line = .ok (Text.lineRange? cs line)) ∧
        ∀ line, line? cs line = .ok (Text.line? cs line) := by
  refine ⟨mapM_eq_ok fun unit hunit => ?_, fun cs =>
    ⟨lineColumn_eq_ok cs, lineRange?_eq_ok cs, line?_eq_ok cs⟩⟩
  obtain ⟨f, hf, hunit⟩ := List.mem_flatMap.1 hunit
  exact parseUnit_eq_ok unit (Nat.lt_of_le_of_lt (byteSize_le_of_mem_units hunit) (h f hf))

/-- A file of three units: brackets that are not opened, a backslash before a wide character, a
heredoc and a body that are not closed. -/
def oddFile : SourceFile :=
  ⟨"odd.php",
    "\x7d; function é<T>(: \x7b new \"\\é\x7b$x\n//// b\n<<<X\n é\n//// c\nclass C \x7b const <<>> = \"\\é"⟩

theorem oddFile_meets_no_trap :
    (∀ f ∈ [oddFile], Text.byteSize f.chars < 2 ^ 32) ∧
      parseProgram [oddFile] = .ok (ModuleVisibility.parseProgram [oddFile]) ∧
      lineColumn oddFile.chars 40 = .ok ⟨2, 7⟩ := by
  have hshort : ∀ f ∈ [oddFile], Text.byteSize f.chars < 2 ^ 32 := by decide
  obtain ⟨hread, htable⟩ := parseProgram_meets_no_trap [oddFile] hshort
  have hposition : Text.position oddFile.chars 40 = ⟨2, 7⟩ := by decide
  exact ⟨hshort, hread, hposition ▸ (htable oddFile.chars).1 40⟩

end Guarded
end ModuleVisibility
