import Mathlib.Data.List.Infix
import Mathlib.Data.List.Induction
import Mathlib.Data.List.TakeWhile
import Mathlib.Order.MinMax
import ModuleVisibility.Text.Lines

/-!
Byte ranges that cut a text between characters, and the lines and columns of such places: a line
is counted for each newline before the place, a column for each byte behind the last of them.
-/
namespace ModuleVisibility
namespace Text

/-! Prefixes. -/

theorem byteSize_eq_zero {cs : List Char} (h : byteSize cs = 0) : cs = [] := by
  cases cs with
  | nil => rfl
  | cons c cs =>
    have hc := c.utf8Size_pos
    rw [byteSize_cons] at h
    omega

theorem byteSize_mono {as bs : List Char} (h : as <+: bs) : byteSize as ≤ byteSize bs := by
  obtain ⟨more, rfl⟩ := h
  rw [byteSize_append]
  exact Nat.le_add_right _ _

/-- Two prefixes of one text are nested as their sizes are. -/
theorem prefix_of_byteSize_le {as bs cs : List Char} (ha : as <+: cs) (hb : bs <+: cs)
    (h : byteSize as ≤ byteSize bs) : as <+: bs := by
  rcases List.prefix_or_prefix_of_prefix ha hb with hab | ⟨more, rfl⟩
  · exact hab
  · rw [byteSize_append] at h
    have hnone : more = [] := byteSize_eq_zero (by omega)
    rw [hnone, List.append_nil]

/-! Ranges. -/

/-- Between two characters of the text, or at one of its ends, there are `offset` bytes before. -/
def IsBoundary (cs : List Char) (offset : Nat) : Prop :=
  ∃ before, before <+: cs ∧ byteSize before = offset

/-- The range covers `inside` behind `before`. -/
structure Covers (cs : List Char) (span : Span) (before inside : List Char) : Prop where
  text : before ++ inside <+: cs
  lo : span.lo = byteSize before
  hi : span.hi = byteSize (before ++ inside)

/-- The range ends between characters of the text, or at its ends. -/
structure IsRange (cs : List Char) (span : Span) : Prop where
  lo : IsBoundary cs span.lo
  hi : IsBoundary cs span.hi
  le : span.lo ≤ span.hi

variable {cs : List Char} {span : Span}

theorem Covers.isRange {before inside : List Char} (h : Covers cs span before inside) :
    IsRange cs span where
  lo := ⟨before, (List.prefix_append before inside).trans h.text, h.lo.symm⟩
  hi := ⟨before ++ inside, h.text, h.hi.symm⟩
  le := by
    rw [h.lo, h.hi]
    exact byteSize_mono (List.prefix_append before inside)

theorem IsRange.exists_covers (h : IsRange cs span) :
    ∃ before inside, Covers cs span before inside := by
  obtain ⟨before, hbefore, hlo⟩ := h.lo
  obtain ⟨through, hthrough, hhi⟩ := h.hi
  have hle : byteSize before ≤ byteSize through := by
    rw [hlo, hhi]
    exact h.le
  obtain ⟨inside, rfl⟩ := prefix_of_byteSize_le hbefore hthrough hle
  exact ⟨before, inside, hthrough, hlo.symm, hhi.symm⟩

theorem isRange_origin (cs : List Char) : IsRange cs .origin where
  lo := ⟨[], List.nil_prefix, rfl⟩
  hi := ⟨[], List.nil_prefix, rfl⟩
  le := Nat.le_refl 0

theorem IsRange.endPoint (h : IsRange cs span) : IsRange cs span.endPoint :=
  ⟨h.hi, h.hi, Nat.le_refl _⟩

theorem IsRange.join {other : Span} (h : IsRange cs span) (h' : IsRange cs other) :
    IsRange cs (span.join other) where
  lo := by
    rcases min_choice span.lo other.lo with hmin | hmin <;> rw [Span.join, hmin]
    · exact h.lo
    · exact h'.lo
  hi := by
    rcases max_choice span.hi other.hi with hmax | hmax <;> rw [Span.join, hmax]
    · exact h.hi
    · exact h'.hi
  le := Nat.le_trans (Nat.min_le_left _ _) (Nat.le_trans h.le (Nat.le_max_left _ _))

/-- A range that starts no later than another and ends with it covers the text of the other last. -/
theorem IsRange.covers_of_suffix {other : Span} {before inside : List Char} (h : IsRange cs span)
    (hother : Covers cs other before inside) (hlo : span.lo ≤ other.lo) (hhi : span.hi = other.hi) :
    ∃ before' inside', Covers cs span before' inside' ∧ inside <:+ inside' := by
  obtain ⟨front, hfront, hsize⟩ := h.lo
  have hle : byteSize front ≤ byteSize before := by
    rw [hsize, ← hother.lo]
    exact hlo
  obtain ⟨middle, rfl⟩ :=
    prefix_of_byteSize_le hfront ((List.prefix_append before inside).trans hother.text) hle
  refine ⟨front, middle ++ inside, ⟨?_, hsize.symm, ?_⟩, List.suffix_append middle inside⟩
  · rw [← List.append_assoc]
    exact hother.text
  · rw [hhi, hother.hi, List.append_assoc]

/-! Lines and columns. -/

/-- What stands behind the last newline. -/
def lastLine (cs : List Char) : List Char := (cs.reverse.takeWhile (· != '\n')).reverse

theorem lastLine_concat (cs : List Char) (c : Char) :
    lastLine (cs ++ [c]) = if c = '\n' then [] else lastLine cs ++ [c] := by
  unfold lastLine
  rw [List.reverse_concat, List.takeWhile_cons]
  by_cases hc : c = '\n' <;> simp [hc]

theorem laterLineStarts_append (start : Nat) (before after : List Char) :
    laterLineStarts start (before ++ after) =
      laterLineStarts start before ++ laterLineStarts (start + byteSize before) after := by
  induction before generalizing start with
  | nil => rfl
  | cons c before ih =>
    simp only [List.cons_append, laterLineStarts, ih, byteSize_cons, ← Nat.add_assoc]
    split <;> rfl

theorem le_of_mem_laterLineStarts {start lineStart : Nat} {cs : List Char}
    (h : lineStart ∈ laterLineStarts start cs) :
    start < lineStart ∧ lineStart ≤ start + byteSize cs := by
  induction cs generalizing start with
  | nil => cases h
  | cons c cs ih =>
    have hc := c.utf8Size_pos
    have hlater : lineStart ∈ laterLineStarts (start + c.utf8Size) cs →
        start < lineStart ∧ lineStart ≤ start + byteSize (c :: cs) := by
      intro hlater
      obtain ⟨hlt, hle⟩ := ih hlater
      rw [byteSize_cons]
      omega
    simp only [laterLineStarts] at h
    split at h
    · rcases List.mem_cons.1 h with rfl | hlater'
      · rw [byteSize_cons]
        omega
      · exact hlater hlater'
    · exact hlater h

theorem length_laterLineStarts (start : Nat) (cs : List Char) :
    (laterLineStarts start cs).length = cs.count '\n' := by
  induction cs generalizing start with
  | nil => rfl
  | cons c cs ih =>
    simp only [laterLineStarts]
    split
    · next hc => rw [hc, List.length_cons, List.count_cons_self, ih]
    · next hc => rw [List.count_cons_of_ne hc, ih]

/-- The last line starts as many bytes before the end as it is long. -/
theorem getLastD_lineStarts (cs : List Char) :
    (lineStarts cs).getLastD 0 + byteSize (lastLine cs) = byteSize cs := by
  induction cs using List.reverseRecOn with
  | nil => rfl
  | append_singleton cs c ih =>
    unfold lineStarts at ih ⊢
    rw [laterLineStarts_append, lastLine_concat, byteSize_append, Nat.zero_add]
    simp only [laterLineStarts, byteSize_cons, byteSize_nil, Nat.add_zero]
    split
    · rw [← List.cons_append, List.getLastD_concat]
      rfl
    · rw [List.append_nil, byteSize_append, ← Nat.add_assoc, ih]
      rfl

/-- The lines that start up to a place are those of the text before it. -/
theorem takeWhile_lineStarts (before after : List Char) :
    (lineStarts (before ++ after)).takeWhile (· ≤ byteSize before) = lineStarts before := by
  have hbefore : ∀ lineStart ∈ lineStarts before, decide (lineStart ≤ byteSize before) = true := by
    intro lineStart h
    rcases List.mem_cons.1 h with rfl | hlater
    · exact decide_eq_true (Nat.zero_le _)
    · have hle := (le_of_mem_laterLineStarts hlater).2
      exact decide_eq_true (by omega)
  have hafter : (laterLineStarts (0 + byteSize before) after).takeWhile (· ≤ byteSize before) =
      [] := by
    rw [List.takeWhile_eq_nil_iff]
    intro hpos hle
    have hlt := (le_of_mem_laterLineStarts (List.get_mem _ ⟨0, hpos⟩)).1
    have hle := of_decide_eq_true hle
    omega
  have hsplit : lineStarts (before ++ after) =
      lineStarts before ++ laterLineStarts (0 + byteSize before) after := by
    unfold lineStarts
    rw [laterLineStarts_append]
    rfl
  rw [hsplit, List.takeWhile_append_of_pos hbefore, hafter, List.append_nil]

/-- The position at which a text ends, one line further for each newline. -/
def endPosition (before : List Char) : Position :=
  ⟨before.count '\n' + 1, byteSize (lastLine before) + 1⟩

/-- The position of a byte is that at which the text before it ends. -/
theorem position_byteSize (before after : List Char) :
    position (before ++ after) (byteSize before) = endPosition before := by
  have hinside : min (byteSize before) (byteSize (before ++ after)) = byteSize before :=
    Nat.min_eq_left (byteSize_mono (List.prefix_append before after))
  have hlast := getLastD_lineStarts before
  have hlength : (lineStarts before).length = before.count '\n' + 1 := by
    rw [lineStarts, List.length_cons, length_laterLineStarts]
  unfold position endPosition
  simp only [hinside, takeWhile_lineStarts, hlength]
  congr 2
  omega

/-- Both ends of a range are where the text up to them ends. -/
theorem Covers.position {before inside : List Char} (h : Covers cs span before inside) :
    Text.position cs span.lo = endPosition before ∧
      Text.position cs span.hi = endPosition (before ++ inside) := by
  obtain ⟨after, rfl⟩ := h.text
  rw [h.lo, h.hi, position_byteSize]
  refine ⟨?_, rfl⟩
  rw [List.append_assoc, position_byteSize]

end Text
end ModuleVisibility
