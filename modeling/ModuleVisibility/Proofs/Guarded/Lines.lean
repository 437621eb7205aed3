import ModuleVisibility.Proofs.Guarded.Basic
import ModuleVisibility.Proofs.TextPosition
import ModuleVisibility.Source

/-!
The line table on offsets: the line of a byte is searched for in the starts of the lines, and a line
is cut out of the text between two of them. The first line starts at byte zero, so no search ends
before it, and each further line starts behind a newline, which is one byte.
-/
namespace ModuleVisibility
namespace Guarded

/-- The index of the line that a byte is in: the one that starts there, or the one before the place
where it would stand among the starts. -/
def lineIndex (starts : List Nat) (offset : Nat) : Guarded Nat :=
  let next := (starts.takeWhile (· < offset)).length
  if starts[next]? = some offset then .ok next else sub next 1

/-- The line and column of a byte. -/
def lineColumn (cs : List Char) (offset : Nat) : Guarded Position := do
  let starts := Text.lineStarts cs
  let inside := min offset (Text.byteSize cs)
  let line ← lineIndex starts inside
  let start ← index starts line
  let column ← sub inside start
  return ⟨line + 1, column + 1⟩

/-- The end of the line before the one with this index. -/
def lineEnd (cs : List Char) (line : Nat) : Guarded Nat :=
  match (Text.lineStarts cs)[line]? with
  | some next => sub next 1
  | none => return Text.byteSize cs

/-- The byte range of a line. -/
def lineRange? (cs : List Char) (line : Nat) : Guarded (Option Span) :=
  if line = 0 ∨ (Text.lineStarts cs).length < line then return none
  else do
    let i ← sub line 1
    let start ← index (Text.lineStarts cs) i
    let stop ← lineEnd cs line
    return some ⟨start, max stop start⟩

/-- A line without the carriage returns it ends with. -/
def line? (cs : List Char) (line : Nat) : Guarded (Option (List Char)) := do
  let span? ← lineRange? cs line
  match span? with
  | none => return none
  | some span => do
    let text ← textRange cs span.lo span.hi
    return some (text.reverse.dropWhile (· == '\r')).reverse

/-! Starts of lines. -/

theorem pairwise_laterLineStarts (start : Nat) (cs : List Char) :
    (Text.laterLineStarts start cs).Pairwise (· < ·) := by
  induction cs generalizing start with
  | nil => exact .nil
  | cons c cs ih =>
    rw [Text.laterLineStarts]
    split
    · exact .cons (fun _ h => (Text.le_of_mem_laterLineStarts h).1) (ih _)
    · exact ih _

theorem pairwise_lineStarts (cs : List Char) : (Text.lineStarts cs).Pairwise (· < ·) :=
  .cons (fun _ h => (Text.le_of_mem_laterLineStarts h).1) (pairwise_laterLineStarts 0 cs)

/-- A line behind the first starts behind a newline. -/
theorem exists_newline_of_mem_laterLineStarts {start lineStart : Nat} {cs : List Char}
    (h : lineStart ∈ Text.laterLineStarts start cs) :
    ∃ before, before ++ ['\n'] <+: cs ∧ lineStart = start + Text.byteSize before + 1 := by
  induction cs generalizing start with
  | nil => cases h
  | cons c cs ih =>
    have hlater : lineStart ∈ Text.laterLineStarts (start + c.utf8Size) cs →
        ∃ before, before ++ ['\n'] <+: c :: cs ∧ lineStart = start + Text.byteSize before + 1 := by
      intro hlater
      obtain ⟨before, hbefore, rfl⟩ := ih hlater
      refine ⟨c :: before, List.cons_prefix_cons.2 ⟨rfl, hbefore⟩, ?_⟩
      rw [Text.byteSize_cons, Nat.add_assoc start]
    rw [Text.laterLineStarts] at h
    split at h
    · next hc =>
      subst hc
      rcases List.mem_cons.1 h with rfl | h
      · exact ⟨[], ⟨cs, rfl⟩, rfl⟩
      · exact hlater h
    · exact hlater h

theorem isBoundary_of_mem_laterLineStarts {lineStart : Nat} {cs : List Char}
    (h : lineStart ∈ Text.laterLineStarts 0 cs) :
    Text.IsBoundary cs lineStart ∧ Text.IsBoundary cs (lineStart - 1) := by
  obtain ⟨before, hbefore, rfl⟩ := exists_newline_of_mem_laterLineStarts h
  refine ⟨⟨_, hbefore, ?_⟩, before, (List.prefix_append before _).trans hbefore, ?_⟩
  · rw [Text.byteSize_append, Nat.zero_add]
    rfl
  · rw [Nat.zero_add, Nat.add_sub_cancel]

theorem isBoundary_of_mem_lineStarts {lineStart : Nat} {cs : List Char}
    (h : lineStart ∈ Text.lineStarts cs) :
    Text.IsBoundary cs lineStart := by
  rcases List.mem_cons.1 h with rfl | h
  · exact ⟨[], List.nil_prefix, rfl⟩
  · exact (isBoundary_of_mem_laterLineStarts h).1

theorem le_byteSize_of_isBoundary {cs : List Char} {offset : Nat} (h : Text.IsBoundary cs offset) :
    offset ≤ Text.byteSize cs := by
  obtain ⟨before, hbefore, rfl⟩ := h
  exact Text.byteSize_mono hbefore

/-! The line of a byte. -/

/-- The search ends at the last line that starts no later than the byte. -/
theorem lineIndex_eq_ok {before after : List Nat} {start offset : Nat}
    (hsorted : (before ++ start :: after).Pairwise (· < ·)) (hstart : start ≤ offset)
    (hafter : ∀ later ∈ after, offset < later) :
    lineIndex (before ++ start :: after) offset = .ok before.length := by
  have hbefore : ∀ earlier ∈ before, decide (earlier < offset) = true := fun earlier hearlier => by
    have hlt := (List.pairwise_append.1 hsorted).2.2 earlier hearlier start List.mem_cons_self
    exact decide_eq_true (Nat.lt_of_lt_of_le hlt hstart)
  have hplace : At (before ++ start :: after) before.length (start :: after) := ⟨before, rfl, rfl⟩
  rcases Nat.eq_or_lt_of_le hstart with rfl | hlt
  · have hnext : (before ++ start :: after).takeWhile (· < start) = before := by
      rw [List.takeWhile_append_of_pos hbefore, List.takeWhile_cons_of_neg (by simp),
        List.append_nil]
    rw [lineIndex, hnext]
    exact if_pos hplace.getElem?_cons
  · have hnext : (before ++ start :: after).takeWhile (· < offset) = before ++ [start] := by
      have hrest : after.takeWhile (· < offset) = [] := by
        cases after with
        | nil => rfl
        | cons later after =>
          have hle := Nat.le_of_lt (hafter later List.mem_cons_self)
          exact List.takeWhile_cons_of_neg (by simpa using hle)
      rw [List.takeWhile_append_of_pos hbefore, List.takeWhile_cons,
        if_pos (decide_eq_true hlt), hrest]
    have hmissing : (before ++ start :: after)[before.length + 1]? ≠ some offset := by
      rw [hplace.next.getElem?]
      intro hhead
      exact Nat.lt_irrefl _ (hafter offset (List.mem_of_head? hhead))
    rw [lineIndex, hnext, List.length_append, List.length_singleton]
    rw [if_neg hmissing, sub_succ]

/-- Behind the first number above a bound there are only such numbers. -/
theorem lt_of_mem_dropWhile {starts : List Nat} {offset : Nat} (h : starts.Pairwise (· < ·)) :
    ∀ later ∈ starts.dropWhile (· ≤ offset), offset < later := by
  induction starts with
  | nil => exact fun _ h => (List.not_mem_nil h).elim
  | cons start starts ih =>
    rw [List.dropWhile_cons]
    split
    · exact ih h.of_cons
    · next habove =>
      have hstart : offset < start := Nat.lt_of_not_le fun hle => habove (decide_eq_true hle)
      intro later hlater
      rcases List.mem_cons.1 hlater with rfl | hlater
      · exact hstart
      · exact Nat.lt_trans hstart (List.rel_of_pairwise_cons h hlater)

/-- The starts of lines up to a byte, of which there is a last one, and those behind it. -/
theorem exists_lineStarts_eq (cs : List Char) (offset : Nat) :
    ∃ before start after, Text.lineStarts cs = before ++ start :: after ∧
      (Text.lineStarts cs).takeWhile (· ≤ offset) = before ++ [start] ∧ start ≤ offset ∧
      ∀ later ∈ after, offset < later := by
  obtain ⟨before, start, hstarted⟩ :
      ∃ before start, (Text.lineStarts cs).takeWhile (· ≤ offset) = before ++ [start] := by
    rw [Text.lineStarts, List.takeWhile_cons, if_pos (decide_eq_true (Nat.zero_le offset))]
    exact ⟨_, _, (List.dropLast_append_getLast (List.cons_ne_nil _ _)).symm⟩
  have hsplit := List.takeWhile_append_dropWhile (p := (· ≤ offset)) (l := Text.lineStarts cs)
  rw [hstarted, List.append_assoc, List.singleton_append] at hsplit
  have hmem : start ∈ (Text.lineStarts cs).takeWhile (· ≤ offset) := by
    rw [hstarted]
    exact List.mem_append_right _ (List.mem_singleton_self start)
  have hle := List.mem_takeWhile_imp hmem
  exact ⟨before, start, _, hsplit.symm, hstarted, of_decide_eq_true hle,
    lt_of_mem_dropWhile (pairwise_lineStarts cs)⟩

theorem lineColumn_eq_ok (cs : List Char) (offset : Nat) :
    lineColumn cs offset = .ok (Text.position cs offset) := by
  obtain ⟨before, start, after, hstarts, hstarted, hle, hafter⟩ :=
    exists_lineStarts_eq cs (min offset (Text.byteSize cs))
  have hplace : At (Text.lineStarts cs) before.length (start :: after) :=
    ⟨before, hstarts.symm, rfl⟩
  have hline : lineIndex (Text.lineStarts cs) (min offset (Text.byteSize cs)) =
      .ok before.length := by
    rw [hstarts]
    exact lineIndex_eq_ok (hstarts ▸ pairwise_lineStarts cs) hle hafter
  rw [lineColumn, Text.position]
  rw [hline, ok_bind, hplace.index, ok_bind, sub_of_le hle, ok_bind, hstarted, List.getLastD_concat,
    List.length_append]
  rfl

/-! The text of a line. -/

/-- Where a line ends when these are the starts of the lines behind it. -/
def lineStop (cs : List Char) : List Nat → Nat
  | [] => Text.byteSize cs
  | next :: _ => next - 1

section

variable {cs : List Char} {later : List Nat} {n start : Nat}

theorem At.lineEnd (h : At (Text.lineStarts cs) n (start :: later)) :
    lineEnd cs (n + 1) = .ok (lineStop cs later) := by
  rw [Guarded.lineEnd, h.next.getElem?]
  cases later with
  | nil => rfl
  | cons next later =>
    obtain ⟨before, hstarts, _⟩ := h
    have hsorted := (List.pairwise_append.1 (hstarts ▸ pairwise_lineStarts cs)).2.1
    have hlt := List.rel_of_pairwise_cons hsorted List.mem_cons_self
    exact sub_of_le (Nat.succ_le_of_lt (Nat.zero_lt_of_lt hlt))

/-- A line lies between characters: it starts behind a newline and stops before one. -/
theorem At.isRange_line (h : At (Text.lineStarts cs) n (start :: later)) :
    Text.IsRange cs ⟨start, lineStop cs later⟩ := by
  obtain ⟨before, hstarts, _⟩ := h
  have hmem : ∀ s ∈ start :: later, s ∈ Text.lineStarts cs := fun s hs =>
    hstarts ▸ List.mem_append_right before hs
  have hstart := isBoundary_of_mem_lineStarts (hmem start List.mem_cons_self)
  cases later with
  | nil => exact ⟨hstart, ⟨cs, List.prefix_rfl, rfl⟩, le_byteSize_of_isBoundary hstart⟩
  | cons next later =>
    have hsorted := (List.pairwise_append.1 (hstarts ▸ pairwise_lineStarts cs)).2.1
    have hlt : start < next := List.rel_of_pairwise_cons hsorted List.mem_cons_self
    rcases List.mem_cons.1 (hmem next (List.mem_cons_of_mem _ List.mem_cons_self)) with rfl | hnext
    · exact (Nat.not_lt_zero start hlt).elim
    · exact ⟨hstart, (isBoundary_of_mem_laterLineStarts hnext).2, Nat.le_sub_one_of_lt hlt⟩

/-- A line that there is not has no range; that of another one is read off the starts of the
lines. -/
theorem lineRange?_cases (cs : List Char) (n : Nat) :
    ((Text.lineStarts cs).length ≤ n ∧ Text.lineRange? cs (n + 1) = none) ∨
      ∃ start later, At (Text.lineStarts cs) n (start :: later) ∧
        Text.lineRange? cs (n + 1) = some ⟨start, lineStop cs later⟩ := by
  unfold Text.lineRange?
  rw [if_neg (Nat.succ_ne_zero n), Nat.add_sub_cancel]
  rcases Nat.lt_or_ge n (Text.lineStarts cs).length with hlt | hge
  · have hplace := At.of_drop (Nat.le_of_lt hlt)
    rcases hrest : (Text.lineStarts cs).drop n with _ | ⟨start, _ | ⟨next, later⟩⟩
    · exact (Nat.not_le_of_lt hlt (List.drop_eq_nil_iff.1 hrest)).elim
    · exact .inr ⟨start, [], hrest ▸ hplace, rfl⟩
    · exact .inr ⟨start, next :: later, hrest ▸ hplace, rfl⟩
  · refine .inl ⟨hge, ?_⟩
    rw [List.drop_eq_nil_of_le hge]

end

theorem lineRange?_eq_ok (cs : List Char) (line : Nat) :
    lineRange? cs line = .ok (Text.lineRange? cs line) := by
  cases line with
  | zero => rfl
  | succ n =>
    rcases lineRange?_cases cs n with ⟨hle, hnone⟩ | ⟨start, later, hplace, hrange⟩
    · rw [hnone, lineRange?, if_pos (.inr (Nat.lt_succ_of_le hle))]
      rfl
    · have hlength : ¬ (n + 1 = 0 ∨ (Text.lineStarts cs).length < n + 1) := by
        have := hplace.length_eq
        rw [List.length_cons] at this
        omega
      have hle : start ≤ lineStop cs later := hplace.isRange_line.le
      rw [hrange, lineRange?, if_neg hlength, sub_succ, ok_bind, hplace.index,
        ok_bind, hplace.lineEnd, ok_bind, Nat.max_eq_left hle]
      rfl

theorem isRange_of_lineRange? {cs : List Char} {line : Nat} {span : Span}
    (h : Text.lineRange? cs line = some span) : Text.IsRange cs span := by
  cases line with
  | zero => cases h
  | succ n =>
    rcases lineRange?_cases cs n with ⟨_, hnone⟩ | ⟨start, later, hplace, hrange⟩
    · rw [hnone] at h
      cases h
    · rw [hrange] at h
      cases h
      exact hplace.isRange_line

theorem line?_eq_ok (cs : List Char) (line : Nat) :
    Guarded.line? cs line = .ok (Text.line? cs line) := by
  rw [Guarded.line?, lineRange?_eq_ok, ok_bind, Text.line?]
  cases hspan : Text.lineRange? cs line with
  | none => rfl
  | some span =>
    obtain ⟨before, inside, hcovers⟩ := (isRange_of_lineRange? hspan).exists_covers
    obtain ⟨after, rfl⟩ := hcovers.text
    have hplace : TextAt (before ++ inside ++ after) span.lo (inside ++ after) :=
      ⟨before, (List.append_assoc ..).symm, hcovers.lo.symm⟩
    have hhi : span.hi = span.lo + Text.byteSize inside := by
      rw [hcovers.hi, hcovers.lo, Text.byteSize_append]
    have hslice := hplace.slice?
    have htext := hplace.textRange
    rw [← hhi] at hslice htext
    dsimp only
    rw [htext, ok_bind]
    dsimp only [Option.bind_eq_bind, Option.bind_some]
    rw [hslice]
    rfl

end Guarded
end ModuleVisibility
