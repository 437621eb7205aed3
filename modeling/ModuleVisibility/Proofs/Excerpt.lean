import ModuleVisibility.Proofs.LineTable
import ModuleVisibility.Proofs.Location
import ModuleVisibility.Report.Excerpt

/-!
What an excerpt marks. Below the line that a diagnostic is about there are as many blanks as the
line has bytes before the range, and as many carets as the range has bytes. So the carets stand
below the text of the range exactly if there is no wide character in it, nor before it in its line.
-/
namespace ModuleVisibility

namespace Text

/-! Lines. -/

/-- `line` is a line of the text: it is behind a newline or the start, and before a newline or the
end. -/
structure IsLine (cs above line below : List Char) : Prop where
  text : cs = above ++ line ++ below
  oneLine : '\n' ∉ line
  above : ∀ c ∈ above.getLast?, c = '\n'
  below : ∀ c ∈ below.head?, c = '\n'

/-- A line as it is shown, without the carriage returns that it ends with. -/
def withoutReturns (line : List Char) : List Char := (line.reverse.dropWhile (· == '\r')).reverse

theorem lastLine_append {before line : List Char} (h : '\n' ∉ line) :
    lastLine (before ++ line) = lastLine before ++ line := by
  have hall : ∀ c ∈ line.reverse, (c != '\n') = true := by
    intro c hc
    exact bne_iff_ne.2 fun heq => h (heq ▸ List.mem_reverse.1 hc)
  rw [lastLine, List.reverse_append, List.takeWhile_append_of_pos hall, List.reverse_append,
    List.reverse_reverse]
  rfl

theorem lastLine_eq_nil {above : List Char} (h : ∀ c ∈ above.getLast?, c = '\n') :
    lastLine above = [] := by
  induction above using List.reverseRecOn with
  | nil => rfl
  | append_singleton above c _ => rw [lastLine_concat, if_pos (h c (by simp))]

/-- Every range without a newline has a line around it. -/
theorem exists_isLine (before after : List Char) {inside : List Char} (h : '\n' ∉ inside) :
    ∃ above below lead tail, before = above ++ lead ∧ after = tail ++ below ∧
      IsLine (before ++ inside ++ after) above (lead ++ inside ++ tail) below := by
  have hstart := List.head?_dropWhile_not (· != '\n') before.reverse
  have hstop := List.head?_dropWhile_not (· != '\n') after
  have hbefore : before = (before.reverse.dropWhile (· != '\n')).reverse ++ lastLine before := by
    rw [lastLine, ← List.reverse_append, List.takeWhile_append_dropWhile, List.reverse_reverse]
  have hafter : after = after.takeWhile (· != '\n') ++ after.dropWhile (· != '\n') :=
    List.takeWhile_append_dropWhile.symm
  have hnone : ∀ cs : List Char, '\n' ∉ cs.takeWhile (· != '\n') := by
    intro cs hmem
    simpa using List.mem_takeWhile_imp hmem
  refine ⟨_, _, _, _, hbefore, hafter, ?_, ?_, ?_, ?_⟩
  · rw [← List.append_assoc, ← List.append_assoc, ← hbefore,
      List.append_assoc _ _ (after.dropWhile _), ← hafter]
  · simp only [List.mem_append, not_or]
    exact ⟨⟨fun hmem => hnone _ (List.mem_reverse.1 hmem), h⟩, hnone after⟩
  · intro c hc
    rw [List.getLast?_reverse, Option.mem_def] at hc
    rw [hc] at hstart
    simpa using hstart
  · intro c hc
    rw [Option.mem_def] at hc
    rw [hc] at hstop
    simpa using hstop

section

variable {cs above line below : List Char}

theorem IsLine.lineRange? (h : IsLine cs above line below) :
    lineRange? cs (above.count '\n' + 1) =
      some ⟨byteSize above, byteSize above + byteSize line⟩ := by
  obtain ⟨rfl, hline, habove, hbelow⟩ := h
  have hsize := getLastD_lineStarts above
  rw [lastLine_eq_nil habove, byteSize_nil, Nat.add_zero] at hsize
  obtain ⟨front, last, hstarts⟩ : ∃ front last, lineStarts above = front ++ [last] :=
    ⟨_, _, (List.dropLast_concat_getLast (List.cons_ne_nil 0 _)).symm⟩
  rw [hstarts, List.getLastD_concat] at hsize
  have hfront : front.length = above.count '\n' := by
    have hlength := congrArg List.length hstarts
    rw [lineStarts, List.length_cons, length_laterLineStarts, List.length_append,
      List.length_singleton] at hlength
    omega
  have hlater : lineStarts (above ++ line ++ below) =
      front ++ ([last] ++ laterLineStarts (byteSize above + byteSize line) below) := by
    unfold lineStarts at hstarts ⊢
    rw [List.append_assoc, laterLineStarts_append, laterLineStarts_append,
      laterLineStarts_of_not_mem hline, ← List.cons_append, hstarts, Nat.zero_add, List.nil_append,
      List.append_assoc]
  unfold Text.lineRange?
  rw [if_neg (Nat.succ_ne_zero _), Nat.add_sub_cancel, hlater, List.drop_left' hfront, hsize]
  cases below with
  | nil => simp [laterLineStarts]
  | cons c below =>
    have hc : c = '\n' := hbelow c rfl
    have hone : ('\n').utf8Size = 1 := rfl
    simp [laterLineStarts, hc, hone]

theorem IsLine.line? (h : IsLine cs above line below) :
    line? cs (above.count '\n' + 1) = some (withoutReturns line) := by
  have hplace : Guarded.TextAt cs (byteSize above) (line ++ below) :=
    ⟨above, by rw [h.text, List.append_assoc], rfl⟩
  rw [Text.line?, h.lineRange?, Option.bind_eq_bind, Option.bind_some, hplace.slice?]
  rfl

/-- Up to a place of the line there are the newlines above, and the part of the line before that
place. -/
theorem IsLine.position {lead rest : List Char} (h : IsLine cs above (lead ++ rest) below) :
    position cs (byteSize (above ++ lead)) = ⟨above.count '\n' + 1, byteSize lead + 1⟩ := by
  obtain ⟨rfl, hline, habove, -⟩ := h
  have hlead : '\n' ∉ lead := fun hmem => hline (List.mem_append_left rest hmem)
  rw [← List.append_assoc, List.append_assoc (above ++ lead), position_byteSize, endPosition,
    lastLine_append hlead, lastLine_eq_nil habove, List.count_append, List.count_eq_zero.2 hlead]
  rfl

end

/-! Bytes and characters. -/

theorem utf8Size_eq_one_iff {c : Char} : c.utf8Size = 1 ↔ isWide c = false := by
  refine ⟨fun hone => ?_, Guarded.utf8Size_of_narrow⟩
  rw [Char.utf8Size_eq_one_iff, UInt32.le_iff_toNat_le] at hone
  rw [Bool.eq_false_iff, Ne, Guarded.isWide_iff]
  exact Nat.not_le.2 (Nat.lt_succ_of_le hone)

/-- A text has as many bytes as characters exactly if none is wide. -/
theorem byteSize_eq_length_iff {cs : List Char} :
    byteSize cs = cs.length ↔ ∀ c ∈ cs, isWide c = false := by
  have hle : ∀ cs : List Char, cs.length ≤ byteSize cs := by
    intro cs
    induction cs with
    | nil => exact Nat.le_refl 0
    | cons c cs ih =>
      have hpos := c.utf8Size_pos
      rw [byteSize_cons, List.length_cons]
      omega
  induction cs with
  | nil => simp
  | cons c cs ih =>
    have hpos := c.utf8Size_pos
    have hrest := hle cs
    rw [List.forall_mem_cons]
    refine Iff.trans ?_ (and_congr utf8Size_eq_one_iff ih)
    rw [byteSize_cons, List.length_cons]
    omega

end Text

namespace Diagnostic

open Text (byteSize isWide withoutReturns)

/-- The range of the diagnostic covers `inside`, which is not empty and stands in one line, between
`lead` and `tail`. -/
structure OnLine (d : Diagnostic) (m : SourceMap) (lead inside tail : List Char) : Prop where
  nonempty : inside ≠ []
  line : ∃ f above below, m.get? d.location.unit = some f ∧
    Text.IsLine f.chars above (lead ++ inside ++ tail) below ∧
    d.location.span = ⟨byteSize (above ++ lead), byteSize (above ++ lead ++ inside)⟩

/-- What is shown of a diagnostic with a line and, below it, a row that starts as wide as that of
the line and has some blanks and carets. -/
def markedLines (d : Diagnostic) (line : String) (blanks carets : Nat) : List String :=
  let number := toString d.location.start.line
  let margin := "".pushn ' ' number.length
  [d.headline .plain, "  --> " ++ d.place, margin ++ " |", number ++ " | " ++ line,
    margin ++ " | " ++ "".pushn ' ' blanks ++ "".pushn '^' carets,
    margin ++ " |"] ++ d.suggestionLines .plain

variable {d : Diagnostic} {m : SourceMap} {f : SourceFile} {lead inside tail : List Char}

/-- The diagnostic has the location of its range in a file. -/
def LocatedIn (d : Diagnostic) (m : SourceMap) (f : SourceFile) : Prop :=
  m.get? d.location.unit = some f ∧ d.location = m.locate d.location.unit d.location.span

theorem LocatedIn.location_eq (h : d.LocatedIn m f) :
    d.location = ⟨d.location.unit, f.path, d.location.span, f.position d.location.span.lo,
      f.position d.location.span.hi⟩ := by
  obtain ⟨hget, hlocation⟩ := h
  rw [SourceMap.locate, hget] at hlocation
  exact hlocation

/-- Both ends of the range are on the line, and their columns count the bytes before them. -/
theorem OnLine.positions (h : d.OnLine m lead inside tail) (hlocated : d.LocatedIn m f) :
    ∃ above : List Char, d.location.start = ⟨above.count '\n' + 1, byteSize lead + 1⟩ ∧
      d.location.stop = ⟨above.count '\n' + 1, byteSize (lead ++ inside) + 1⟩ ∧
      d.sourceLine? m = some (String.ofList (withoutReturns (lead ++ inside ++ tail))) := by
  obtain ⟨other, above, below, hother, hline, hspan⟩ := h.line
  obtain rfl : f = other := Option.some.inj (hlocated.1.symm.trans hother)
  have hlocation := hlocated.location_eq
  have hstart : d.location.start = ⟨above.count '\n' + 1, byteSize lead + 1⟩ := by
    have hfront :
        Text.IsLine f.chars above (lead ++ (inside ++ tail)) below := by rwa [← List.append_assoc]
    rw [hlocation, hspan]
    exact hfront.position
  have hstop : d.location.stop = ⟨above.count '\n' + 1, byteSize (lead ++ inside) + 1⟩ := by
    rw [hlocation, hspan, List.append_assoc above]
    exact hline.position
  have hpath : f.path = d.location.file := by rw [hlocation]
  refine ⟨above, hstart, hstop, ?_⟩
  rw [sourceLine?, hother, Option.filter_some, if_pos (by simp [hpath]), Option.bind_some,
    SourceFile.line?, hstart, hline.line?]
  rfl

theorem OnLine.caretCount_eq (h : d.OnLine m lead inside tail) (hlocated : d.LocatedIn m f) :
    d.caretCount = byteSize inside := by
  obtain ⟨above, hstart, hstop, -⟩ := h.positions hlocated
  have hpos : byteSize inside ≠ 0 := fun hzero => h.nonempty (Text.byteSize_eq_zero hzero)
  rw [caretCount, hstart, hstop, Text.byteSize_append]
  dsimp only
  rw [if_pos ⟨rfl, by omega⟩]
  omega

/-- Blanks and carets are counted in bytes. -/
theorem OnLine.prettyLines_eq (h : d.OnLine m lead inside tail) (hlocated : d.LocatedIn m f) :
    d.prettyLines m .plain = d.markedLines (String.ofList (withoutReturns (lead ++ inside ++ tail)))
      (byteSize lead) (byteSize inside) := by
  obtain ⟨above, hstart, hstop, hsource⟩ := h.positions hlocated
  have hblanks : d.location.start.column - 1 = byteSize lead := by
    rw [hstart]
    exact Nat.add_sub_cancel ..
  rw [prettyLines, hsource, Option.map_some, Option.getD_some, excerptLines, caretRow,
    h.caretCount_eq hlocated, hblanks]
  simp only [rule, Style.paint_plain, markedLines, margin, String.append_assoc]
  rfl

theorem toList_pushn (s : String) (c : Char) (n : Nat) :
    (s.pushn c n).toList = s.toList ++ List.replicate n c := by
  induction n with
  | zero => simp [String.pushn, Nat.repeat]
  | succ n ih =>
    have hpush : s.pushn c (n + 1) = (s.pushn c n).push c := rfl
    rw [hpush, String.toList_push, ih, List.append_assoc, ← List.replicate_succ']

/-- The row tells how many blanks and carets there are. -/
theorem markedLines_inj {line : String} {blanks carets blanks' carets' : Nat} :
    d.markedLines line blanks carets = d.markedLines line blanks' carets' ↔
      blanks = blanks' ∧ carets = carets' := by
  refine ⟨fun h => ?_, fun ⟨hblanks, hcarets⟩ => by rw [hblanks, hcarets]⟩
  have hrow := congrArg String.toList (Option.some.inj (congrArg (·[4]?) h))
  simp only [String.append_assoc, String.toList_append, List.append_cancel_left_eq,
    toList_pushn] at hrow
  have hcount : ∀ c, List.count c (List.replicate blanks ' ' ++ List.replicate carets '^') =
      List.count c (List.replicate blanks' ' ' ++ List.replicate carets' '^') := fun c =>
      congrArg (List.count c) hrow
  have hblanks := hcount ' '
  have hcarets := hcount '^'
  simp [List.count_append, List.count_replicate] at hblanks hcarets
  exact ⟨hblanks, hcarets⟩

/-- The carets stand below the text of the range exactly if there are no wide characters up to its
end. -/
theorem OnLine.marked_iff (h : d.OnLine m lead inside tail) (hlocated : d.LocatedIn m f) :
    d.prettyLines m .plain = d.markedLines (String.ofList (withoutReturns (lead ++ inside ++ tail)))
      lead.length inside.length ↔ ∀ c ∈ lead ++ inside, isWide c = false := by
  rw [h.prettyLines_eq hlocated, markedLines_inj, Text.byteSize_eq_length_iff,
    Text.byteSize_eq_length_iff, List.forall_mem_append]

/-- A range that is not empty and ends where it starts has a line. -/
theorem LocatedIn.exists_onLine (h : d.LocatedIn m f)
    (hrange : Text.IsRange f.chars d.location.span)
    (hnonempty : d.location.span.lo < d.location.span.hi)
    (hline : d.location.stop.line = d.location.start.line) :
    ∃ lead inside tail, d.OnLine m lead inside tail := by
  obtain ⟨before, inside, hcovers⟩ := hrange.exists_covers
  obtain ⟨hstart, hstop⟩ := hcovers.position
  obtain ⟨after, htext⟩ := hcovers.text
  have hnone : '\n' ∉ inside := by
    rw [h.location_eq] at hline
    simp only [SourceFile.position, hstart, hstop, Text.endPosition, List.count_append] at hline
    exact List.count_eq_zero.1 (by omega)
  obtain ⟨above, below, lead, tail, rfl, rfl, hisLine⟩ := Text.exists_isLine before after hnone
  refine ⟨lead, inside, tail, ?_, f, above, below, h.1, htext ▸ hisLine, ?_⟩
  · rintro rfl
    rw [hcovers.lo, hcovers.hi, List.append_nil] at hnonempty
    exact Nat.lt_irrefl _ hnonempty
  · rw [← hcovers.lo, ← hcovers.hi]

end Diagnostic

namespace Analysis

open Text (byteSize isWide withoutReturns)

/-- Whatever is reported is located at a range of the text of its unit. -/
theorem locatedIn_of_mem_diagnostics {policy : Policy} {files : List SourceFile} {d : Diagnostic}
    (h : d ∈ (ofFiles policy files).diagnostics) :
    ∃ f, d.LocatedIn (ofFiles policy files).sources f ∧ Text.IsRange f.chars d.location.span := by
  obtain ⟨original, horiginal, hlocation, -⟩ := exists_found_of_mem_diagnostics h
  obtain ⟨finding, unit, u, span, hu, hplace, rfl⟩ := reportedIn_of_mem_found horiginal
  obtain ⟨f, hf, rfl⟩ := getElem?_parseProgram policy hu
  have hlocate : d.location = (ofFiles policy files).sources.locate unit span := hlocation
  have hsame : d.location.unit = unit ∧ d.location.span = span := by
    rw [hlocate, SourceMap.locate, hf]
    exact ⟨rfl, rfl⟩
  refine ⟨f, ⟨hsame.1.symm ▸ hf, ?_⟩, hsame.2.symm ▸ hplace.isRange⟩
  rw [hsame.1, hsame.2]
  exact hlocate

/-- What excerpts show of the diagnostics of an analysis. -/
structure MarksText (a : Analysis) : Prop where
  /-- The lines of a diagnostic stand together in each report that shows it. -/
  shown : ∀ r : Report, r.sources = a.sources → ∀ d ∈ r.diagnostics,
    ∃ above below, r.pretty .plain = unlines (above ++ d.prettyLines a.sources .plain ++ below)
  line : ∀ d ∈ a.diagnostics, d.location.span.lo < d.location.span.hi →
    d.location.stop.line = d.location.start.line →
    ∃ lead inside tail, d.OnLine a.sources lead inside tail
  rows : ∀ d ∈ a.diagnostics, ∀ lead inside tail, d.OnLine a.sources lead inside tail →
    d.prettyLines a.sources .plain =
    d.markedLines (String.ofList (withoutReturns (lead ++ inside ++ tail)))
      (byteSize lead) (byteSize inside)
  exact : ∀ d ∈ a.diagnostics, ∀ lead inside tail, d.OnLine a.sources lead inside tail →
    (d.prettyLines a.sources .plain = d.markedLines
      (String.ofList (withoutReturns (lead ++ inside ++ tail)))
      lead.length inside.length ↔ ∀ c ∈ lead ++ inside, isWide c = false)

theorem marksText_ofFiles (policy : Policy) (files : List SourceFile) :
    (ofFiles policy files).MarksText where
  shown r hsources d hd := by
    obtain ⟨before, after, hsplit⟩ := List.append_of_mem hd
    refine ⟨before.flatMap (·.prettyLines r.sources .plain),
      after.flatMap (·.prettyLines r.sources .plain) ++ r.prettyTotals .plain, ?_⟩
    rw [Report.pretty, hsplit, List.flatMap_append, List.flatMap_cons, hsources]
    simp only [List.append_assoc]
  line d hd hnonempty hline := by
    obtain ⟨f, hlocated, hrange⟩ := locatedIn_of_mem_diagnostics hd
    exact hlocated.exists_onLine hrange hnonempty hline
  rows d hd lead inside tail honLine := by
    obtain ⟨f, hlocated, -⟩ := locatedIn_of_mem_diagnostics hd
    exact honLine.prettyLines_eq hlocated
  exact d hd lead inside tail honLine := by
    obtain ⟨f, hlocated, -⟩ := locatedIn_of_mem_diagnostics hd
    exact honLine.marked_iff hlocated

/-- An access from outside behind a comment with a wide character. -/
def accentedCall : SourceFile :=
  ⟨"b.php", "<?hh\nmodule B;\nfunction bar(): void \x7b /* é */ foo(); \x7d\n"⟩

def accented : List SourceFile :=
  [⟨"a.php", "<?hh\nmodule A;\ninternal function foo(): void \x7b\x7d\n"⟩, accentedCall]

/-- The comment has a byte more than characters, so the carets are a column too far to the right. -/
theorem not_marked_behind_wide :
    ¬ ∀ d ∈ (ofFiles .default accented).diagnostics, ∀ lead inside tail,
      d.OnLine (ofFiles .default accented).sources lead inside tail →
        d.prettyLines (ofFiles .default accented).sources .plain =
          d.markedLines (String.ofList (withoutReturns (lead ++ inside ++ tail))) lead.length
            inside.length := by
  intro hall
  have hchecks : (∃ d ∈ (ofFiles .default accented).diagnostics, d.location.unit = 1 ∧
    d.location.span = ⟨47, 50⟩) ∧
      (ofFiles .default accented).sources.get? 1 = some accentedCall := by decide +kernel
  obtain ⟨⟨d, hd, hunit, hspan⟩, hget⟩ := hchecks
  have honLine :
    d.OnLine (ofFiles .default accented).sources "function bar(): void \x7b /* é */ ".toList
      "foo".toList "(); \x7d".toList := by
    refine ⟨by decide, _, "<?hh\nmodule B;".toList ++ ['\n'], ['\n'], hunit ▸ hget,
      ⟨?_, ?_, ?_, ?_⟩, hspan.trans ?_⟩
    · decide
    · decide
    · simp
    · simp
    · decide
  obtain ⟨f, hlocated, -⟩ := locatedIn_of_mem_diagnostics hd
  have hnarrow := (honLine.marked_iff hlocated).1 (hall d hd _ _ _ honLine)
  exact absurd (hnarrow 'é' (by decide)) (by decide)

end Analysis
end ModuleVisibility
