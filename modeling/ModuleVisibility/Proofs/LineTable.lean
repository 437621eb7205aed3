import ModuleVisibility.Proofs.Guarded.Lines
import ModuleVisibility.Proofs.Guarded.Stretch
import ModuleVisibility.Proofs.ListEdit

/-!
Offsets and positions. The ranges of the lines tile a text, one newline between two of them, so each
offset up to the end of the text is in exactly one of them, which is what its position names. So an
offset can be had back from its position, a position in a line from its offset, and positions are
ordered as offsets are.
-/
namespace ModuleVisibility

/-- On an earlier line, or further to the front of the same one. -/
def Position.Before (p q : Position) : Prop :=
  p.line < q.line ∨ (p.line = q.line ∧ p.column < q.column)

namespace Text

/-! Tiles. -/

/-- From byte `start` on the ranges cover the text but for one newline between two of them. -/
inductive Tiled : Nat → List Char → List Span → Prop
  | last {start : Nat} {line : List Char} (hline : '\n' ∉ line) :
    Tiled start line [⟨start, start + byteSize line⟩]
  | next {start : Nat} {line rest : List Char} {spans : List Span} (hline : '\n' ∉ line)
      (hrest : Tiled (start + byteSize line + 1) rest spans) :
      Tiled start (line ++ '\n' :: rest) (⟨start, start + byteSize line⟩ :: spans)

theorem exists_tiled (start : Nat) (cs : List Char) : ∃ spans, Tiled start cs spans := by
  induction cs generalizing start with
  | nil => exact ⟨_, .last List.not_mem_nil⟩
  | cons c cs ih =>
    by_cases hc : c = '\n'
    · obtain ⟨spans, hspans⟩ := ih (start + 1)
      rw [hc]
      exact ⟨_, @Tiled.next start [] cs spans List.not_mem_nil hspans⟩
    -- One more character before the first line makes its range longer, and leaves the others.
    · have hline : ∀ {line : List Char}, '\n' ∉ line → '\n' ∉ c :: line :=
        fun h => by simpa [Ne.symm hc] using h
      obtain ⟨spans, hspans⟩ := ih (start + c.utf8Size)
      cases hspans with
      | last h => exact ⟨_, .last (hline h)⟩
      | @next _ line rest spans h hrest =>
        rw [Nat.add_assoc start, ← byteSize_cons] at hrest
        exact ⟨_, .next (hline h) hrest⟩

section

variable {cs : List Char} {start offset : Nat} {spans : List Span}

/-- The ranges are in the text, and one behind the other. -/
theorem Tiled.sorted (h : Tiled start cs spans) :
    (∀ s ∈ spans, start ≤ s.lo ∧ s.lo ≤ s.hi ∧ s.hi ≤ start + byteSize cs) ∧
      spans.Pairwise fun s t => s.hi < t.lo := by
  induction h with
  | last hline =>
    refine ⟨fun s hs => ?_, List.pairwise_singleton _ _⟩
    rw [List.mem_singleton.1 hs]
    exact ⟨Nat.le_refl _, Nat.le_add_right _ _, Nat.le_refl _⟩
  | @next start line rest spans hline hrest ih =>
    have hsize : byteSize (line ++ '\n' :: rest) = byteSize line + (1 + byteSize rest) :=
      byteSize_append ..
    refine ⟨List.forall_mem_cons.2 ⟨?_, fun s hs => ?_⟩, .cons (fun s hs => ?_) ih.2⟩
    · dsimp only
      omega
    · have := ih.1 s hs
      omega
    · have := ih.1 s hs
      dsimp only
      omega

theorem laterLineStarts_of_not_mem {line : List Char} (h : '\n' ∉ line) (start : Nat) :
    laterLineStarts start line = [] := by
  rw [← List.length_eq_zero_iff, length_laterLineStarts, List.count_eq_zero]
  exact h

/-- Lines start where their ranges do. -/
theorem Tiled.starts (h : Tiled start cs spans) :
    start :: laterLineStarts start cs = spans.map Span.lo := by
  induction h with
  | last hline => rw [laterLineStarts_of_not_mem hline, List.map_singleton]
  | @next start line rest spans hline hrest ih =>
    rw [laterLineStarts_append, laterLineStarts_of_not_mem hline, List.map_cons, ← ih]
    rfl

/-- A range goes up to the newline before the next one, or to the end of the text. -/
theorem Tiled.hi_eq {front back : List Span} {span : Span}
    (h : Tiled start cs (front ++ span :: back)) :
    span.hi = (back.head?.map (·.lo - 1)).getD (start + byteSize cs) := by
  generalize hall : front ++ span :: back = spans at h
  induction h generalizing front with
  | last hline =>
    obtain ⟨rfl, hlast⟩ := (List.append_eq_singleton_iff.1 hall).resolve_right fun h => nomatch h.2
    cases hlast
    rfl
  | @next start line rest spans hline hrest ih =>
    cases front with
    | nil =>
      cases hall
      cases hrest with
      | last => rfl
      | next => rfl
    | cons s front =>
      obtain ⟨-, hback⟩ := List.cons.inj hall
      have hsize : start + byteSize line + 1 + byteSize rest =
          start + byteSize (line ++ '\n' :: rest) := by
        rw [byteSize_append, byteSize_cons, show '\n'.utf8Size = 1 from rfl]
        omega
      rw [ih hback, hsize]

/-- No byte of a character but the newline is one. -/
theorem not_mem_bytes {line : List Char} (h : '\n' ∉ line) : '\n' ∉ Guarded.bytes line := by
  intro hmem
  obtain ⟨c, hc, hbyte⟩ := List.mem_flatMap.1 hmem
  have heq := (Guarded.byteWise_beq (a := '\n') rfl).eq_of_mem_encode hbyte
  exact h (beq_iff_eq.1 (heq.symm.trans (beq_self_eq_true '\n')) ▸ hc)

/-- Each place of the text is in a range, and there are as many newlines before it as ranges. -/
theorem Tiled.exists_range (h : Tiled start cs spans) (hlo : start ≤ offset)
    (hhi : offset ≤ start + byteSize cs) :
    ∃ front span back, spans = front ++ span :: back ∧ span.lo ≤ offset ∧ offset ≤ span.hi ∧
      ((Guarded.bytes cs).take (offset - start)).count '\n' = front.length := by
  -- Bytes are counted, not characters: the place may be within one.
  have hnone : ∀ {line : List Char} (n : Nat), '\n' ∉ line →
      ((Guarded.bytes line).take n).count '\n' = 0 :=
    fun n h => List.count_eq_zero.2 fun hmem => not_mem_bytes h (List.mem_of_mem_take hmem)
  induction h with
  | last hline => exact ⟨[], _, [], rfl, hlo, hhi, hnone _ hline⟩
  | @next start line rest spans hline hrest ih =>
    have hlength := Guarded.length_bytes line
    have hnewline : Guarded.encode '\n' = ['\n'] := rfl
    rw [Guarded.bytes_append, Guarded.bytes_cons, List.take_append, hlength,
      List.count_append, hnone _ hline, Nat.zero_add, hnewline, List.singleton_append]
    by_cases hhere : offset ≤ start + byteSize line
    · refine ⟨[], _, spans, rfl, hlo, hhere, ?_⟩
      rw [show offset - start - byteSize line = 0 by omega]
      rfl
    · rw [byteSize_append, byteSize_cons, show '\n'.utf8Size = 1 from rfl] at hhi
      obtain ⟨front, span, back, rfl, hin⟩ := ih (by omega) (by omega)
      refine ⟨_ :: front, span, back, rfl, hin.1, hin.2.1, ?_⟩
      obtain ⟨n, hn⟩ : ∃ n, offset - start - byteSize line = n + 1 :=
        Nat.exists_eq_add_one_of_ne_zero (by omega)
      rw [hn, List.take_succ_cons, List.count_cons_self,
        show n = offset - (start + byteSize line + 1) by omega,
        hin.2.2]
      rfl

end

/-! Positions. -/

section

variable {cs : List Char} {spans front back : List Span} {span : Span} {offset : Nat}

/-- The ranges that start up to a place of one are those up to it. -/
theorem Tiled.takeWhile_lineStarts (h : Tiled 0 cs (front ++ span :: back)) (hlo : span.lo ≤ offset)
    (hhi : offset ≤ span.hi) :
    (lineStarts cs).takeWhile (· ≤ offset) = front.map Span.lo ++ [span.lo] := by
  obtain ⟨hbounds, hsorted⟩ := h.sorted
  obtain ⟨-, hspan, hfront⟩ := List.pairwise_append.1 hsorted
  have hstarts : lineStarts cs = (front.map Span.lo ++ [span.lo]) ++ back.map Span.lo := by
    rw [lineStarts, h.starts]
    simp
  have hbefore : ∀ lo ∈ front.map Span.lo ++ [span.lo], decide (lo ≤ offset) = true := by
    intro lo hmem
    rw [decide_eq_true_eq]
    rcases List.mem_append.1 hmem with hmem | hmem
    · obtain ⟨s, hs, rfl⟩ := List.mem_map.1 hmem
      have hlt := hfront s hs span List.mem_cons_self
      have hle := (hbounds s (List.mem_append_left _ hs)).2.1
      omega
    · rwa [List.mem_singleton.1 hmem]
  have hbehind : (back.map Span.lo).takeWhile (· ≤ offset) = [] := by
    cases back with
    | nil => rfl
    | cons later back =>
      have hlt := List.rel_of_pairwise_cons hspan List.mem_cons_self
      exact List.takeWhile_cons_of_neg (by simp only [decide_eq_true_eq]; omega)
  rw [hstarts, List.takeWhile_append_of_pos hbefore, hbehind, List.append_nil]

/-- A place in the range of a line is on that line. -/
theorem Tiled.position (h : Tiled 0 cs (front ++ span :: back)) (hlo : span.lo ≤ offset)
      (hhi : offset ≤ span.hi) :
    position cs offset = ⟨front.length + 1, offset - span.lo + 1⟩ := by
  have hinside := (h.sorted.1 span (List.mem_append_right _ List.mem_cons_self)).2.2
  have hmin : min offset (byteSize cs) = offset := by omega
  simp only [Text.position, hmin, h.takeWhile_lineStarts hlo hhi, List.getLastD_concat,
    List.length_append, List.length_map, List.length_singleton]

/-- The range of a line is the tile of its number. -/
theorem Tiled.lineRange? (h : Tiled 0 cs spans) (n : Nat) : lineRange? cs (n + 1) = spans[n]? := by
  have hstarts : lineStarts cs = spans.map Span.lo := h.starts
  rcases Guarded.lineRange?_cases cs n with ⟨hle, hnone⟩ | ⟨start, later, hplace, hrange⟩
  · rw [hnone, List.getElem?_eq_none]
    rwa [hstarts, List.length_map] at hle
  · rw [hstarts] at hplace
    obtain ⟨before, hsplit, hn⟩ := hplace
    obtain ⟨front, rest, rfl, rfl, hrest⟩ := List.map_eq_append_iff.1 hsplit.symm
    obtain ⟨span, back, rfl, rfl, rfl⟩ := List.map_eq_cons_iff.1 hrest
    rw [List.length_map] at hn
    rw [hrange, ← hn, List.getElem?_append_right (Nat.le_refl _), Nat.sub_self]
    have hstop : Guarded.lineStop cs (back.map Span.lo) = span.hi := by
      rw [h.hi_eq]
      cases back with
      | nil => exact (Nat.zero_add _).symm
      | cons later back => rfl
    rw [hstop]
    rfl

theorem Tiled.position_of_lineRange? {line : Nat} (h : Tiled 0 cs spans)
    (hline : Text.lineRange? cs line = some span)
    (hlo : span.lo ≤ offset) (hhi : offset ≤ span.hi) :
    Text.position cs offset = ⟨line, offset - span.lo + 1⟩ := by
  cases line with
  | zero => cases hline
  | succ n =>
    rw [h.lineRange?] at hline
    obtain ⟨hsplit, -⟩ := take_cons_drop hline
    rw [hsplit] at h
    rw [h.position hlo hhi, List.length_take_of_le
      (Nat.le_of_lt (List.getElem?_eq_some_iff.1 hline).1)]

end

/-- The position of a place: as many lines in front of it as newlines, and a line whose range the
place is in. -/
structure Locates (cs : List Char) (offset : Nat) (p : Position) : Prop where
  line : p.line = 1 + ((Guarded.bytes cs).take offset).count '\n'
  range : ∃ span, lineRange? cs p.line = some span ∧ p.column = offset - span.lo + 1 ∧
    span.lo + (p.column - 1) = offset ∧ offset ≤ span.hi

section

variable {cs : List Char} {spans : List Span} {offset : Nat}

theorem Tiled.locates (h : Tiled 0 cs spans) (hle : offset ≤ byteSize cs) :
    Locates cs offset (Text.position cs offset) := by
  obtain ⟨front, span, back, rfl, hlo, hhi, hcount⟩ :=
    h.exists_range (Nat.zero_le offset) (by omega)
  rw [h.position hlo hhi]
  refine ⟨?_, span, ?_, rfl, ?_, hhi⟩
  · rw [Nat.add_comm, ← hcount]
    rfl
  · rw [h.lineRange?, List.getElem?_append_right (Nat.le_refl _), Nat.sub_self]
    rfl
  · dsimp only
    omega

/-- A later place has a later position: its line has no fewer newlines before it, and the same line
the same start. -/
theorem Locates.before {a b : Nat} {p q : Position} (hp : Locates cs a p)
    (hq : Locates cs b q) (h : a < b) :
    p.Before q := by
  have hcount : ((Guarded.bytes cs).take a).count '\n' ≤ ((Guarded.bytes cs).take b).count '\n' :=
    (List.take_sublist_take_left (Nat.le_of_lt h)).count_le _
  have hle : p.line ≤ q.line := by
    rw [hp.line, hq.line]
    omega
  rcases Nat.lt_or_eq_of_le hle with hlt | heq
  · exact .inl hlt
  · obtain ⟨span, hspan, -, ha, -⟩ := hp.range
    obtain ⟨span', hspan', -, hb, -⟩ := hq.range
    rw [heq, hspan'] at hspan
    cases hspan
    exact .inr ⟨heq, by omega⟩

end

/-- A place behind the end has the position of the end. -/
theorem position_min (cs : List Char) (offset : Nat) :
    position cs (min offset (byteSize cs)) = position cs offset := by
  unfold position
  rw [Nat.min_assoc, Nat.min_self]

/-- Offsets and positions of a text are each other's inverse, in the same order. -/
structure Positions (cs : List Char) : Prop where
  /-- No access is out of range on the way from an offset to its position. -/
  located : ∀ offset, Guarded.lineColumn cs offset = .ok (position cs offset) ∧
    Locates cs (min offset (byteSize cs)) (position cs offset)
  offsets : ∀ line span, lineRange? cs line = some span → ∀ offset, span.lo ≤ offset →
    offset ≤ span.hi →
    position cs offset = ⟨line, offset - span.lo + 1⟩
  ordered : ∀ a b, a < b → b ≤ byteSize cs → (position cs a).Before (position cs b)
  tiled : ∃ spans, Tiled 0 cs spans ∧ ∀ line, Guarded.lineRange? cs line =
    .ok (lineRange? cs line) ∧
    lineRange? cs line = if line = 0 then none else spans[line - 1]?

theorem positions_inverse (cs : List Char) : Positions cs := by
  obtain ⟨spans, htiled⟩ := exists_tiled 0 cs
  refine ⟨fun offset => ⟨Guarded.lineColumn_eq_ok cs offset, ?_⟩,
    fun line span hline offset hlo hhi => ?_,
    fun a b hlt hle => ?_, spans, htiled, fun line => ⟨Guarded.lineRange?_eq_ok cs line, ?_⟩⟩
  · rw [← position_min]
    exact htiled.locates (Nat.min_le_right _ _)
  · exact htiled.position_of_lineRange? hline hlo hhi
  · exact (htiled.locates (by omega)).before (htiled.locates hle) hlt
  · cases line with
    | zero => rfl
    | succ n => exact htiled.lineRange? n

/-- A newline is the last place of its line, the end of a text behind one the first of the next, and
a byte within a character has a column. -/
example : position ['a', '\n', 'é', '\n'] 1 = ⟨1, 2⟩ ∧ position ['a', '\n', 'é', '\n'] 3 = ⟨2, 2⟩ ∧
    position ['a', '\n', 'é', '\n'] 9 = ⟨3, 1⟩ ∧
      lineRange? ['a', '\n', 'é', '\n'] 3 = some ⟨5, 5⟩ := by
  decide

end Text
end ModuleVisibility
