import Mathlib.Data.Finset.Card
import Mathlib.Data.Finset.Union
import ModuleVisibility.Proofs.CutCycles

/-!
The loop of the cycle search, iteration by iteration. At each of them the path is made of the traits
that are being visited, each using the next one by the clause before its cursor, and all other
clauses that were read are settled. The traits not marked yet, the clauses not read yet and the
traits on the path are one fewer in all after each iteration, so there are as many iterations as
traits and clauses.
-/
namespace ModuleVisibility

namespace UseGraph

/-- What the table brings in is all that the clauses bring in. -/
theorem closed_of_table {g : UseGraph}
    (h : ∀ row ∈ g.table, ∀ b ∈ row.2.filterMap id, b ∈ g.traits) : g.Closed := by
  intro a b hleads
  cases hrow : g.table.lookup a with
  | none =>
    rw [Leads, uses, hrow] at hleads
    cases hleads
  | some row =>
    rw [Leads, uses, hrow] at hleads
    exact h _ (mem_of_lookup_eq_some hrow) b (List.mem_filterMap.2 ⟨some b, hleads, rfl⟩)

/-- The clauses of all traits. -/
def clauses (g : UseGraph) : Finset ClauseRef :=
  g.traits.toFinset.biUnion fun id => (Finset.range (g.uses id).length).image fun i => ⟨id, i⟩

theorem mem_clauses {g : UseGraph} {clause : ClauseRef} :
    clause ∈ g.clauses ↔ clause.owner ∈ g.traits ∧ clause.index < (g.uses clause.owner).length := by
  simp only [clauses, Finset.mem_biUnion, List.mem_toFinset, Finset.mem_image, Finset.mem_range]
  constructor
  · rintro ⟨id, hid, i, hi, rfl⟩
    exact ⟨hid, hi⟩
  · rintro ⟨howner, hindex⟩
    exact ⟨clause.owner, howner, clause.index, hindex, rfl⟩

end UseGraph

namespace CycleSearch

variable {g : UseGraph} {s s' : CycleSearch} {clause : ClauseRef} {id : SymbolId} {top : Frame}
  {below : List Frame}

/-! What has been read. -/

instance (s : CycleSearch) (clause : ClauseRef) : Decidable (s.Read clause) :=
  inferInstanceAs (Decidable (_ ∨ _))

/-- When a trait is left, all of its clauses have been read already. -/
theorem read_leaveTo (h : Valid g s) (hs : s.stack = top :: below)
    (hread : (g.uses top.node)[top.cursor]? = none)
    (hindex : clause.index < (g.uses clause.owner).length) :
    (s.leaveTo top.node below).Read clause ↔ s.Read clause := by
  have htop := h.mark?_top hs
  have hend : (g.uses top.node).length ≤ top.cursor := List.getElem?_eq_none_iff.1 hread
  refine ⟨fun hleft => ?_, Read.leaveTo htop hs⟩
  rcases hleft with hdone | ⟨f, hf, hbehind⟩
  · rw [mark?_leaveTo htop] at hdone
    split at hdone
    · next howner =>
      rw [howner] at hindex
      exact .inr ⟨top, by simp [hs], howner.symm, by omega⟩
    · exact .inl hdone
  · exact .inr ⟨f, by rw [hs]; exact List.mem_cons_of_mem _ hf, hbehind⟩

/-! The measure. -/

/-- The traits that the search has not marked. -/
def unmarked (g : UseGraph) (s : CycleSearch) : Finset SymbolId :=
  g.traits.toFinset.filter fun id => s.mark? id = some .unseen

/-- The clauses that the search has not read. -/
def unread (g : UseGraph) (s : CycleSearch) : Finset ClauseRef :=
  g.clauses.filter fun clause => ¬ s.Read clause

/-- Traits not marked, clauses not read and traits on the path. -/
def remaining (g : UseGraph) (s : CycleSearch) : Nat :=
  (unmarked g s).card + (unread g s).card + s.stack.length

theorem mem_unmarked : id ∈ unmarked g s ↔ id ∈ g.traits ∧ s.mark? id = some .unseen := by
  rw [unmarked, Finset.mem_filter, List.mem_toFinset]

theorem mem_unread : clause ∈ unread g s ↔ clause ∈ g.clauses ∧ ¬ s.Read clause := by
  rw [unread, Finset.mem_filter]

/-- A trait that is entered is on the path instead of not being marked. -/
theorem remaining_enter (hid : s.mark? id = some .unseen) (hmem : id ∈ g.traits) :
    remaining g (s.enter id) = remaining g s := by
  have hunread : unread g (s.enter id) = unread g s := by
    ext clause
    rw [mem_unread, mem_unread, read_enter hid]
  have hunmarked : unmarked g (s.enter id) = (unmarked g s).erase id := by
    ext other
    rw [Finset.mem_erase, mem_unmarked, mem_unmarked, mark?_enter]
    by_cases hother : other = id
    · simp [hother]
    · simp [hother]
  have hcard : ((unmarked g s).erase id).card + 1 = (unmarked g s).card :=
    Finset.card_erase_add_one (mem_unmarked.2 ⟨hmem, hid⟩)
  have hstack : (s.enter id).stack.length = s.stack.length + 1 := rfl
  unfold remaining
  rw [hunread, hunmarked, hstack]
  omega

/-- Reading a clause leaves one fewer to read. -/
theorem remaining_advance (h : Valid g s) (hs : s.stack = top :: below)
    (hread : top.cursor < (g.uses top.node).length)
    (hmarks : s'.marks = s.marks) (hstack : s'.stack = ⟨top.node, top.cursor + 1⟩ :: below) :
    remaining g s' + 1 = remaining g s := by
  have htop := h.mark?_top hs
  have hunmarked : unmarked g s' = unmarked g s := by
    ext id
    rw [mem_unmarked, mem_unmarked, mark?, hmarks, mark?]
  have hunread : unread g s' = (unread g s).erase ⟨top.node, top.cursor⟩ := by
    ext clause
    rw [Finset.mem_erase, mem_unread, mem_unread, read_advance hs hmarks hstack, not_or]
    tauto
  have hcard : ((unread g s).erase ⟨top.node, top.cursor⟩).card + 1 = (unread g s).card :=
    Finset.card_erase_add_one (mem_unread.2 ⟨UseGraph.mem_clauses.2 ⟨h.mem_traits htop, hread⟩,
      h.not_read_top hs⟩)
  have hlength : s'.stack.length = s.stack.length := by rw [hstack, hs]; rfl
  unfold remaining
  rw [hunmarked, hunread, hlength]
  omega

/-- Leaving a trait takes it off the path. -/
theorem remaining_leaveTo (h : Valid g s) (hs : s.stack = top :: below)
    (hread : (g.uses top.node)[top.cursor]? = none) :
    remaining g (s.leaveTo top.node below) + 1 = remaining g s := by
  have htop := h.mark?_top hs
  have hunmarked : unmarked g (s.leaveTo top.node below) = unmarked g s := by
    ext id
    rw [mem_unmarked, mem_unmarked, mark?_leaveTo htop]
    by_cases hid : id = top.node
    · simp [hid, htop]
    · simp [hid]
  have hunread : unread g (s.leaveTo top.node below) = unread g s := by
    ext clause
    rw [mem_unread, mem_unread]
    refine and_congr_right fun hclause => not_congr ?_
    exact read_leaveTo h hs hread (UseGraph.mem_clauses.1 hclause).2
  have hlength : s.stack.length = (s.leaveTo top.node below).stack.length + 1 := by rw [hs]; rfl
  unfold remaining
  rw [hunmarked, hunread, hlength]
  omega

/-- Each iteration leaves one thing fewer to do. -/
theorem remaining_step (hg : g.Closed) (h : Valid g s) (hs : s.stack ≠ []) :
    remaining g (step g s) + 1 = remaining g s := by
  unfold step
  split
  · contradiction
  · next top below hs =>
    split
    · next hread => exact remaining_leaveTo h hs hread
    · next target hread =>
      have hlt : top.cursor < (g.uses top.node).length := (List.getElem?_eq_some_iff.1 hread).1
      have hmoved : remaining g { s with stack := ⟨top.node, top.cursor + 1⟩ :: below } + 1 =
          remaining g s :=
        remaining_advance h hs hlt rfl rfl
      unfold follow
      split
      · exact hmoved
      · next next =>
        split
        · next hunseen =>
          have hmem : next ∈ g.traits := hg _ _ (List.mem_of_getElem? hread)
          rw [remaining_enter hunseen hmem]
          exact hmoved
        · exact remaining_advance h hs hlt rfl rfl
        · exact hmoved

/-! Iterations. -/

/-- The search comes to a state after some iterations, with the traits `roots` still to be searched
from. -/
inductive Iterates (g : UseGraph) : Nat → List SymbolId → CycleSearch → Prop
  | start : Iterates g 0 g.traits (start g)
  /-- Nothing is searched from a trait that is marked. -/
  | skip {n : Nat} {root : SymbolId} {roots : List SymbolId} {s : CycleSearch}
    (h : Iterates g n (root :: roots) s)
    (hs : s.stack = []) (hroot : s.mark? root ≠ some .unseen) : Iterates g n roots s
  | enter {n : Nat} {root : SymbolId} {roots : List SymbolId} {s : CycleSearch}
    (h : Iterates g n (root :: roots) s)
    (hs : s.stack = []) (hroot : s.mark? root = some .unseen) : Iterates g n roots (s.enter root)
  | step {n : Nat} {roots : List SymbolId} {s : CycleSearch} (h : Iterates g n roots s)
    (hs : s.stack ≠ []) :
    Iterates g (n + 1) roots (step g s)

variable {n : Nat} {roots : List SymbolId}

theorem Iterates.valid (hg : g.Closed) (h : Iterates g n roots s) : Valid g s := by
  induction h with
  | start => exact valid_start g
  | skip _ _ _ ih => exact ih
  | enter _ hs hroot ih =>
    have hentered := ih.enter hroot [] (by simp [hs]) trivial
    rwa [← hs] at hentered
  | step _ _ ih => exact ih.step hg

theorem mark?_start (hid : id ∈ g.traits) : (start g).mark? id = some .unseen := by
  cases hmark : (start g).mark? id with
  | none => exact absurd hid ((valid_start g).mark?_eq_none_iff.1 hmark)
  | some mark =>
    obtain ⟨_, _, heq⟩ := List.mem_map.1 (mem_of_lookup_eq_some hmark)
    rw [(Prod.mk.inj heq).2]

theorem remaining_start (g : UseGraph) :
    remaining g (start g) = g.traits.toFinset.card + g.clauses.card := by
  have hunmarked : unmarked g (start g) = g.traits.toFinset := by
    ext id
    rw [mem_unmarked, List.mem_toFinset, and_iff_left_of_imp mark?_start]
  have hunread : unread g (start g) = g.clauses := by
    ext clause
    rw [mem_unread, and_iff_left_of_imp]
    rintro hclause (hdone | ⟨f, hf, -⟩)
    · rw [mark?_start (UseGraph.mem_clauses.1 hclause).1] at hdone
      cases hdone
    · cases hf
  rw [remaining, hunmarked, hunread]
  rfl

/-- What is done and what remains add up to all traits and clauses. -/
theorem Iterates.add_remaining (hg : g.Closed) (h : Iterates g n roots s) :
    n + remaining g s = g.traits.toFinset.card + g.clauses.card := by
  induction h with
  | start => rw [remaining_start, Nat.zero_add]
  | skip _ _ _ ih => exact ih
  | enter h hs hroot ih => rw [remaining_enter hroot ((h.valid hg).mem_traits hroot), ih]
  | step h hs ih =>
    have hstep := remaining_step hg (h.valid hg) hs
    omega

/-- From each of these states the search goes on to its end. -/
theorem Iterates.foldl_visit (h : Iterates g n roots s) :
    roots.foldl (visit g) (run g s) = ofGraph g := by
  have hstay : ∀ {s : CycleSearch}, s.stack = [] → run g s = s := by
    intro s hs
    rw [run, dif_pos hs]
  induction h with
  | start => rw [hstay rfl, ofGraph]
  | skip _ hs hroot ih =>
    rw [hstay hs, List.foldl_cons, visit, if_neg hroot] at ih
    rw [hstay hs, ih]
  | enter _ hs hroot ih => rwa [hstay hs, List.foldl_cons, visit, if_pos hroot] at ih
  | step _ hs ih => rwa [run, dif_neg hs] at ih

theorem Iterates.run (h : Iterates g n roots s) : ∃ m, Iterates g m roots (run g s) := by
  fun_induction CycleSearch.run g s generalizing n with
  | case1 => exact ⟨n, h⟩
  | case2 s hs ih => exact ih (h.step hs)

theorem Iterates.visits (h : Iterates g n roots s) (hs : s.stack = []) :
    ∃ m, Iterates g m [] (roots.foldl (visit g) s) := by
  induction roots generalizing n s with
  | nil => exact ⟨n, h⟩
  | cons root roots ih =>
    rw [List.foldl_cons, visit]
    split
    · next hroot =>
      obtain ⟨m, hm⟩ := (h.enter hs hroot).run
      exact ih hm (stack_run g _)
    · next hroot => exact ih (h.skip hs hroot) hs

theorem stack_ofGraph (hg : g.Closed) : (ofGraph g).stack = [] :=
  ((valid_start g).visits hg g.traits rfl).2

/-- At the end nothing remains. -/
theorem remaining_ofGraph (hg : g.Closed) : remaining g (ofGraph g) = 0 := by
  have hunmarked : unmarked g (ofGraph g) = ∅ := by
    refine Finset.eq_empty_of_forall_notMem fun id hid => ?_
    obtain ⟨hmem, hunseen⟩ := mem_unmarked.1 hid
    rw [done_ofGraph hg hmem] at hunseen
    cases hunseen
  have hunread : unread g (ofGraph g) = ∅ := by
    refine Finset.eq_empty_of_forall_notMem fun clause hclause => ?_
    obtain ⟨hmem, hnot⟩ := mem_unread.1 hclause
    exact hnot (.inl (done_ofGraph hg (UseGraph.mem_clauses.1 hmem).1))
  rw [remaining, hunmarked, hunread, stack_ofGraph hg]
  rfl

/-- There are as many iterations as traits and clauses. -/
theorem iterates_ofGraph (hg : g.Closed) :
    Iterates g (g.traits.toFinset.card + g.clauses.card) [] (ofGraph g) := by
  obtain ⟨m, hm⟩ := (Iterates.start (g := g)).visits rfl
  have hcount := hm.add_remaining hg
  have hend : remaining g (g.traits.foldl (visit g) (start g)) = 0 := remaining_ofGraph hg
  rw [hend, Nat.add_zero] at hcount
  rw [← hcount]
  exact hm

/-! The path. -/

/-- The traits on the path, from its start. -/
def path (s : CycleSearch) : List SymbolId := (s.stack.map Frame.node).reverse

theorem mem_path : id ∈ s.path ↔ id ∈ s.stack.map Frame.node := List.mem_reverse

theorem PathValid.frame {above : Option SymbolId} {stack later earlier : List Frame} {f : Frame}
    (h : PathValid g s above stack) (hstack : stack = later ++ f :: earlier) :
    FrameValid g s ((later.getLast?.map Frame.node).or above) f := by
  induction later generalizing above stack with
  | nil =>
    subst hstack
    exact h.1
  | cons first later ih =>
    subst hstack
    have hrest := ih h.2 rfl
    rw [List.getLast?_cons]
    cases hlast : later.getLast? with
    | none => rwa [hlast] at hrest
    | some last => rwa [hlast] at hrest

/-- The part of the path that starts with a trait on it is found. -/
theorem exists_findIdx? (h : Valid g s) {next : SymbolId} (hnext : s.mark? next = some .visiting) :
    ∃ i, s.path.findIdx? (· == next) = some i ∧ pathFrom s.stack next = s.path.drop i := by
  have hmem : next ∈ s.path := mem_path.2 ((h.visiting next).1 hnext)
  refine ⟨s.path.findIdx (· == next), ?_, ?_⟩
  · rw [List.findIdx?_eq_some_iff_findIdx_eq]
    exact ⟨List.findIdx_lt_length_of_exists ⟨next, hmem, beq_self_eq_true next⟩, rfl⟩
  · have hsame : (fun a : SymbolId => !decide (a ≠ next)) = (· == next) := by
      funext a
      by_cases ha : a = next <;> simp [ha]
    rw [pathFrom, List.dropWhile_eq_drop_findIdx_not, hsame, path]

/-- What holds at an iteration. -/
structure LoopInvariant (g : UseGraph) (s : CycleSearch) : Prop where
  visiting : ∀ id, s.mark? id = some .visiting ↔ id ∈ s.path
  nodup : s.path.Nodup
  /-- Each trait of the path uses the next one, by the clause before its cursor. -/
  leads : ∀ later next f earlier, s.stack = later ++ next :: f :: earlier →
    ∃ c, f.cursor = c + 1 ∧ (g.uses f.node)[c]? = some (some next.node)
  /-- A clause before a cursor brings in nothing, closes a cycle, or leads to a trait that the
  search is done with or to the next one of the path. -/
  passed : ∀ later f earlier, s.stack = later ++ f :: earlier → ∀ i < f.cursor, ∀ target,
    (g.uses f.node)[i]? = some (some target) →
      ⟨f.node, i⟩ ∈ s.closing ∨ s.mark? target = some .done ∨
      ∃ next ∈ later.getLast?, next.node = target
  done : ∀ id, s.mark? id = some .done → ∀ i target, (g.uses id)[i]? = some (some target) →
    ⟨id, i⟩ ∈ s.closing ∨ s.mark? target = some .done
  /-- A trait that is being visited has its place on the path. -/
  position : ∀ next, s.mark? next = some .visiting →
    ∃ i, s.path.findIdx? (· == next) = some i ∧ pathFrom s.stack next = s.path.drop i

theorem Valid.loopInvariant (h : Valid g s) : LoopInvariant g s where
  visiting id := by rw [h.visiting, mem_path]
  nodup := List.nodup_reverse.2 h.nodup
  leads later next f earlier hstack := by
    have hsplit :
        s.stack = (later ++ [next]) ++ f :: earlier := by rw [hstack, List.append_assoc]; rfl
    have hframe := h.path.frame hsplit
    rw [List.getLast?_concat] at hframe
    exact hframe.reaches next.node rfl
  passed later f earlier hstack i hi target htarget := by
    have hframe := h.path.frame hstack
    rcases hframe.settled i hi target htarget with (hclosing | hdone) | habove
    · exact .inl hclosing
    · exact .inr (.inl hdone)
    · rw [Option.or_none] at habove
      obtain ⟨next, hnext, hnode⟩ := Option.map_eq_some_iff.1 habove
      exact .inr (.inr ⟨next, hnext, hnode⟩)
  done := h.settled
  position _ hnext := exists_findIdx? h hnext

/-- The search, iteration by iteration. -/
structure SearchesThrough (g : UseGraph) : Prop where
  invariant : ∀ n roots s, Iterates g n roots s → LoopInvariant g s
  /-- Each iteration leaves one thing fewer to do; a new root changes nothing. -/
  decreases : ∀ n roots s, Iterates g n roots s →
    (s.stack ≠ [] → remaining g (step g s) + 1 = remaining g s) ∧
      ∀ root, s.mark? root = some .unseen → remaining g (s.enter root) = remaining g s
  counts : ∀ n roots s, Iterates g n roots s →
    n + remaining g s = g.traits.toFinset.card + g.clauses.card
  continues : ∀ n roots s, Iterates g n roots s → roots.foldl (visit g) (run g s) = ofGraph g
  ends : Iterates g (g.traits.toFinset.card + g.clauses.card) [] (ofGraph g) ∧
    (ofGraph g).stack = []
  done : ∀ id ∈ g.traits, (ofGraph g).mark? id = some .done

theorem searchesThrough (hg : g.Closed) : SearchesThrough g where
  invariant _ _ _ h := (h.valid hg).loopInvariant
  decreases _ _ _ h :=
    ⟨remaining_step hg (h.valid hg), fun _ hroot =>
      remaining_enter hroot ((h.valid hg).mem_traits hroot)⟩
  counts _ _ _ h := h.add_remaining hg
  continues _ _ _ h := h.foldl_visit
  ends := ⟨iterates_ofGraph hg, stack_ofGraph hg⟩
  done _ hid := done_ofGraph hg hid

/-- Two cycles that share a clause, a clause that brings in nothing, and a trait that uses
itself. -/
def tangled : UseGraph where
  traits := [⟨0⟩, ⟨1⟩, ⟨2⟩, ⟨3⟩]
  table :=
    [(⟨0⟩, [some ⟨1⟩, none, some ⟨2⟩]), (⟨1⟩, [some ⟨0⟩]), (⟨2⟩, [some ⟨1⟩]), (⟨3⟩, [some ⟨3⟩])]

theorem searchesThrough_tangled : tangled.Closed ∧ SearchesThrough tangled := by
  have hclosed : tangled.Closed := UseGraph.closed_of_table (by decide)
  exact ⟨hclosed, searchesThrough hclosed⟩

end CycleSearch
end ModuleVisibility
