import ModuleVisibility.Proofs.Cycle
import ModuleVisibility.Proofs.ListEdit

/-!
Leaving a clause that brings in nothing out of a use graph. The clauses behind it move up by one
place. The cycle search passes over such a clause in a step that moves its cursor only, so without
it the search takes one step less and otherwise goes the same way: it finds the same cycles, closed
by the same clauses at their new places.
-/
namespace ModuleVisibility

namespace UseGraph

/-- The graph without a clause. -/
def eraseClause (g : UseGraph) (gone : ClauseRef) : UseGraph :=
  { g with
    table := g.table.map fun (owner, uses) =>
      (owner, if owner = gone.owner then uses.eraseIdx gone.index else uses) }

variable {g : UseGraph} {gone : ClauseRef}

theorem uses_eraseClause (g : UseGraph) (gone : ClauseRef) (owner : SymbolId) :
    (g.eraseClause gone).uses owner =
      if owner = gone.owner then (g.uses owner).eraseIdx gone.index else g.uses owner := by
  have hlookup := lookup_map_value
    (fun owner (uses : List (Option SymbolId)) =>
      if owner = gone.owner then uses.eraseIdx gone.index else uses) g.table owner
  unfold uses eraseClause
  rw [hlookup]
  cases g.table.lookup owner with
  | none => split <;> simp
  | some uses => rfl

end UseGraph

namespace ClauseRef

/-- Where clause `index` of an owner stands when `gone` is left out. -/
def place (gone : ClauseRef) (owner : SymbolId) (index : Nat) : Nat :=
  if owner = gone.owner ∧ gone.index < index then index - 1 else index

/-- The clause at its place when `gone` is left out. -/
def moveUp (gone clause : ClauseRef) : ClauseRef :=
  ⟨clause.owner, gone.place clause.owner clause.index⟩

variable {gone clause other : ClauseRef} {owner : SymbolId} {index : Nat}

/-- The cursor that is past a clause stays past it, unless that clause is the one left out. -/
theorem place_succ (h : (⟨owner, index⟩ : ClauseRef) ≠ gone) :
    gone.place owner (index + 1) = gone.place owner index + 1 := by
  obtain ⟨gone, hole⟩ := gone
  simp only [ne_eq, mk.injEq, not_and] at h
  unfold place
  by_cases howner : owner = gone
  · have hne := h howner
    simp only [howner, true_and]
    split <;> split <;> omega
  · simp [howner]

theorem place_succ_self (gone : ClauseRef) :
    gone.place gone.owner (gone.index + 1) = gone.place gone.owner gone.index := by
  simp [place]

/-- The other clauses stay apart. -/
theorem moveUp_inj (h : clause ≠ gone) (hother : other ≠ gone) :
    gone.moveUp clause = gone.moveUp other ↔ clause = other := by
  obtain ⟨gone, hole⟩ := gone
  obtain ⟨owner, index⟩ := clause
  obtain ⟨owner', index'⟩ := other
  simp only [moveUp, place, mk.injEq, ne_eq, not_and] at h hother ⊢
  refine and_congr_right fun howner => ?_
  subst howner
  by_cases hgone : owner = gone
  · have hne := h hgone
    have hne' := hother hgone
    simp only [hgone, true_and]
    split <;> split <;> omega
  · simp [hgone]

theorem mem_map_moveUp {clauses : List ClauseRef} (hgone : gone ∉ clauses) (h : clause ≠ gone) :
    gone.moveUp clause ∈ clauses.map gone.moveUp ↔ clause ∈ clauses := by
  rw [List.mem_map]
  constructor
  · rintro ⟨other, hother, heq⟩
    have hne : other ≠ gone := fun h => hgone (h ▸ hother)
    rwa [← (moveUp_inj hne h).1 heq]
  · exact fun hmem => ⟨clause, hmem, rfl⟩

end ClauseRef

namespace UseGraph

variable {g : UseGraph} {gone : ClauseRef} {owner : SymbolId} {index : Nat}

/-- The other clauses bring in what they brought in before. -/
theorem getElem?_eraseClause (h : (⟨owner, index⟩ : ClauseRef) ≠ gone) :
    ((g.eraseClause gone).uses owner)[gone.place owner index]? = (g.uses owner)[index]? := by
  obtain ⟨gone, hole⟩ := gone
  simp only [ne_eq, ClauseRef.mk.injEq, not_and] at h
  rw [uses_eraseClause]
  unfold ClauseRef.place
  by_cases howner : owner = gone
  · have hne := h howner
    simp only [howner, if_true, true_and, List.getElem?_eraseIdx]
    by_cases hbehind : hole < index
    · rw [if_pos hbehind, if_neg (by omega), Nat.sub_add_cancel (by omega)]
    · rw [if_neg hbehind, if_pos (by omega)]
  · simp [howner]

end UseGraph

namespace CycleSearch

variable {g : UseGraph} {gone : ClauseRef}

/-- A trait on the path, with its cursor at the new place of the next clause. -/
def moveFrameUp (gone : ClauseRef) (f : Frame) : Frame := ⟨f.node, gone.place f.node f.cursor⟩

/-- The search with cursors and clauses at their new places. -/
def moveUp (gone : ClauseRef) (s : CycleSearch) : CycleSearch :=
  { s with
    stack := s.stack.map (moveFrameUp gone)
    closing := s.closing.map gone.moveUp }

theorem pathFrom_map_moveFrameUp (gone : ClauseRef) (stack : List Frame) (id : SymbolId) :
    pathFrom (stack.map (moveFrameUp gone)) id = pathFrom stack id := by
  unfold pathFrom
  rw [List.map_map]
  rfl

theorem moveUp_follow (gone : ClauseRef) (s : CycleSearch) (clause : ClauseRef)
    (target : Option SymbolId) :
    (follow s clause target).moveUp gone = follow (s.moveUp gone) (gone.moveUp clause) target := by
  cases target with
  | none => rfl
  | some next =>
    have hmark : (s.moveUp gone).mark? next = s.mark? next := rfl
    unfold follow
    simp only [hmark]
    cases s.mark? next with
    | none => rfl
    | some mark =>
      cases mark with
      | unseen => simp [enter, moveUp, moveFrameUp, ClauseRef.place]
      | visiting =>
        simp only [moveUp, pathFrom_map_moveFrameUp, List.map_append, List.map_cons, List.map_nil]
      | done => rfl

/-- The next step reads the clause `gone`. -/
def Reads (s : CycleSearch) (gone : ClauseRef) : Prop :=
  ∃ below, s.stack = ⟨gone.owner, gone.index⟩ :: below

/-- The step that reads the clause left out changes nothing. -/
theorem moveUp_step_of_reads (hgone : (g.uses gone.owner)[gone.index]? = some none)
    {s : CycleSearch} (h : s.Reads gone) : (step g s).moveUp gone = s.moveUp gone := by
  obtain ⟨below, hstack⟩ := h
  unfold step
  simp only [hstack, hgone, follow, moveUp, moveFrameUp, List.map_cons, ClauseRef.place_succ_self]

/-- Every other step is one of the search without the clause. -/
theorem moveUp_step {s : CycleSearch} (h : ¬ s.Reads gone) :
    (step g s).moveUp gone = step (g.eraseClause gone) (s.moveUp gone) := by
  unfold step
  cases hstack : s.stack with
  | nil =>
    have hmoved : (s.moveUp gone).stack = [] := by simp [moveUp, hstack]
    simp only [hmoved]
  | cons top below =>
    have hread : (⟨top.node, top.cursor⟩ : ClauseRef) ≠ gone := by
      rintro rfl
      exact h ⟨below, hstack⟩
    have hmoved : (s.moveUp gone).stack =
        ⟨top.node, gone.place top.node top.cursor⟩ :: below.map (moveFrameUp gone) := by
      simp [moveUp, hstack, moveFrameUp]
    simp only [hmoved, UseGraph.getElem?_eraseClause hread]
    cases (g.uses top.node)[top.cursor]? with
    | none => rfl
    | some target =>
      simp only [moveUp_follow]
      congr 1
      simp only [moveUp, moveFrameUp, List.map_cons, ClauseRef.place_succ hread]

theorem moveUp_run (hgone : (g.uses gone.owner)[gone.index]? = some none) (s : CycleSearch) :
    (run g s).moveUp gone = run (g.eraseClause gone) (s.moveUp gone) := by
  fun_induction run g s with
  | case1 s hempty =>
    have hmoved : (s.moveUp gone).stack = [] := by simp [moveUp, hempty]
    rw [run, dif_pos hmoved]
  | case2 s hpath ih =>
    by_cases hreads : s.Reads gone
    · rw [ih, moveUp_step_of_reads hgone hreads]
    · have hmoved : (s.moveUp gone).stack ≠ [] := by simpa [moveUp] using hpath
      rw [ih, moveUp_step hreads]
      conv_rhs => rw [run, dif_neg hmoved]

theorem moveUp_visit (hgone : (g.uses gone.owner)[gone.index]? = some none) (s : CycleSearch)
    (root : SymbolId) :
    (visit g s root).moveUp gone = visit (g.eraseClause gone) (s.moveUp gone) root := by
  have hmark : (s.moveUp gone).mark? root = s.mark? root := rfl
  unfold visit
  rw [hmark]
  split
  · rw [moveUp_run hgone]
    congr 1
    simp [enter, moveUp, moveFrameUp, ClauseRef.place]
  · rfl

/-- Without a clause that brings in nothing the search finds what it found. -/
theorem ofGraph_eraseClause (hgone : (g.uses gone.owner)[gone.index]? = some none) :
    ofGraph (g.eraseClause gone) = (ofGraph g).moveUp gone := by
  have hvisits : ∀ (roots : List SymbolId) (s : CycleSearch),
      (roots.foldl (visit g) s).moveUp gone =
        roots.foldl (visit (g.eraseClause gone)) (s.moveUp gone) := by
    intro roots
    induction roots with
    | nil => exact fun _ => rfl
    | cons root rest ih =>
      intro s
      rw [List.foldl_cons, List.foldl_cons, ih, moveUp_visit hgone]
  exact (hvisits g.traits (start g)).symm

end CycleSearch

/-! What is left of the graph. -/

namespace UseGraph

variable {g : UseGraph} {gone : ClauseRef} {clauses : List ClauseRef}

/-- Dropping clauses and leaving one out that is not dropped may be done in either order. -/
theorem uses_drop_eraseClause (hgone : gone ∉ clauses) (owner : SymbolId) :
    ((g.eraseClause gone).drop (clauses.map gone.moveUp)).uses owner =
      if owner = gone.owner then ((g.drop clauses).uses owner).eraseIdx gone.index
      else (g.drop clauses).uses owner := by
  have hmem : ∀ {index place}, (⟨owner, index⟩ : ClauseRef) ≠ gone →
    gone.place owner index = place →
      ((⟨owner, place⟩ : ClauseRef) ∈ clauses.map gone.moveUp ↔
        (⟨owner, index⟩ : ClauseRef) ∈ clauses) := by
    rintro index _ hne rfl
    exact ClauseRef.mem_map_moveUp hgone hne
  obtain ⟨gone, hole⟩ := gone
  rw [uses_drop, uses_drop, uses_eraseClause]
  refine List.ext_getElem? fun index => ?_
  by_cases howner : owner = gone
  · subst howner
    simp only [if_true, List.getElem?_mapIdx, List.getElem?_eraseIdx]
    by_cases hbefore : index < hole
    · have hplace : ClauseRef.place ⟨owner, hole⟩ owner index = index :=
        if_neg fun h => Nat.lt_asymm hbefore h.2
      have hne : (⟨owner, index⟩ : ClauseRef) ≠ ⟨owner, hole⟩ := by
        simp [Nat.ne_of_lt hbefore]
      simp only [if_pos hbefore, hmem hne hplace]
    · have hplace : ClauseRef.place ⟨owner, hole⟩ owner (index + 1) = index :=
        if_pos ⟨rfl, Nat.lt_succ_of_le (Nat.not_lt.1 hbefore)⟩
      have hne : (⟨owner, index + 1⟩ : ClauseRef) ≠ ⟨owner, hole⟩ := by
        simp only [ne_eq, ClauseRef.mk.injEq, true_and]
        omega
      simp only [if_neg hbefore, hmem hne hplace]
  · have hplace : ClauseRef.place ⟨gone, hole⟩ owner index = index :=
      if_neg fun h => howner h.1
    have hne : (⟨owner, index⟩ : ClauseRef) ≠ ⟨gone, hole⟩ := fun h =>
      howner (congrArg ClauseRef.owner h)
    simp only [if_neg howner, List.getElem?_mapIdx, hmem hne hplace]

end UseGraph
end ModuleVisibility
