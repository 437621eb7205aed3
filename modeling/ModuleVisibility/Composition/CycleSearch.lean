import ModuleVisibility.Composition.UseGraph

/-!
Depth-first search for composition cycles. The search keeps the path it is on as a stack of traits,
each with a cursor to its next clause, and marks every trait that it has entered or left. A clause
that leads to a trait on the path closes a cycle; without such clauses the graph has none.
-/
namespace ModuleVisibility

/-- How far the search has got with a trait. -/
inductive Mark where
  | unseen
  /-- The trait is on the path. -/
  | visiting
  | done
  deriving DecidableEq

/-- A trait on the path with the index of its next clause. -/
structure Frame where
  node : SymbolId
  cursor : Nat
  deriving DecidableEq

/-- The state of a search: the path from its end back to its start, the clauses that close a cycle,
and these cycles, each from the trait that was entered first. -/
structure CycleSearch where
  marks : List (SymbolId × Mark)
  stack : List Frame
  closing : List ClauseRef
  cycles : List (List SymbolId)

namespace CycleSearch

/-- Before the search no trait has been seen. -/
def start (g : UseGraph) : CycleSearch := ⟨g.traits.map (·, .unseen), [], [], []⟩

def mark? (s : CycleSearch) (id : SymbolId) : Option Mark := s.marks.lookup id

/-- Gives a trait another mark. -/
def setMark (id : SymbolId) (mark : Mark) (marks : List (SymbolId × Mark)) :
    List (SymbolId × Mark) :=
  marks.map fun (other, old) => (other, if other = id then mark else old)

/-- Goes on to a trait. -/
def enter (s : CycleSearch) (id : SymbolId) : CycleSearch :=
  { s with marks := setMark id .visiting s.marks, stack := ⟨id, 0⟩ :: s.stack }

/-- The part of the path from `id` on. -/
def pathFrom (stack : List Frame) (id : SymbolId) : List SymbolId :=
  (stack.map Frame.node).reverse.dropWhile (· ≠ id)

/-- Looks at what the clause `clause` brings in. -/
def follow (s : CycleSearch) (clause : ClauseRef) : Option SymbolId → CycleSearch
  | none => s
  | some next =>
    match s.mark? next with
    | some .unseen => s.enter next
    | some .visiting =>
      { s with
        closing := s.closing ++ [clause]
        cycles := s.cycles ++ [pathFrom s.stack next] }
    | _ => s

/-- One step: leaves the last trait of the path if it has no more clauses, and follows its next
clause otherwise. -/
def step (g : UseGraph) (s : CycleSearch) : CycleSearch :=
  match s.stack with
  | [] => s
  | top :: below =>
    match (g.uses top.node)[top.cursor]? with
    | none => { s with marks := setMark top.node .done s.marks, stack := below }
    | some target =>
      follow { s with stack := ⟨top.node, top.cursor + 1⟩ :: below } ⟨top.node, top.cursor⟩ target

/-- Work that the unseen traits may still make: a visit, and all of their clauses. -/
def unseenWork (g : UseGraph) : List (SymbolId × Mark) → Nat
  | [] => 0
  | (id, mark) :: marks =>
    (if mark = .unseen then (g.uses id).length + 1 else 0) + unseenWork g marks

/-- Work left on the path: the clauses behind each cursor, and leaving each trait. -/
def pathWork (g : UseGraph) : List Frame → Nat
  | [] => 0
  | f :: stack => (g.uses f.node).length - f.cursor + 1 + pathWork g stack

/-- The work left; every step makes it less. -/
def work (g : UseGraph) (s : CycleSearch) : Nat := unseenWork g s.marks + pathWork g s.stack

theorem unseenWork_setMark_le (g : UseGraph) (id : SymbolId) {mark : Mark} (h : mark ≠ .unseen)
    (marks : List (SymbolId × Mark)) :
    unseenWork g (setMark id mark marks) ≤ unseenWork g marks := by
  induction marks with
  | nil => simp [setMark]
  | cons m ms ih =>
    simp only [setMark, unseenWork, List.map_cons] at ih ⊢
    split <;> split <;> simp_all
    omega

theorem unseenWork_setMark_add_le (g : UseGraph) {id : SymbolId} {mark : Mark}
    (h : mark ≠ .unseen) {marks : List (SymbolId × Mark)} (hid : marks.lookup id = some .unseen) :
    unseenWork g (setMark id mark marks) + ((g.uses id).length + 1) ≤ unseenWork g marks := by
  induction marks with
  | nil => simp at hid
  | cons m ms ih =>
    obtain ⟨other, old⟩ := m
    rw [List.lookup_cons] at hid
    by_cases hother : id = other
    · subst hother
      have hold : old = .unseen := by simpa using hid
      have := unseenWork_setMark_le g id h ms
      simp only [setMark, unseenWork, List.map_cons] at this ⊢
      simp only [hold, if_true, h, if_false]
      omega
    · have hne : (id == other) = false := by simpa using hother
      rw [hne] at hid
      have := ih hid
      have hne' : ¬ other = id := fun h => hother h.symm
      simp only [setMark, unseenWork, List.map_cons, if_neg hne'] at this ⊢
      omega

theorem work_follow_le (g : UseGraph) (s : CycleSearch) (clause : ClauseRef)
    (target : Option SymbolId) : work g (follow s clause target) ≤ work g s := by
  unfold follow
  split
  · exact Nat.le_refl _
  · split
    · next h =>
      have := unseenWork_setMark_add_le g (show Mark.visiting ≠ .unseen by decide) h
      simp only [work, enter, pathWork] at this ⊢
      omega
    · exact Nat.le_refl _
    · exact Nat.le_refl _

theorem work_step_lt (g : UseGraph) {s : CycleSearch} (h : s.stack ≠ []) :
    work g (step g s) < work g s := by
  unfold step
  split
  · contradiction
  · next top below hs =>
    split
    · have := unseenWork_setMark_le g top.node (show Mark.done ≠ .unseen by decide) s.marks
      simp only [work, hs, pathWork]
      omega
    · next hc =>
      obtain ⟨hlt, _⟩ := List.getElem?_eq_some_iff.1 hc
      refine Nat.lt_of_le_of_lt (work_follow_le ..) ?_
      simp only [work, hs, pathWork]
      omega

/-- Steps until the path is empty. -/
def run (g : UseGraph) (s : CycleSearch) : CycleSearch :=
  if _h : s.stack = [] then s else run g (step g s)
termination_by work g s
decreasing_by exact work_step_lt g _h

/-- Searches from a trait unless it has been seen. -/
def visit (g : UseGraph) (s : CycleSearch) (root : SymbolId) : CycleSearch :=
  if s.mark? root = some .unseen then run g (s.enter root) else s

/-- The search of a whole graph, from its traits in order. -/
def ofGraph (g : UseGraph) : CycleSearch := g.traits.foldl (visit g) (start g)

/-- The traits that the search found on a cycle, in the order of `g`. -/
def cyclic (g : UseGraph) (s : CycleSearch) : List SymbolId :=
  g.traits.filter fun id => s.cycles.any fun cycle => cycle.contains id

end CycleSearch
end ModuleVisibility
