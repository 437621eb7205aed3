import Mathlib.Data.List.Chain
import Mathlib.Data.List.Nodup
import Mathlib.Data.List.TakeWhile
import ModuleVisibility.Proofs.CycleSearch

/-!
Cycles of a use graph, and which of them the search finds. Each list that it records is a cycle, and
each clause that it records closes one of them: the clause leads from the end of the path back to a
trait on it. So what a recorded clause brings in uses the owner of the clause in turn, and every
cycle of the graph has such a clause.
-/
namespace ModuleVisibility

namespace UseGraph

variable {g : UseGraph} {cycle : List SymbolId} {a b id : SymbolId}

/-- The trait `b` is `a`, or `a` uses it over a chain of clauses. -/
abbrev Reaches (g : UseGraph) : SymbolId → SymbolId → Prop := Relation.ReflTransGen g.Leads

/-- The trait uses itself over a chain of clauses. -/
def UsesItself (g : UseGraph) (id : SymbolId) : Prop := Relation.TransGen g.Leads id id

/-- No trait uses itself. -/
def Acyclic (g : UseGraph) : Prop := ∀ id, ¬ g.UsesItself id

/-- Different traits of which each uses the next and the last the first. -/
structure IsCycle (g : UseGraph) (cycle : List SymbolId) : Prop where
  nonempty : cycle ≠ []
  nodup : cycle.Nodup
  chain : List.IsChain g.Leads cycle
  closed : ∀ last ∈ cycle.getLast?, ∀ first ∈ cycle.head?, g.Leads last first

theorem not_usesItself_of_ends (h : g.Ends id) : ¬ g.UsesItself id := by
  induction h with
  | intro id _ ih =>
    intro hself
    obtain ⟨used, hleads, hback⟩ := Relation.TransGen.head'_iff.1 hself
    exact ih used hleads (Relation.TransGen.tail'_iff.2 ⟨id, hback, hleads⟩)

/-- On a cycle every trait reaches the last one and is reached from the first one. -/
theorem IsCycle.reaches_last (h : g.IsCycle cycle) {last : SymbolId}
    (hlast : last ∈ cycle.getLast?) : ∀ a ∈ cycle, g.Reaches a last := by
  refine h.chain.backwards_induction _ _ (fun _ _ => Relation.ReflTransGen.head) fun hne => ?_
  rw [List.getLast?_eq_getLast_of_ne_nil hne] at hlast
  cases hlast
  exact Relation.ReflTransGen.refl

theorem IsCycle.first_reaches (h : g.IsCycle cycle) {first : SymbolId}
    (hfirst : first ∈ cycle.head?) : ∀ a ∈ cycle, g.Reaches first a := by
  refine h.chain.induction _ _ (fun _ _ hleads hreach => hreach.tail hleads) fun hne => ?_
  rw [List.head?_eq_some_head hne] at hfirst
  cases hfirst
  exact Relation.ReflTransGen.refl

theorem IsCycle.exists_ends (h : g.IsCycle cycle) :
    ∃ first last, first ∈ cycle.head? ∧ last ∈ cycle.getLast? :=
  ⟨cycle.head h.nonempty, cycle.getLast h.nonempty, List.head?_eq_some_head h.nonempty,
    List.getLast?_eq_getLast_of_ne_nil h.nonempty⟩

/-- Going from `a` to the last trait, from there to the first and on to `b`. -/
theorem IsCycle.uses (h : g.IsCycle cycle) (ha : a ∈ cycle) (hb : b ∈ cycle) :
    Relation.TransGen g.Leads a b := by
  obtain ⟨first, last, hfirst, hlast⟩ := h.exists_ends
  have hclose : g.Leads last first := h.closed last hlast first hfirst
  exact Relation.TransGen.trans_left (Relation.TransGen.tail' (h.reaches_last hlast a ha) hclose)
    (h.first_reaches hfirst b hb)

theorem IsCycle.usesItself (h : g.IsCycle cycle) (ha : a ∈ cycle) : g.UsesItself a :=
  h.uses ha ha

/-- A walk uses only clauses of a smaller graph, or one that this does not have. -/
theorem walk_kept_or (kept : UseGraph) (h : Relation.TransGen g.Leads a b) :
    Relation.TransGen kept.Leads a b ∨
      ∃ user used, g.Reaches a user ∧ g.Leads user used ∧ ¬ kept.Leads user used ∧
        g.Reaches used b := by
  induction h with
  | @single b hleads =>
    by_cases hkept : kept.Leads a b
    · exact .inl (.single hkept)
    · exact .inr ⟨a, b, .refl, hleads, hkept, .refl⟩
  | @tail b c hwalk hleads ih =>
    rcases ih with hkept | ⟨user, used, hto, huse, hnot, hfrom⟩
    · by_cases hlast : kept.Leads b c
      · exact .inl (hkept.tail hlast)
      · exact .inr ⟨b, c, hwalk.to_reflTransGen, hleads, hlast, .refl⟩
    · exact .inr ⟨user, used, hto, huse, hnot, hfrom.tail hleads⟩

end UseGraph

namespace CycleSearch

variable {g : UseGraph} {s : CycleSearch} {id : SymbolId}

/-- The path, read backwards, is a chain of uses. -/
theorem PathValid.isChain {above : Option SymbolId} {stack : List Frame}
    (h : PathValid g s above stack) :
    List.IsChain (fun used user => g.Leads user used) (above.toList ++ stack.map Frame.node) := by
  induction stack generalizing above with
  | nil => cases above <;> simp
  | cons f below ih =>
    obtain ⟨hframe, hbelow⟩ := h
    have hrest : List.IsChain (fun used user => g.Leads user used)
        ((f :: below).map Frame.node) := ih hbelow
    cases above with
    | none => exact hrest
    | some next =>
      obtain ⟨c, _, hread⟩ := hframe.reaches next rfl
      have hleads : g.Leads f.node next := List.mem_of_getElem? hread
      exact List.isChain_cons_cons.2 ⟨hleads, hrest⟩

/-- The part of the path from a trait on it that the end of the path uses is a cycle. -/
theorem Valid.isCycle_pathFrom (h : Valid g s) {top : Frame} {below : List Frame}
    (hs : s.stack = top :: below) {next : SymbolId} (hnext : s.mark? next = some .visiting)
    (hleads : g.Leads top.node next) :
    g.IsCycle (pathFrom s.stack next) ∧ next ∈ (pathFrom s.stack next).head? ∧
      top.node ∈ (pathFrom s.stack next).getLast? := by
  have hmem : next ∈ (s.stack.map Frame.node).reverse :=
    List.mem_reverse.2 ((h.visiting next).1 hnext)
  have hsuffix : pathFrom s.stack next <:+ (s.stack.map Frame.node).reverse :=
    List.dropWhile_suffix _
  have hne : pathFrom s.stack next ≠ [] := by
    intro hnil
    have hall := List.dropWhile_eq_nil_iff.1 hnil next hmem
    simp at hall
  have hfirst : next ∈ (pathFrom s.stack next).head? := by
    have hstop : ∀ x ∈ (pathFrom s.stack next).head?, x = next := by
      intro x hx
      have hnot := List.head?_dropWhile_not (fun x => decide (x ≠ next))
        (s.stack.map Frame.node).reverse
      rw [pathFrom] at hx
      rw [hx] at hnot
      simpa using hnot
    have hhead : (pathFrom s.stack next).head? = some ((pathFrom s.stack next).head hne) :=
      List.head?_eq_some_head hne
    rwa [hstop _ hhead] at hhead
  have hlast : top.node ∈ (pathFrom s.stack next).getLast? := by
    obtain ⟨before, hbefore⟩ := hsuffix
    have hend : (s.stack.map Frame.node).reverse.getLast? = some top.node := by
      rw [hs, List.getLast?_reverse]
      rfl
    rw [← hbefore, List.getLast?_append_of_ne_nil _ hne] at hend
    exact hend
  have hnodup : (s.stack.map Frame.node).reverse.Nodup := List.nodup_reverse.2 h.nodup
  have hchain : List.IsChain g.Leads (s.stack.map Frame.node).reverse :=
    List.isChain_reverse.2 h.path.isChain
  refine ⟨⟨hne, hnodup.sublist hsuffix.sublist, hchain.suffix hsuffix, ?_⟩, hfirst, hlast⟩
  intro last hlast' first hfirst'
  cases hlast.symm.trans hlast'
  cases hfirst.symm.trans hfirst'
  exact hleads

/-- What the search has recorded: cycles, and clauses that each close one of them. -/
structure Found (g : UseGraph) (s : CycleSearch) : Prop where
  cycles : ∀ cycle ∈ s.cycles, g.IsCycle cycle
  closing : ∀ clause ∈ s.closing, ∃ cycle ∈ s.cycles, ∃ target,
    (g.uses clause.owner)[clause.index]? = some (some target) ∧ target ∈ cycle.head? ∧
      clause.owner ∈ cycle.getLast?

theorem Found.follow (hvalid : Valid g s) (h : Found g s) {top : Frame} {below : List Frame}
    (hs : s.stack = top :: below) {target : Option SymbolId}
    (hread : (g.uses top.node)[top.cursor]? = some target) :
    Found g (follow { s with stack := ⟨top.node, top.cursor + 1⟩ :: below }
      ⟨top.node, top.cursor⟩ target) := by
  unfold CycleSearch.follow
  split
  · exact ⟨h.cycles, h.closing⟩
  · next next =>
    split
    · exact ⟨h.cycles, h.closing⟩
    · next hmark =>
      have hsame : pathFrom (⟨top.node, top.cursor + 1⟩ :: below) next = pathFrom s.stack next := by
        simp [pathFrom, hs]
      obtain ⟨hcycle, hfirst, hlast⟩ :=
        hvalid.isCycle_pathFrom hs hmark (List.mem_of_getElem? hread)
      simp only [hsame]
      refine ⟨fun cycle hmem => ?_, fun clause hmem => ?_⟩
      · rcases List.mem_append.1 hmem with hold | hnew
        · exact h.cycles cycle hold
        · rw [List.mem_singleton.1 hnew]
          exact hcycle
      · rcases List.mem_append.1 hmem with hold | hnew
        · obtain ⟨cycle, hknown, hcloses⟩ := h.closing clause hold
          exact ⟨cycle, List.mem_append_left _ hknown, hcloses⟩
        · rw [List.mem_singleton.1 hnew]
          exact ⟨_, List.mem_append_right _ (List.mem_singleton_self _), next, hread, hfirst,
            hlast⟩
    · exact ⟨h.cycles, h.closing⟩

theorem Found.step (hvalid : Valid g s) (h : Found g s) : Found g (step g s) := by
  unfold CycleSearch.step
  split
  · exact h
  · next top below hs =>
    split
    · exact ⟨h.cycles, h.closing⟩
    · next target hread => exact h.follow hvalid hs hread

theorem found_ofGraph (hg : g.Closed) : Found g (ofGraph g) := by
  refine ofGraph_induction hg ⟨by simp [start], by simp [start]⟩ ?_ ?_
  · exact fun s root _ _ h _ => ⟨h.cycles, h.closing⟩
  · exact fun s hvalid h => h.step hvalid

end CycleSearch
end ModuleVisibility
