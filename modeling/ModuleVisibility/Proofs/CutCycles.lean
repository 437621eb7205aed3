import ModuleVisibility.Proofs.CyclicTraits
import ModuleVisibility.Proofs.Recursion

/-!
What traits on cycles are composed of. The search drops the clauses by which it comes back to a
trait on its path and keeps every other one, so each cycle loses a clause and only clauses on cycles
are lost. A trait that uses itself directly does not compose itself; but of a longer cycle all
clauses but one may stay, and which one goes depends on where the search enters the cycle.
-/
namespace ModuleVisibility

namespace UseGraph

/-- The clause brings in a trait that uses its owner in turn. -/
def OnCycle (g : UseGraph) (clause : ClauseRef) : Prop :=
  ∃ target, (g.uses clause.owner)[clause.index]? = some (some target) ∧
    g.Reaches target clause.owner

/-- Whatever uses itself over other traits uses itself directly. -/
def SelfUsesOnly (g : UseGraph) (id : SymbolId) : Prop :=
  ∀ target, g.Leads id target → g.Reaches target id → target = id

end UseGraph

namespace CycleSearch

variable {g : UseGraph} {clause : ClauseRef} {id : SymbolId} {index : Nat}

theorem onCycle_of_mem_closing (hg : g.Closed) (h : clause ∈ (ofGraph g).closing) :
    g.OnCycle clause := by
  have hfound := found_ofGraph hg
  obtain ⟨cycle, hcycle, target, hread, hfirst, hlast⟩ := hfound.closing clause h
  exact ⟨target, hread, ((hfound.cycles cycle hcycle).uses (List.mem_of_mem_head? hfirst)
    (List.mem_of_mem_getLast? hlast)).to_reflTransGen⟩

theorem not_leads_self (hg : g.Closed) : ¬ (g.drop (ofGraph g).closing).Leads id id :=
  fun h => acyclic_drop_closing hg id (.single h)

theorem mem_closing_of_self (hg : g.Closed) (h : (g.uses id)[index]? = some (some id)) :
    ⟨id, index⟩ ∈ (ofGraph g).closing := by
  by_contra hkept
  exact not_leads_self hg (UseGraph.leads_drop.2 ⟨index, h, hkept⟩)

/-! The clauses that the search follows along its path stay. -/

variable {s s' : CycleSearch} {top : Frame} {below : List Frame} {a b : SymbolId}

/-- The search has looked at the clause. -/
def Read (s : CycleSearch) (clause : ClauseRef) : Prop :=
  s.mark? clause.owner = some .done ∨ ∃ f ∈ s.stack, f.node = clause.owner ∧ clause.index < f.cursor

/-- A clause of `a` that was read and does not close a cycle brings in `b`. -/
def Follows (g : UseGraph) (s : CycleSearch) (a b : SymbolId) : Prop :=
  ∃ i, (g.uses a)[i]? = some (some b) ∧ (⟨a, i⟩ : ClauseRef) ∉ s.closing ∧ s.Read ⟨a, i⟩

/-- The path's end is being visited. -/
theorem Valid.mark?_top (h : Valid g s) (hs : s.stack = top :: below) :
    s.mark? top.node = some .visiting :=
  (h.visiting _).2 (by simp [hs])

/-- The next clause of the path's end has not been read. -/
theorem Valid.not_read_top (h : Valid g s) (hs : s.stack = top :: below) :
    ¬ s.Read ⟨top.node, top.cursor⟩ := by
  rintro (hdone | ⟨f, hf, hnode, hcursor⟩)
  · rw [h.mark?_top hs] at hdone
    cases hdone
  · have hnodup := h.nodup
    rw [hs, List.map_cons, List.nodup_cons] at hnodup
    rw [hs] at hf
    rcases List.mem_cons.1 hf with rfl | hf
    · exact Nat.lt_irrefl _ hcursor
    · exact hnodup.1 (List.mem_map.2 ⟨f, hf, hnode⟩)

/-- Where the cursor of the path's end moves on, one clause more has been read. -/
theorem read_advance (hs : s.stack = top :: below) (hmarks : s'.marks = s.marks)
    (hstack : s'.stack = ⟨top.node, top.cursor + 1⟩ :: below) :
    s'.Read clause ↔ s.Read clause ∨ clause = ⟨top.node, top.cursor⟩ := by
  obtain ⟨owner, index⟩ := clause
  have hmoved : (top.node = owner ∧ index < top.cursor + 1) ↔
      (owner = top.node ∧ index = top.cursor) ∨ (top.node = owner ∧ index < top.cursor) := by
    rw [eq_comm (a := owner), ← and_or_left, Nat.lt_succ_iff_lt_or_eq, or_comm]
  simp only [Read, mark?, hmarks, hstack, hs, List.exists_mem_cons_iff, ClauseRef.mk.injEq]
  rw [hmoved, or_assoc, or_right_comm, or_assoc]

/-- Nothing has been read yet of a trait that is entered. -/
theorem read_enter (hid : s.mark? id = some .unseen) :
    (s.enter id).Read clause ↔ s.Read clause := by
  have hnone : ¬ (id = clause.owner ∧ clause.index < 0) := fun h => Nat.not_lt_zero _ h.2
  have hstack : (s.enter id).stack = ⟨id, 0⟩ :: s.stack := rfl
  rw [Read, Read, done_enter hid, hstack, List.exists_mem_cons_iff, or_iff_right hnone]

/-- Whatever has been read stays so when the path's end is left. -/
theorem Read.leaveTo (htop : s.mark? top.node = some .visiting) (hs : s.stack = top :: below)
    (h : s.Read clause) :
    (s.leaveTo top.node below).Read clause := by
  rcases h with hdone | ⟨f, hf, hnode, hcursor⟩
  · exact .inl (done_leaveTo htop below hdone)
  · rw [hs] at hf
    rcases List.mem_cons.1 hf with rfl | hf
    · exact .inl (by rw [mark?_leaveTo htop, if_pos hnode.symm])
    · exact .inr ⟨f, hf, hnode, hcursor⟩

/-- The path and the cycles found are followed over clauses that stay. -/
structure Followed (g : UseGraph) (s : CycleSearch) : Prop where
  closing : ∀ clause ∈ s.closing, s.Read clause
  path : List.IsChain (fun used user => s.Follows g user used) (s.stack.map Frame.node)
  cycles : ∀ cycle ∈ s.cycles, List.IsChain (s.Follows g) cycle

theorem Follows.mono (hread : ∀ clause, s.Read clause → s'.Read clause)
    (hclosing : ∀ clause ∈ s'.closing, s.Read clause → clause ∈ s.closing) (h : s.Follows g a b) :
    s'.Follows g a b := by
  obtain ⟨i, hi, hkept, hdone⟩ := h
  exact ⟨i, hi, fun hmem => hkept (hclosing _ hmem hdone), hread _ hdone⟩

/-- What is followed stays so while nothing that was read is recorded. -/
theorem Followed.mono (h : Followed g s) (s' : CycleSearch)
    (hread : ∀ clause, s.Read clause → s'.Read clause)
    (hclosing : ∀ clause ∈ s'.closing, clause ∈ s.closing ∨ s'.Read clause ∧ ¬ s.Read clause) :
    (∀ clause ∈ s'.closing, s'.Read clause) ∧
      List.IsChain (fun used user => s'.Follows g user used) (s.stack.map Frame.node) ∧
        ∀ cycle ∈ s.cycles, List.IsChain (s'.Follows g) cycle := by
  have hkept : ∀ clause ∈ s'.closing, s.Read clause → clause ∈ s.closing :=
    fun clause hmem hdone => (hclosing clause hmem).resolve_right fun hnew => hnew.2 hdone
  refine ⟨fun clause hmem => ?_, ?_, fun cycle hcycle => ?_⟩
  · exact (hclosing clause hmem).elim (fun hold => hread _ (h.closing _ hold)) And.left
  · exact h.path.imp fun _ _ => Follows.mono hread hkept
  · exact (h.cycles cycle hcycle).imp fun _ _ => Follows.mono hread hkept

theorem Followed.leave (hvalid : Valid g s) (h : Followed g s) (hs : s.stack = top :: below) :
    Followed g (s.leaveTo top.node below) := by
  have htop := hvalid.mark?_top hs
  obtain ⟨hclosing, hpath, hcycles⟩ :=
    h.mono _ (fun _ => Read.leaveTo htop hs) fun _ hmem => .inl hmem
  rw [hs, List.map_cons] at hpath
  exact ⟨hclosing, hpath.tail, hcycles⟩

theorem Followed.follow (hvalid : Valid g s) (h : Followed g s) (hs : s.stack = top :: below)
    {target : Option SymbolId} (hread : (g.uses top.node)[top.cursor]? = some target) :
    Followed g (follow { s with stack := ⟨top.node, top.cursor + 1⟩ :: below }
      ⟨top.node, top.cursor⟩ target) := by
  have hfresh := hvalid.not_read_top hs
  have hnodes : s.stack.map Frame.node = top.node :: below.map Frame.node := by rw [hs]; rfl
  -- The cursor has moved on, so the clause has been read now.
  have hpast : ∀ {s' : CycleSearch}, ⟨top.node, top.cursor + 1⟩ ∈ s'.stack →
      s'.Read ⟨top.node, top.cursor⟩ :=
    fun hmem => .inr ⟨_, hmem, rfl, Nat.lt_succ_self _⟩
  have hmoved : ∀ clause, s.Read clause →
      CycleSearch.Read { s with stack := ⟨top.node, top.cursor + 1⟩ :: below } clause :=
    fun _ hdone => Iff.mpr (read_advance hs rfl rfl) (.inl hdone)
  have hskip : Followed g { s with stack := ⟨top.node, top.cursor + 1⟩ :: below } := by
    obtain ⟨hclosing, hpath, hcycles⟩ := h.mono _ hmoved fun _ hmem => .inl hmem
    rw [hnodes] at hpath
    exact ⟨hclosing, hpath, hcycles⟩
  unfold CycleSearch.follow
  cases target with
  | none => exact hskip
  | some next =>
    have hsame : CycleSearch.mark? { s with stack := ⟨top.node, top.cursor + 1⟩ :: below } next =
        s.mark? next :=
      rfl
    simp only [hsame]
    split
    · next hunseen =>
      have hentered : ∀ clause, s.Read clause →
          (CycleSearch.enter { s with stack := ⟨top.node, top.cursor + 1⟩ :: below } next).Read
          clause :=
        fun clause hdone => Iff.mpr (read_enter hunseen) (hmoved clause hdone)
      obtain ⟨hclosing, hpath, hcycles⟩ := h.mono _ hentered fun _ hmem => .inl hmem
      rw [hnodes] at hpath
      refine ⟨hclosing, List.isChain_cons_cons.2 ⟨?_, hpath⟩, hcycles⟩
      exact ⟨top.cursor, hread, fun hmem => hfresh (h.closing _ hmem),
        hpast (List.mem_cons_of_mem _ List.mem_cons_self)⟩
    · obtain ⟨hclosing, hpath, hcycles⟩ := h.mono
        { s with
          stack := ⟨top.node, top.cursor + 1⟩ :: below
          closing := s.closing ++ [⟨top.node, top.cursor⟩]
          cycles := s.cycles ++ [pathFrom (⟨top.node, top.cursor + 1⟩ :: below) next] }
        hmoved fun clause hmem => by
          rcases List.mem_append.1 hmem with hold | hnew
          · exact .inl hold
          · rw [List.mem_singleton.1 hnew]
            exact .inr ⟨hpast List.mem_cons_self, hfresh⟩
      rw [hnodes] at hpath
      refine ⟨hclosing, hpath, fun cycle hcycle => ?_⟩
      rcases List.mem_append.1 hcycle with hold | hnew
      · exact hcycles cycle hold
      · rw [List.mem_singleton.1 hnew]
        exact (List.isChain_reverse.2 hpath).suffix (List.dropWhile_suffix _)
    · exact hskip

theorem Followed.step (hvalid : Valid g s) (h : Followed g s) : Followed g (step g s) := by
  unfold CycleSearch.step
  split
  · exact h
  · next top below hs =>
    split
    · exact h.leave hvalid hs
    · next target hread => exact h.follow hvalid hs hread

/-- Of a cycle that the search finds, only the clause that closes it can be dropped. -/
theorem isChain_kept_of_mem_cycles (hg : g.Closed) {cycle : List SymbolId}
    (h : cycle ∈ (ofGraph g).cycles) :
    List.IsChain (g.drop (ofGraph g).closing).Leads cycle := by
  have hfollowed : Followed g (ofGraph g) := by
    refine ofGraph_induction hg ⟨by simp [start], .nil, by simp [start]⟩ ?_ fun s hvalid h =>
      h.step hvalid
    intro s root _ hs h hroot
    obtain ⟨hclosing, -, hcycles⟩ :=
      h.mono _ (fun _ => (read_enter hroot).2) fun _ hmem => .inl hmem
    refine ⟨hclosing, ?_, hcycles⟩
    rw [CycleSearch.enter, hs]
    exact .singleton _
  refine (hfollowed.cycles cycle h).imp fun a b hfollows => ?_
  obtain ⟨i, hi, hkept, -⟩ := hfollows
  exact UseGraph.leads_drop.2 ⟨i, hi, hkept⟩

end CycleSearch

namespace Flattening

variable {symbols : SymbolTable} {modules : ModuleGraph} {sources : SourceMap} {id : SymbolId}
  {owner : Symbol} {key : MemberKey}

/-- The trait has a member that it does not declare, and every clause that can bring it in is on a
cycle. -/
def OnlyOverCycles (symbols : SymbolTable) (f : Flattening) (id : SymbolId) (owner : Symbol)
    (key : MemberKey) : Prop :=
  (f.traitMember? id key).isSome ∧ ¬ owner.Declares key ∧
    ∀ target, symbols.useGraph.Leads id target → (f.traitMember? target key).isSome →
      symbols.useGraph.Reaches target id

/-- How cycles are cut, and what that leaves of the members of a trait. -/
structure CutsCycles (symbols : SymbolTable) (f : Flattening) : Prop where
  onCycle :
    ∀ clause ∈ (CycleSearch.ofGraph symbols.useGraph).closing, symbols.useGraph.OnCycle clause
  selfUse : ∀ id index, (symbols.useGraph.uses id)[index]? = some (some id) →
    ⟨id, index⟩ ∈ (CycleSearch.ofGraph symbols.useGraph).closing
  cut : ∀ cycle, symbols.useGraph.IsCycle cycle → ∃ a ∈ cycle, ∃ b ∈ cycle,
    symbols.useGraph.Leads a b ∧ ¬ symbols.keptGraph.Leads a b
  /-- Of a cycle that the search finds, each trait but the last still brings in the next. -/
  kept : ∀ cycle ∈ (CycleSearch.ofGraph symbols.useGraph).cycles,
    symbols.useGraph.IsCycle cycle ∧ List.IsChain symbols.keptGraph.Leads cycle
  members : ∀ id owner, symbols.get? id = some owner → owner.kind = .trait → ∀ key,
    (f.traitMember? id key).isSome ↔ owner.Declares key ∨
      ∃ used, symbols.keptGraph.Leads id used ∧ (f.traitMember? used key).isSome
  /-- No other cycle than that of a trait with itself brings in a member. -/
  selfUsesOnly : ∀ id owner, symbols.get? id = some owner → owner.kind = .trait →
    symbols.useGraph.SelfUsesOnly id → ∀ key, ¬ OnlyOverCycles symbols f id owner key
  /-- Where all cycles are of that sort, what is dropped does not depend on the search. -/
  closing : (∀ id, symbols.useGraph.SelfUsesOnly id) → ∀ clause,
    clause ∈ (CycleSearch.ofGraph symbols.useGraph).closing ↔
      (symbols.useGraph.uses clause.owner)[clause.index]? = some (some clause.owner)

theorem isSome_traitMember?_iff (howner : symbols.get? id = some owner)
    (htrait : owner.kind = .trait) :
    ((ofProgram symbols modules sources).traitMember? id key).isSome ↔ owner.Declares key ∨
      ∃ used, symbols.keptGraph.Leads id used ∧
        ((ofProgram symbols modules sources).traitMember? used key).isSome := by
  simp only [SymbolTable.leads_keptGraph howner]
  exact (traitRow howner htrait key).present

/-- A trait that is on no cycle with others has no member over its cycles alone. -/
theorem not_onlyOverCycles (howner : symbols.get? id = some owner) (htrait : owner.kind = .trait)
    (hself : symbols.useGraph.SelfUsesOnly id) :
    ¬ OnlyOverCycles symbols (ofProgram symbols modules sources) id owner key := by
  rintro ⟨hmember, hdeclares, hcyclic⟩
  obtain ⟨used, hkept, hused⟩ :=
    ((isSome_traitMember?_iff howner htrait).1 hmember).resolve_left hdeclares
  have hleads : symbols.useGraph.Leads id used := hkept.of_drop
  obtain rfl : used = id := hself used hleads (hcyclic used hleads hused)
  exact CycleSearch.not_leads_self symbols.closed_useGraph hkept

/-- Only clauses on cycles are dropped, each cycle loses one, and a trait never composes itself.
Only where a trait uses others that use it in turn may it keep members that come over cycles alone;
there the search does keep clauses on cycles. -/
theorem cutsCycles_ofProgram (symbols : SymbolTable) (modules : ModuleGraph) (sources : SourceMap) :
    CutsCycles symbols (ofProgram symbols modules sources) where
  onCycle _ h := CycleSearch.onCycle_of_mem_closing symbols.closed_useGraph h
  selfUse _ _ h := CycleSearch.mem_closing_of_self symbols.closed_useGraph h
  cut _ h := CycleSearch.exists_not_kept_of_isCycle symbols.closed_useGraph h
  kept cycle h := ⟨(CycleSearch.found_ofGraph symbols.closed_useGraph).cycles cycle h,
    CycleSearch.isChain_kept_of_mem_cycles symbols.closed_useGraph h⟩
  members _ _ howner htrait _ := isSome_traitMember?_iff howner htrait
  selfUsesOnly _ _ howner htrait hself _ := not_onlyOverCycles howner htrait hself
  closing hself clause := by
    refine ⟨fun h => ?_, fun h => CycleSearch.mem_closing_of_self symbols.closed_useGraph h⟩
    obtain ⟨target, hread, hback⟩ := CycleSearch.onCycle_of_mem_closing symbols.closed_useGraph h
    rwa [hself clause.owner target (List.mem_of_getElem? hread) hback] at hread

end Flattening

namespace Analysis

/-- Two traits that use each other, of which the second has a method. -/
def entangled : List SourceFile :=
  [⟨"a.php", "<?hh\ntrait A \x7b use B; \x7d\n"⟩,
    ⟨"b.php", "<?hh\ntrait B \x7b use A; function m(): void \x7b\x7d \x7d\n"⟩]

/-- The trait `A` keeps the method of `B`, which only its clause on the cycle brings in; if the
search enters the cycle at `B`, it does not. -/
theorem not_composed_apart_from_cycles :
    (¬ ∀ id ∈ (ofFiles .default entangled).flattening.cyclic, ∀ owner,
      (ofFiles .default entangled).symbols.get? id = some owner → ∀ key,
        ¬ Flattening.OnlyOverCycles (ofFiles .default entangled).symbols
          (ofFiles .default entangled).flattening id owner key) ∧
      ∀ id, (ofFiles .default entangled.reverse).symbols.find? "A" = some id →
        (ofFiles .default entangled.reverse).flattening.traitMember? id ⟨.method, "m"⟩ = none := by
  have hchecks : ⟨0⟩ ∈ (ofFiles .default entangled).flattening.cyclic ∧
      ((ofFiles .default entangled).flattening.traitMember? ⟨0⟩ ⟨.method, "m"⟩).isSome ∧
      (∀ owner ∈ (ofFiles .default entangled).symbols.get? ⟨0⟩, ¬ owner.Declares ⟨.method, "m"⟩) ∧
      (ofFiles .default entangled).symbols.useGraph.uses ⟨0⟩ = [some ⟨1⟩] ∧
      (ofFiles .default entangled).symbols.useGraph.uses ⟨1⟩ = [some ⟨0⟩] ∧
      ((ofFiles .default entangled).symbols.get? ⟨0⟩).isSome ∧
      (ofFiles .default entangled.reverse).symbols.find? "A" = some ⟨1⟩ ∧
      (ofFiles .default entangled.reverse).flattening.traitMember? ⟨1⟩ ⟨.method, "m"⟩ = none := by
    decide +kernel
  obtain ⟨hlisted, hmember, hdeclares, hfirst, hsecond, hknown, hfind, hmissing⟩ := hchecks
  obtain ⟨owner, howner⟩ := Option.isSome_iff_exists.1 hknown
  refine ⟨fun hall => hall ⟨0⟩ hlisted owner howner ⟨.method, "m"⟩
    ⟨hmember, hdeclares owner howner, fun target hleads _ => ?_⟩, fun id hid => ?_⟩
  · unfold UseGraph.Leads at hleads
    rw [hfirst] at hleads
    obtain rfl : target = ⟨1⟩ := Option.some.inj (List.mem_singleton.1 hleads)
    refine .single ?_
    unfold UseGraph.Leads
    rw [hsecond]
    exact List.mem_singleton_self _
  · rw [hfind] at hid
    exact Option.some.inj hid ▸ hmissing

end Analysis
end ModuleVisibility
