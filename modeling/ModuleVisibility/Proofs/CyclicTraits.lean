import ModuleVisibility.Analysis
import ModuleVisibility.Proofs.Layering

/-!
Which traits the search finds on a cycle. Each of them uses itself, and every cycle has two
neighbours among them. All traits that use themselves are found where no two cycles share a trait;
where cycles meet, one that is entered through a trait the search is done with may be missed.
-/
namespace ModuleVisibility

namespace UseGraph

variable {g : UseGraph} {cycle : List SymbolId} {a b id : SymbolId}

instance (g : UseGraph) (a b : SymbolId) : Decidable (g.Leads a b) :=
  inferInstanceAs (Decidable (some b ∈ g.uses a))

/-- Of the traits that a trait uses no more than one uses it in turn, so different cycles have no
trait in common. -/
def CyclesApart (g : UseGraph) : Prop :=
  ∀ a b b', g.Leads a b → g.Reaches b a → g.Leads a b' → g.Reaches b' a → b = b'

theorem cyclesApart_of_length_le (h : ∀ row ∈ g.table, row.2.length ≤ 1) : g.CyclesApart := by
  intro a b b' hleads _ hleads' _
  unfold Leads uses at hleads hleads'
  cases hrow : g.table.lookup a with
  | none =>
    rw [hrow] at hleads
    cases hleads
  | some row =>
    have hlength : row.length ≤ 1 := h (a, row) (mem_of_lookup_eq_some hrow)
    rw [hrow, Option.getD_some] at hleads hleads'
    match row with
    | [_] =>
      rw [List.mem_singleton] at hleads hleads'
      exact Option.some.inj (hleads.trans hleads'.symm)

theorem IsCycle.exists_next (h : g.IsCycle cycle) (ha : a ∈ cycle) : ∃ b ∈ cycle, g.Leads a b := by
  obtain ⟨before, after, hsplit⟩ := List.append_of_mem ha
  cases after with
  | nil =>
    obtain ⟨first, _, hfirst, _⟩ := h.exists_ends
    have hlast : a ∈ cycle.getLast? := by
      rw [hsplit]
      simp
    exact ⟨first, List.mem_of_mem_head? hfirst, h.closed a hlast first hfirst⟩
  | cons b rest =>
    have hchain : List.IsChain g.Leads (a :: b :: rest) :=
      (hsplit ▸ h.chain).suffix (List.suffix_append before _)
    have hb : b ∈ cycle := by
      rw [hsplit]
      simp
    exact ⟨b, hb, (List.isChain_cons_cons.1 hchain).1⟩

/-- Where cycles have no trait in common, a cycle holds whatever its traits use in a circle. -/
theorem IsCycle.mem_of_reaches (hapart : g.CyclesApart) (h : g.IsCycle cycle) (ha : a ∈ cycle)
    (hto : g.Reaches a b) (hback : g.Reaches b a) : b ∈ cycle := by
  induction hto using Relation.ReflTransGen.head_induction_on with
  | refl => exact ha
  | @head a c hleads hrest ih =>
    obtain ⟨next, hnext, hleads'⟩ := h.exists_next ha
    have hsame : c = next := hapart a c next hleads (hrest.trans hback) hleads'
      (h.uses hnext ha).to_reflTransGen
    exact ih (hsame ▸ hnext) (hback.tail hleads)

/-- A cycle all of whose clauses are in another graph is a cycle there. -/
theorem IsCycle.of_leads {kept : UseGraph} (h : g.IsCycle cycle)
    (hleads : ∀ a ∈ cycle, ∀ b ∈ cycle, g.Leads a b → kept.Leads a b) : kept.IsCycle cycle where
  nonempty := h.nonempty
  nodup := h.nodup
  chain := h.chain.imp_of_mem_imp fun a b ha hb => hleads a ha b hb
  closed last hlast first hfirst := hleads last (List.mem_of_mem_getLast? hlast) first
    (List.mem_of_mem_head? hfirst) (h.closed last hlast first hfirst)

/-- A cycle may be written from any of its traits on. -/
theorem IsCycle.append_comm {before after : List SymbolId} (h : g.IsCycle (before ++ after)) :
    g.IsCycle (after ++ before) := by
  by_cases hbefore : before = []
  · subst hbefore
    simpa using h
  by_cases hafter : after = []
  · subst hafter
    simpa using h
  obtain ⟨hchain, hchain', hjoin⟩ := List.isChain_append.1 h.chain
  refine ⟨by simp [hbefore], List.nodup_append_comm.1 h.nodup,
    List.isChain_append.2 ⟨hchain', hchain, fun last hlast first hfirst => ?_⟩,
    fun last hlast first hfirst => ?_⟩
  · refine h.closed last ?_ first ?_
    · rwa [List.getLast?_append_of_ne_nil _ hafter]
    · rwa [List.head?_append_of_ne_nil _ hbefore]
  · rw [List.getLast?_append_of_ne_nil _ hbefore] at hlast
    rw [List.head?_append_of_ne_nil _ hafter] at hfirst
    exact hjoin last hlast first hfirst

/-- Where cycles have no trait in common, those that have one are the same but for their start. -/
theorem IsCycle.perm {other : List SymbolId} (hapart : g.CyclesApart) (h : g.IsCycle cycle)
    (h' : g.IsCycle other) (ha : a ∈ cycle) (ha' : a ∈ other) : cycle.Perm other := by
  refine (List.perm_ext_iff_of_nodup h.nodup h'.nodup).2 fun b => ⟨fun hb => ?_, fun hb => ?_⟩
  · exact h'.mem_of_reaches hapart ha' (h.uses ha hb).to_reflTransGen
      (h.uses hb ha).to_reflTransGen
  · exact h.mem_of_reaches hapart ha (h'.uses ha' hb).to_reflTransGen
      (h'.uses hb ha').to_reflTransGen

/-- Chains among traits of which each uses one of them only are as long as they are equal. -/
theorem chain_eq_of_length_eq {ids first second : List SymbolId}
    (hunique : ∀ a ∈ ids, ∀ b ∈ ids, ∀ b' ∈ ids, g.Leads a b → g.Leads a b' → b = b')
    (hfirst : List.IsChain g.Leads (a :: first)) (hsecond : List.IsChain g.Leads (a :: second))
    (hin : ∀ b ∈ a :: first, b ∈ ids) (hin' : ∀ b ∈ a :: second, b ∈ ids)
    (hlength : first.length = second.length) : first = second := by
  induction first generalizing a second with
  | nil => exact (List.eq_nil_of_length_eq_zero hlength.symm).symm
  | cons b rest ih =>
    cases second with
    | nil => cases hlength
    | cons b' rest' =>
      obtain ⟨hleads, hrest⟩ := List.isChain_cons_cons.1 hfirst
      obtain ⟨hleads', hrest'⟩ := List.isChain_cons_cons.1 hsecond
      have hb : b = b' := hunique a (hin a (by simp)) b (hin b (by simp)) b' (hin' b' (by simp))
        hleads hleads'
      subst hb
      have htail : rest = rest' := ih hrest hrest' (fun c hc => hin c (List.mem_cons_of_mem _ hc))
        (fun c hc => hin' c (List.mem_cons_of_mem _ hc)) (Nat.succ.inj hlength)
      rw [htail]

theorem IsCycle.eq_of_head {rest rest' : List SymbolId} (hapart : g.CyclesApart)
    (h : g.IsCycle (a :: rest)) (h' : g.IsCycle (a :: rest')) : a :: rest = a :: rest' := by
  have hperm := h.perm hapart h' (a := a) (by simp) (by simp)
  have hunique : ∀ b ∈ a :: rest, ∀ c ∈ a :: rest, ∀ c' ∈ a :: rest, g.Leads b c → g.Leads b c' →
      c = c' := by
    intro b hb c hc c' hc' hleads hleads'
    exact hapart b c c' hleads (h.uses hc hb).to_reflTransGen hleads'
      (h.uses hc' hb).to_reflTransGen
  have hlength : rest.length = rest'.length := Nat.succ.inj hperm.length_eq
  rw [chain_eq_of_length_eq hunique h.chain h'.chain (fun _ hb => hb)
    (fun _ hb => hperm.mem_iff.2 hb) hlength]

end UseGraph

namespace CycleSearch

variable {g : UseGraph} {a b id : SymbolId}

theorem mem_cyclic {s : CycleSearch} :
    id ∈ s.cyclic g ↔ id ∈ g.traits ∧ ∃ cycle ∈ s.cycles, id ∈ cycle := by
  simp [cyclic]

/-- The two traits stand at the end and at the start of a cycle that the search found. -/
theorem exists_cycle_of_not_kept (hg : g.Closed) (hleads : g.Leads a b)
    (hnot : ¬ (g.drop (ofGraph g).closing).Leads a b) :
    ∃ cycle ∈ (ofGraph g).cycles, g.IsCycle cycle ∧ a ∈ cycle ∧ b ∈ cycle := by
  have hfound := found_ofGraph hg
  obtain ⟨i, hi⟩ := List.mem_iff_getElem?.1 hleads
  have hclosing : (⟨a, i⟩ : ClauseRef) ∈ (ofGraph g).closing := by
    by_contra hkept
    exact hnot (UseGraph.leads_drop.2 ⟨i, hi, hkept⟩)
  obtain ⟨cycle, hcycle, target, hread, hfirst, hlast⟩ := hfound.closing _ hclosing
  have htarget : target = b := by simpa [hi, eq_comm] using hread
  exact ⟨cycle, hcycle, hfound.cycles cycle hcycle, List.mem_of_mem_getLast? hlast,
    htarget ▸ List.mem_of_mem_head? hfirst⟩

theorem acyclic_drop_closing (hg : g.Closed) : (g.drop (ofGraph g).closing).Acyclic :=
  fun id => UseGraph.not_usesItself_of_ends (ends_drop_closing hg id)

/-- The search decides whether there are cycles. -/
theorem closing_eq_nil_iff (hg : g.Closed) : (ofGraph g).closing = [] ↔ g.Acyclic := by
  refine ⟨fun hnil id hself => ?_, closing_eq_nil hg⟩
  have hsame : ∀ a b, g.Leads a b → (g.drop (ofGraph g).closing).Leads a b := by
    intro a b hleads
    obtain ⟨i, hi⟩ := List.mem_iff_getElem?.1 hleads
    exact UseGraph.leads_drop.2 ⟨i, hi, by simp [hnil]⟩
  exact acyclic_drop_closing hg id (Relation.TransGen.mono hsame id id hself)

/-- Every cycle has two neighbours of which the first does not use the second any more. -/
theorem exists_not_kept_of_isCycle (hg : g.Closed) {cycle : List SymbolId} (h : g.IsCycle cycle) :
    ∃ a ∈ cycle, ∃ b ∈ cycle, g.Leads a b ∧ ¬ (g.drop (ofGraph g).closing).Leads a b := by
  by_contra hall
  have hkept : (g.drop (ofGraph g).closing).IsCycle cycle := by
    refine h.of_leads fun a ha b hb hleads => ?_
    by_contra hnot
    exact hall ⟨a, ha, b, hb, hleads, hnot⟩
  obtain ⟨first, _, hfirst, _⟩ := h.exists_ends
  exact acyclic_drop_closing hg first (hkept.usesItself (List.mem_of_mem_head? hfirst))

/-- Every cycle shares two neighbours with one that the search found. -/
theorem exists_found_of_isCycle (hg : g.Closed) {cycle : List SymbolId} (h : g.IsCycle cycle) :
    ∃ found ∈ (ofGraph g).cycles, g.IsCycle found ∧
      ∃ a ∈ cycle, ∃ b ∈ cycle, g.Leads a b ∧ a ∈ found ∧ b ∈ found := by
  obtain ⟨a, ha, b, hb, hleads, hnot⟩ := exists_not_kept_of_isCycle hg h
  obtain ⟨found, hfound, hcycle, ha', hb'⟩ := exists_cycle_of_not_kept hg hleads hnot
  exact ⟨found, hfound, hcycle, a, ha, b, hb, hleads, ha', hb'⟩

/-- A trait that uses itself uses one on a cycle that the search found, and is used by it. -/
theorem exists_found_of_usesItself (hg : g.Closed) (h : g.UsesItself id) :
    ∃ found ∈ (ofGraph g).cycles, g.IsCycle found ∧
      ∃ a ∈ found, g.Reaches id a ∧ g.Reaches a id := by
  rcases UseGraph.walk_kept_or (g.drop (ofGraph g).closing) h with
    hkept | ⟨user, used, hto, hleads, hnot, hfrom⟩
  · exact absurd hkept (acyclic_drop_closing hg id)
  · obtain ⟨found, hfound, hcycle, huser, _⟩ := exists_cycle_of_not_kept hg hleads hnot
    exact ⟨found, hfound, hcycle, user, huser, hto, hfrom.head hleads⟩

theorem usesItself_of_mem_cyclic (hg : g.Closed) (h : id ∈ (ofGraph g).cyclic g) :
    g.UsesItself id := by
  obtain ⟨_, cycle, hcycle, hid⟩ := mem_cyclic.1 h
  exact ((found_ofGraph hg).cycles cycle hcycle).usesItself hid

/-- Where cycles have no trait in common, the traits found are all that use themselves. -/
theorem mem_cyclic_iff_of_apart (hg : g.Closed) (hapart : g.CyclesApart) :
    id ∈ (ofGraph g).cyclic g ↔ g.UsesItself id := by
  refine ⟨usesItself_of_mem_cyclic hg, fun hself => ?_⟩
  obtain ⟨found, hfound, hcycle, a, ha, hto, hback⟩ := exists_found_of_usesItself hg hself
  obtain ⟨before, hleads, _⟩ := Relation.TransGen.head'_iff.1 hself
  have htrait : id ∈ g.traits := by
    obtain ⟨last, _, hlast⟩ := Relation.TransGen.tail'_iff.1 hself
    exact hg last id hlast
  exact mem_cyclic.2 ⟨htrait, found, hfound, hcycle.mem_of_reaches hapart ha hback hto⟩

end CycleSearch

instance (t : SymbolTable) : Decidable t.useGraph.Acyclic :=
  decidable_of_iff _ (CycleSearch.closing_eq_nil_iff t.closed_useGraph)

namespace Flattening

/-- How the traits that are listed as cyclic relate to the cycles of the use graph. -/
structure ListsCyclic (symbols : SymbolTable) (cyclic : List SymbolId) : Prop where
  order : cyclic.Sublist (symbols.ofKind .trait)
  sound : ∀ id ∈ cyclic, symbols.useGraph.UsesItself id
  /-- No cycle is missed altogether. -/
  neighbours : ∀ cycle, symbols.useGraph.IsCycle cycle →
    ∃ a ∈ cycle, ∃ b ∈ cycle, symbols.useGraph.Leads a b ∧ a ∈ cyclic ∧ b ∈ cyclic
  complete : symbols.useGraph.CyclesApart → ∀ id, symbols.useGraph.UsesItself id → id ∈ cyclic

theorem listsCyclic_ofProgram (symbols : SymbolTable) (modules : ModuleGraph)
    (sources : SourceMap) :
    ListsCyclic symbols (ofProgram symbols modules sources).cyclic where
  order := List.filter_sublist
  sound _ hid := CycleSearch.usesItself_of_mem_cyclic symbols.closed_useGraph hid
  neighbours cycle hcycle := by
    obtain ⟨found, hfound, _, a, ha, b, hb, hleads, ha', hb'⟩ :=
      CycleSearch.exists_found_of_isCycle symbols.closed_useGraph hcycle
    have hlisted : ∀ id, symbols.useGraph.UsesItself id → id ∈ found →
        id ∈ (ofProgram symbols modules sources).cyclic := by
      intro id hself hid
      obtain ⟨last, _, hlast⟩ := Relation.TransGen.tail'_iff.1 hself
      exact CycleSearch.mem_cyclic.2 ⟨symbols.closed_useGraph last id hlast, found, hfound, hid⟩
    exact ⟨a, ha, b, hb, hleads, hlisted a (hcycle.usesItself ha) ha',
      hlisted b (hcycle.usesItself hb) hb'⟩
  complete hapart _ hself :=
    (CycleSearch.mem_cyclic_iff_of_apart symbols.closed_useGraph hapart).2 hself

end Flattening

namespace Analysis

/-- Traits `A`, `B` and `C` such that the clause of `B` closes one cycle from `A` over `B`, and is
part of another one from `A` over `C` and `B`. -/
def crossing : List SourceFile :=
  [⟨"a.php", "<?hh\ntrait A \x7b use B; use C; \x7d\n"⟩,
    ⟨"b.php", "<?hh\ntrait B \x7b use A; \x7d\n"⟩,
    ⟨"c.php", "<?hh\ntrait C \x7b use B; \x7d\n"⟩]

/-- The trait `C` uses itself over `B` and `A`, and it is not listed. -/
theorem not_cyclic_iff_usesItself_crossing :
    ¬ ∀ id, id ∈ (ofFiles .default crossing).flattening.cyclic ↔
      (ofFiles .default crossing).symbols.useGraph.UsesItself id := by
  intro hall
  have hchecks : ⟨2⟩ ∉ (ofFiles .default crossing).flattening.cyclic ∧
      (ofFiles .default crossing).symbols.useGraph.Leads ⟨2⟩ ⟨1⟩ ∧
      (ofFiles .default crossing).symbols.useGraph.Leads ⟨1⟩ ⟨0⟩ ∧
      (ofFiles .default crossing).symbols.useGraph.Leads ⟨0⟩ ⟨2⟩ := by decide +kernel
  obtain ⟨hmissing, hfirst, hsecond, hback⟩ := hchecks
  have hself : (ofFiles .default crossing).symbols.useGraph.UsesItself ⟨2⟩ :=
    ((Relation.TransGen.single hfirst).tail hsecond).tail hback
  exact hmissing ((hall ⟨2⟩).2 hself)

end Analysis
end ModuleVisibility
