import ModuleVisibility.Proofs.Collision
import ModuleVisibility.Proofs.PermutedClauses
import ModuleVisibility.Proofs.RewiredAnalysis

/-!
Independent use clauses commute. Where the tables of two traits share no key, a clause that brings
in one of them replaces nothing of the other and does not hide what the other replaces; so two such
clauses in turn may be exchanged, and what they replace is reported in another order.
-/
namespace ModuleVisibility

/-- Tables in order are the same if lookups find the same. -/
theorem MemberTable.Sorted.ext {α : Type} {t t' : MemberTable α} (h : t.Sorted) (h' : t'.Sorted)
    (hget : ∀ key, t'.get? key = t.get? key) : t' = t := by
  have hmem : ∀ e, e ∈ t'.entries ↔ e ∈ t.entries := by
    rintro ⟨key, a⟩
    rw [mem_entries_iff h, mem_entries_iff h', hget]
  have hperm : t'.entries.Perm t.entries :=
    (List.perm_ext_iff_of_nodup (List.Nodup.of_map _ h'.nodup_keys)
      (List.Nodup.of_map _ h.nodup_keys)).2 hmem
  have hentries : t'.entries = t.entries :=
    hperm.eq_of_pairwise (fun a b _ _ hab hba => absurd (MemberKey.lt_trans hab hba)
      (MemberKey.not_lt_self a.1)) h' h
  exact congrArg MemberTable.mk hentries

namespace Composition

/-- The same members, and the same collisions in another order. -/
structure Rearranged (c c' : Composition) : Prop where
  members : c'.members = c.members
  collisions : c'.collisions.Perm c.collisions

theorem Rearranged.refl (c : Composition) : c.Rearranged c := ⟨rfl, .refl _⟩

end Composition

namespace FlattenContext

variable {x : FlattenContext} {owner : Symbol} {through : Origin → Origin} {done : TraitTables}
  {c c' : Composition} {first second : UseClause} {a b : Option SymbolId}

/-- What a clause brings in does not depend on what was replaced before. -/
theorem rearranged_composeClause (hdone : TablesSorted done) (hc : c.members.Sorted)
    (h : c.Rearranged c') (clause : UseClause) (target : Option SymbolId) :
    (x.composeClause owner through done c clause target).Rearranged
      (x.composeClause owner through done c' clause target) where
  members := by
    have hc' : c'.members.Sorted := h.members ▸ hc
    refine (sorted_composeClause hc clause target).ext (sorted_composeClause hc' clause target)
      fun key => ?_
    rw [get?_composeClause hdone, get?_composeClause hdone, h.members]
  collisions := by
    rw [collisions_composeClause hdone, collisions_composeClause hdone, h.members]
    exact h.collisions.append_right _

/-- A clause meets what it met before the table of another trait came in. -/
theorem clauseCollisions_of_disjoint (hdone : TablesSorted done)
    (hdisjoint : ∀ key, b.bind (x.incoming? through done key) = none ∨
      a.bind (x.incoming? through done key) = none) :
    x.clauseCollisions owner through done
        (x.composeClause owner through done c first a).members second b =
      x.clauseCollisions owner through done c.members second b := by
  unfold clauseCollisions
  cases b with
  | none => rfl
  | some id =>
    cases htable : done.lookup id with
    | none => simp only [htable]
    | some table =>
      simp only [htable]
      refine List.filterMap_congr fun ⟨key, m⟩ he => ?_
      have hm := (MemberTable.mem_entries_iff (hdone id table htable)).1 he
      have hbrings : (some id).bind (x.incoming? through done key) ≠ none := by
        simp [incoming?, htable, hm]
      rw [get?_composeClause hdone, (hdisjoint key).resolve_left hbrings]

/-- Two clauses whose traits share no key may be exchanged. -/
theorem rearranged_exchange (hdone : TablesSorted done) (hc : c.members.Sorted)
    (hdisjoint : ∀ key, a.bind (x.incoming? through done key) = none ∨
      b.bind (x.incoming? through done key) = none) :
    (x.composeClause owner through done (x.composeClause owner through done c first a)
      second b).Rearranged
      (x.composeClause owner through done (x.composeClause owner through done c second b) first a)
        where
  members := by
    refine (sorted_composeClause (sorted_composeClause hc _ _) _ _).ext
      (sorted_composeClause (sorted_composeClause hc _ _) _ _) fun key => ?_
    simp only [get?_composeClause hdone]
    rcases hdisjoint key with hnone | hnone <;> rw [hnone]
  collisions := by
    rw [collisions_composeClause hdone, collisions_composeClause hdone,
      collisions_composeClause hdone, collisions_composeClause hdone,
      clauseCollisions_of_disjoint hdone hdisjoint,
      clauseCollisions_of_disjoint hdone fun key => (hdisjoint key).symm, List.append_assoc,
      List.append_assoc]
    exact List.perm_append_comm.append_left _

/-! A fold over clauses, `target` telling what each of them brings in. -/

variable {target : UseClause → Option SymbolId}

theorem sorted_foldl_composeClause (hc : c.members.Sorted) (clauses : List UseClause) :
    (clauses.foldl (fun c clause => x.composeClause owner through done c clause (target clause))
      c).members.Sorted :=
  List.foldlRecOn (motive := fun c : Composition => c.members.Sorted) clauses _ hc
    fun _ hc _ _ => sorted_composeClause hc _ _

theorem rearranged_foldl_composeClause (hdone : TablesSorted done) (hc : c.members.Sorted)
    (h : c.Rearranged c') (clauses : List UseClause) :
    (clauses.foldl (fun c clause => x.composeClause owner through done c clause (target clause))
      c).Rearranged
      (clauses.foldl (fun c clause => x.composeClause owner through done c clause (target clause))
        c') := by
  induction clauses generalizing c c' with
  | nil => exact h
  | cons clause rest ih =>
    exact ih (sorted_composeClause hc _ _) (rearranged_composeClause hdone hc h clause _)

/-- The exchange may happen anywhere among the clauses. -/
theorem rearranged_foldl_exchange (hdone : TablesSorted done)
    (hdisjoint : ∀ key, (target first).bind (x.incoming? through done key) = none ∨
      (target second).bind (x.incoming? through done key) = none) (front back : List UseClause) :
    ((front ++ first :: second :: back).foldl
      (fun c clause => x.composeClause owner through done c clause (target clause))
        .empty).Rearranged
      ((front ++ second :: first :: back).foldl
        (fun c clause => x.composeClause owner through done c clause (target clause)) .empty) := by
  have hfront : (front.foldl (fun c clause => x.composeClause owner through done c clause
      (target clause)) .empty).members.Sorted :=
    sorted_foldl_composeClause MemberTable.sorted_empty front
  simp only [List.foldl_append, List.foldl_cons]
  exact rearranged_foldl_composeClause hdone
    (sorted_composeClause (sorted_composeClause hfront _ _) _ _)
    (rearranged_exchange hdone hfront hdisjoint) back

end FlattenContext

namespace Flattening

variable {t : SymbolTable} {id : SymbolId} {owner : Symbol} {index : Nat} {first second : UseClause}
  (modules : ModuleGraph) (sources : SourceMap) (hacyclic : t.useGraph.Acyclic)
  (howner : t.get? id = some owner) (hfirst : owner.uses[index]? = some first)
  (hsecond : owner.uses[index + 1]? = some second)
  (hdisjoint : ∀ a b key, t.useTarget? first = some a → t.useTarget? second = some b →
    (ofProgram t modules sources).traitMember? a key = none ∨
      (ofProgram t modules sources).traitMember? b key = none)
include hacyclic howner hfirst hsecond hdisjoint

/-- Whatever is composed, the exchange of two clauses only rearranges what they replace. -/
theorem rearranged_composeUses {other : SymbolId} {o o' : Symbol} (ho : t.get? other = some o)
    (ho' : (t.rewire id (swapAt index (index + 1))).get? other = some o')
      (through : Origin → Origin) :
    ((context t modules sources).composeUses other o through
      (ofProgram t modules sources).traits).Rearranged
      ((context (t.rewire id (swapAt index (index + 1))) modules sources).composeUses
        other o' through
        (ofProgram t modules sources).traits) := by
  have hperm : ∀ uses : List UseClause, (swapAt index (index + 1) uses).Perm uses :=
    perm_swapAt index (index + 1)
  by_cases hid : other = id
  · subst hid
    cases ho.symm.trans howner
    obtain ⟨_, hget, hbare⟩ := SymbolTable.exists_get?_of_bare_eq
      (t.bare_rewire (f := swapAt index (index + 1)) other) howner
    cases hget.symm.trans ho'
    obtain ⟨front, middle, back, -, hmiddle, huses, hswapped⟩ :=
      exists_swapAt hfirst hsecond (Nat.lt_succ_self index)
    obtain rfl : middle = [] := List.length_eq_zero_iff.1 (by omega)
    have huses' := SymbolTable.uses_of_get?_rewire (hperm []).eq_nil howner ho'
    rw [if_pos rfl, hswapped] at huses'
    have htarget := SymbolTable.useTarget?_of_bare_eq
      (t.bare_rewire (f := swapAt index (index + 1)) other)
    rw [composeUses_of_acyclic modules sources hacyclic howner,
      composeUses_of_acyclic modules sources (SymbolTable.acyclic_rewire hperm hacyclic) ho', huses,
      huses', htarget]
    simp only [(sameBare_rewire modules sources hperm hacyclic).composeClause hbare]
    refine FlattenContext.rearranged_foldl_exchange sorted_traits (fun key => ?_) front back
    have hincoming : ∀ target, target.bind ((context t modules sources).incoming? through
        (ofProgram t modules sources).traits key) = none ↔
        ∀ a, target = some a → (ofProgram t modules sources).traitMember? a key = none := by
      intro target
      rw [Option.bind_eq_none_iff]
      exact forall₂_congr fun a _ => Option.map_eq_none_iff
    rw [hincoming, hincoming]
    by_contra hboth
    simp only [not_or, not_forall] at hboth
    obtain ⟨⟨a, ha, hfirst⟩, b, hb, hsecond⟩ := hboth
    exact (hdisjoint a b key ha hb).elim hfirst hsecond
  · rw [composeUses_rewire_of_ne modules sources hperm hacyclic hid ho ho']
    exact .refl _

theorem rewired_exchange : (context t modules sources).Rewired
    (context (t.rewire id (swapAt index (index + 1))) modules sources) where
  toSameBare := sameBare_rewire modules sources (perm_swapAt _ _) hacyclic
  levels := levels_rewire modules sources (perm_swapAt _ _) hacyclic
  members _ _ _ ho ho' _ through :=
    (rearranged_composeUses modules sources hacyclic howner hfirst hsecond hdisjoint ho ho'
      through).members

theorem sameTables_exchange : (ofProgram t modules sources).SameTables
    (ofProgram (t.rewire id (swapAt index (index + 1))) modules sources) where
  traits := traits_of_rewired
    (rewired_exchange modules sources hacyclic howner hfirst hsecond hdisjoint)
  classes := classes_of_rewired
    (rewired_exchange modules sources hacyclic howner hfirst hsecond hdisjoint)
    fun _ _ _ ho ho' _ through => (rearranged_composeUses modules sources hacyclic howner hfirst
      hsecond hdisjoint ho ho' through).members
  cyclic := (sameBare_rewire modules sources (perm_swapAt _ _) hacyclic).cyclic

/-- What is replaced is reported in another order, and so is what is wrong with the clauses. -/
theorem perm_diagnostics_exchange :
    (ofProgram (t.rewire id (swapAt index (index + 1))) modules sources).diagnostics.Perm
      (ofProgram t modules sources).diagnostics := by
  have hperm : ∀ uses : List UseClause, (swapAt index (index + 1) uses).Perm uses :=
    perm_swapAt index (index + 1)
  have hcollisions := (rewired_exchange modules sources hacyclic howner hfirst hsecond
    hdisjoint).rel_collisionReports (R := List.Perm) (wellFormed_context ..) (wellFormed_context ..)
    (.refl _) List.Perm.append fun _ _ _ ho ho' through =>
      (rearranged_composeUses modules sources hacyclic howner hfirst hsecond hdisjoint ho ho'
        through).collisions.map _
  rw [diagnostics_ofProgram, diagnostics_ofProgram, CycleSearch.cycles_eq_nil
    (SymbolTable.closed_useGraph _) (SymbolTable.acyclic_rewire hperm hacyclic),
    CycleSearch.cycles_eq_nil t.closed_useGraph hacyclic]
  exact ((SymbolTable.perm_useDiagnostics_rewire hperm t id sources).append (.refl _)).append
    hcollisions

end Flattening

namespace Analysis

variable {units : List ParsedUnit} {site : DeclarationSite} {id : SymbolId} {owner : Symbol}
  {index : Nat} {first second : UseClause}

/-- Two clauses in turn whose traits share no member may be exchanged: every table stays as it is,
and so does what is denied; the other reports may come in another order. -/
theorem exchange_of_disjoint (policy : Policy) (units : List ParsedUnit)
    (hacyclic : (collected units).symbols.useGraph.Acyclic)
    (hsite : owner? site units = some id)
    (howner : (collected units).symbols.get? id = some owner)
    (hfirst : owner.uses[index]? = some first) (hsecond : owner.uses[index + 1]? = some second)
    (hdisjoint : ∀ a b key, (collected units).symbols.useTarget? first = some a →
      (collected units).symbols.useTarget? second = some b →
      (ofUnits policy units).flattening.traitMember? a key = none ∨
        (ofUnits policy units).flattening.traitMember? b key = none) :
    (ofUnits policy units).Rewired id (swapAt index (index + 1))
        (ofUnits policy (site.rewire (swapAt index (index + 1)) units)) ∧
      (ofUnits policy (site.rewire (swapAt index (index + 1)) units)).diagnostics.Perm
        (ofUnits policy units).diagnostics ∧
      (ofUnits policy (site.rewire (swapAt index (index + 1)) units)).diagnostics.filter
          (·.kind = .internalAccessViolation) =
        (ofUnits policy units).diagnostics.filter (·.kind = .internalAccessViolation) := by
  have htables : (flattened units (collected units).symbols).SameTables
      (flattened units ((collected units).symbols.rewire id (swapAt index (index + 1)))) :=
    Flattening.sameTables_exchange _ _ hacyclic howner hfirst hsecond hdisjoint
  refine ⟨rewired_ofUnits hsite htables policy, ?_, ?_⟩
  · obtain ⟨before, after, hfound, hfound'⟩ := exists_found_rewire hsite htables
    have hdiagnostics : (flattened units ((collected units).symbols.rewire id
        (swapAt index (index + 1)))).diagnostics.Perm
        (flattened units (collected units).symbols).diagnostics :=
      Flattening.perm_diagnostics_exchange _ _ hacyclic howner hfirst hsecond hdisjoint
    refine (perm_diagnostics policy _).trans
      (List.Perm.trans ?_ (perm_diagnostics policy units).symm)
    rw [hfound, hfound']
    exact (((hdiagnostics.append_left before).append_right after).filter _).map _
  · rw [filter_kind_diagnostics, filter_kind_diagnostics, filter_found, filter_found, texts_rewire,
      (rewired_checked hsite htables).violations]

/-- A trait that replaces two members, by one clause each. -/
def replacing : List SourceFile :=
  [⟨"a.php", "<?hh\ntrait A \x7b function a(): void \x7b\x7d function b(): void \x7b\x7d \x7d\n"
    ++ "trait B \x7b function a(): void \x7b\x7d \x7d\n"
    ++ "trait C \x7b function b(): void \x7b\x7d \x7d\n"
    ++ "trait T \x7b use A, B, C; \x7d\nclass D \x7b use T; \x7d\n"⟩]

/-- With these clauses exchanged it has the same members, and both replacements are reported. -/
theorem exchange_replacing :
    ∃ owner first second, (collected (parseProgram replacing)).symbols.useGraph.Acyclic ∧
      owner? ⟨0, 3⟩ (parseProgram replacing) = some ⟨3⟩ ∧
      (collected (parseProgram replacing)).symbols.get? ⟨3⟩ = some owner ∧
      owner.uses[1]? = some first ∧ owner.uses[2]? = some second ∧
      (∀ a b key, (collected (parseProgram replacing)).symbols.useTarget? first = some a →
        (collected (parseProgram replacing)).symbols.useTarget? second = some b →
        (ofFiles .default replacing).flattening.traitMember? a key = none ∨
          (ofFiles .default replacing).flattening.traitMember? b key = none) ∧
      (found (parseProgram replacing)).length = 2 ∧
      Rewired ⟨3⟩ (swapAt 1 2) (ofFiles .default replacing)
        (ofUnits .default (DeclarationSite.rewire ⟨0, 3⟩ (swapAt 1 2)
          (parseProgram replacing))) := by
  let t := (collected (parseProgram replacing)).symbols
  have hchecks : t.useGraph.Acyclic ∧ owner? ⟨0, 3⟩ (parseProgram replacing) = some ⟨3⟩ ∧
      ((t.get? ⟨3⟩).any fun owner =>
        owner.uses[1]?.any fun first => owner.uses[2]?.any fun second =>
          t.useTarget? first = some ⟨1⟩ && t.useTarget? second = some ⟨2⟩) = true ∧
      (((ofFiles .default replacing).flattening.traitMembers? ⟨1⟩).all fun table =>
        table.entries.all fun e =>
          ((ofFiles .default replacing).flattening.traitMember? ⟨2⟩ e.1).isNone) = true ∧
      (found (parseProgram replacing)).length = 2 := by
    decide +kernel
  obtain ⟨hacyclic, hsite, hclauses, hkeys, hreported⟩ := hchecks
  obtain ⟨owner, howner, hclauses⟩ := (Option.any_eq_true _ _).1 hclauses
  obtain ⟨first, hfirst, hclauses⟩ := (Option.any_eq_true _ _).1 hclauses
  obtain ⟨second, hsecond, htargets⟩ := (Option.any_eq_true _ _).1 hclauses
  have hdisjoint : ∀ a b key, t.useTarget? first = some a → t.useTarget? second = some b →
      (ofFiles .default replacing).flattening.traitMember? a key = none ∨
        (ofFiles .default replacing).flattening.traitMember? b key = none := by
    intro a b key ha hb
    obtain ⟨rfl, rfl⟩ : a = ⟨1⟩ ∧ b = ⟨2⟩ := by simpa [ha, hb] using htargets
    refine or_iff_not_imp_left.2 fun hsome => ?_
    obtain ⟨m, hm⟩ := Option.ne_none_iff_exists'.1 hsome
    obtain ⟨table, htable, hm⟩ := Option.bind_eq_some_iff.1 hm
    have hmem := (MemberTable.mem_entries_iff (Flattening.sorted_traits ⟨1⟩ table htable)).2 hm
    rw [htable] at hkeys
    simpa using List.all_eq_true.1 hkeys _ hmem
  have hexchanged := exchange_of_disjoint .default (parseProgram replacing) hacyclic hsite howner
    hfirst hsecond hdisjoint
  exact ⟨owner, first, second, hacyclic, hsite, howner, hfirst, hsecond, hdisjoint, hreported,
    hexchanged.1⟩

end Analysis
end ModuleVisibility
