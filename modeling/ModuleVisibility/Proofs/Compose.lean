import ModuleVisibility.Composition.Flattening
import ModuleVisibility.Proofs.MemberTable
import ModuleVisibility.Proofs.UseGraph

/-!
What composing clauses leaves in a table. Under one key the clauses that provide it are met in
order and each member met wins over the one before, unless both are the same member: then the
older entry stays, which differs at most in how it came.
-/
namespace ModuleVisibility
namespace Composition

variable {owner : Symbol} {through : Origin → Origin} {clause : UseClause} {c : Composition}

/-- The entry that a key has after `incoming` was met. -/
def winner (existing : Option FlatMember) (incoming : FlatMember) : FlatMember :=
  match existing with
  | none => incoming
  | some existing => if isSameMember existing incoming then existing else incoming

/-- The entry that a key has after some members were met in order. -/
def winnerOf (incoming : List FlatMember) : Option FlatMember :=
  incoming.foldl (fun existing m => some (winner existing m)) none

theorem get?_add (owner : Symbol) (clause : UseClause) (c : Composition) (key : MemberKey)
    (incoming : FlatMember) (other : MemberKey) :
    (c.add owner clause key incoming).members.get? other =
      if other = key then some (winner (c.members.get? key) incoming)
      else c.members.get? other := by
  unfold add winner
  by_cases h : other = key
  · subst h
    cases hget : c.members.get? other with
    | none => simp
    | some existing =>
      simp only [if_true]
      split
      · exact hget
      · simp
  · rw [if_neg h]
    split
    · exact MemberTable.get?_insert_of_ne _ _ h
    · split
      · rfl
      · exact MemberTable.get?_insert_of_ne _ _ h

theorem sorted_add (h : c.members.Sorted) (key : MemberKey) (incoming : FlatMember) :
    (c.add owner clause key incoming).members.Sorted := by
  unfold add
  split
  · exact MemberTable.sorted_insert h _ _
  · split
    · exact h
    · exact MemberTable.sorted_insert h _ _

theorem sorted_addTable (h : c.members.Sorted) (target : SymbolId) (isUnresolved : Bool)
    (table : MemberTable FlatMember) :
    (c.addTable owner through clause target isUnresolved table).members.Sorted :=
  List.foldlRecOn (motive := fun c : Composition => c.members.Sorted) table.entries _ h
    fun _ hc _ _ => sorted_add hc _ _

theorem get?_addTable {table : MemberTable FlatMember} (htable : table.Sorted) (c : Composition)
    (target : SymbolId) (isUnresolved : Bool) (key : MemberKey) :
    (c.addTable owner through clause target isUnresolved table).members.get? key =
      match table.get? key with
      | none => c.members.get? key
      | some m => some (winner (c.members.get? key) (bring through target isUnresolved m)) := by
  have hkeys := htable.nodup_keys
  unfold addTable MemberTable.get?
  generalize table.entries = entries at hkeys
  induction entries generalizing c with
  | nil => rfl
  | cons head rest ih =>
    obtain ⟨other, m⟩ := head
    obtain ⟨hfresh, hrest⟩ := List.nodup_cons.1 hkeys
    rw [List.foldl_cons, ih _ hrest, List.lookup_cons]
    by_cases h : key = other
    · subst h
      have habsent : rest.lookup key = none := by
        rw [List.lookup_eq_none_iff]
        intro p hp
        simp only [bne_iff_ne]
        exact fun heq => hfresh (List.mem_map.2 ⟨p, hp, heq.symm⟩)
      have hadd := get?_add owner clause c key
        (bring through target isUnresolved m) key
      simp only [MemberTable.get?] at hadd
      simp [habsent, hadd]
    · have hadd := get?_add owner clause c other
        (bring through target isUnresolved m) key
      simp only [MemberTable.get?, if_neg h] at hadd
      simp [beq_eq_false_iff_ne.2 h, hadd]

theorem winner_mem (existing : Option FlatMember) (incoming : FlatMember) :
    winner existing incoming = incoming ∨ existing = some (winner existing incoming) := by
  unfold winner
  split
  · exact .inl rfl
  · split
    · exact .inr rfl
    · exact .inl rfl

theorem foldl_winner_mem {incoming : List FlatMember} {existing : Option FlatMember}
    {m : FlatMember}
    (h : incoming.foldl (fun existing m => some (winner existing m)) existing = some m) :
    m ∈ incoming ∨ existing = some m := by
  induction incoming generalizing existing with
  | nil => exact .inr h
  | cons head rest ih =>
    rcases ih h with hrest | hhead
    · exact .inl (List.mem_cons_of_mem _ hrest)
    · have hm : winner existing head = m := Option.some.inj hhead
      rcases winner_mem existing head with hwin | hold
      · exact .inl (hm.symm.trans hwin ▸ List.mem_cons_self)
      · exact .inr (hold.trans (congrArg some hm))

/-- The winner is one of the members met. -/
theorem mem_of_winnerOf {incoming : List FlatMember} {m : FlatMember}
    (h : winnerOf incoming = some m) : m ∈ incoming :=
  (foldl_winner_mem h).resolve_right (by simp)

/-! The last member met decides about everything but the way it came. -/

/-- Whether two entries agree in all but the way they came. -/
structure SameMember (a b : FlatMember) : Prop where
  source : a.source = b.source
  index : a.index = b.index
  visibility : a.visibility = b.visibility
  origin : a.origin = b.origin

/-- The visibility of each member is that of its declaration, so that members of one source and
index agree in it. -/
def Coherent (members : List FlatMember) : Prop :=
  ∀ a ∈ members, ∀ b ∈ members, a.source = b.source → a.index = b.index →
    a.visibility = b.visibility

theorem winner_same {existing : Option FlatMember} {incoming : FlatMember}
    (h : ∀ m, existing = some m → m.source = incoming.source → m.index = incoming.index →
      m.visibility = incoming.visibility) : SameMember (winner existing incoming) incoming := by
  unfold winner
  split
  · exact ⟨rfl, rfl, rfl, rfl⟩
  · next existing =>
    split
    · next hsame =>
      simp only [isSameMember, Bool.and_eq_true, beq_iff_eq] at hsame
      obtain ⟨⟨hsource, hindex⟩, horigin⟩ := hsame
      exact ⟨hsource, hindex, h existing rfl hsource hindex, horigin⟩
    · exact ⟨rfl, rfl, rfl, rfl⟩

/-- The winner agrees with the member met last. -/
theorem winnerOf_append {incoming : List FlatMember} {last : FlatMember}
    (h : Coherent (incoming ++ [last])) :
    ∃ m, winnerOf (incoming ++ [last]) = some m ∧ SameMember m last := by
  refine ⟨winner (winnerOf incoming) last, by simp [winnerOf], winner_same fun m hm => ?_⟩
  have hmem : m ∈ incoming ++ [last] := List.mem_append_left _ (mem_of_winnerOf hm)
  exact h m hmem last (by simp)

theorem winnerOf_eq_none_iff {incoming : List FlatMember} :
    winnerOf incoming = none ↔ incoming = [] := by
  rcases List.eq_nil_or_concat incoming with rfl | ⟨front, last, rfl⟩
  · simp [winnerOf]
  · simp [winnerOf]

end Composition

namespace FlattenContext

variable {x : FlattenContext} {owner : Symbol} {through : Origin → Origin} {done : TraitTables}

/-- Every table is in the order of its keys. -/
def TablesSorted (done : TraitTables) : Prop :=
  ∀ id table, done.lookup id = some table → table.Sorted

/-- The entry of a key in the table of a trait, as a clause that names the trait brings it in. -/
def incoming? (x : FlattenContext) (through : Origin → Origin) (done : TraitTables)
    (key : MemberKey) (target : SymbolId) : Option FlatMember :=
  ((done.lookup target).bind (·.get? key)).map
    (Composition.bring through target (x.isUnresolved target))

theorem sorted_composeClause {c : Composition} (hc : c.members.Sorted) (clause : UseClause)
    (target : Option SymbolId) :
    (x.composeClause owner through done c clause target).members.Sorted := by
  unfold composeClause
  split
  · exact hc
  · split
    · exact hc
    · exact Composition.sorted_addTable hc _ _ _

theorem sorted_composeUses (x : FlattenContext) (id : SymbolId) (owner : Symbol)
    (through : Origin → Origin) (done : TraitTables) :
    (x.composeUses id owner through done).members.Sorted :=
  List.foldlRecOn (motive := fun c : Composition => c.members.Sorted) _ _
    MemberTable.sorted_empty fun _ hc _ _ => sorted_composeClause hc _ _

theorem get?_composeClause (hdone : TablesSorted done) (c : Composition) (clause : UseClause)
    (target : Option SymbolId) (key : MemberKey) :
    (x.composeClause owner through done c clause target).members.get? key =
      match target.bind (x.incoming? through done key) with
      | none => c.members.get? key
      | some m => some (Composition.winner (c.members.get? key) m) := by
  unfold composeClause incoming?
  cases target with
  | none => rfl
  | some id =>
    cases hlookup : done.lookup id with
    | none => simp [hlookup]
    | some table =>
      simp only [Composition.get?_addTable (hdone id table hlookup), Option.bind_some, hlookup]
      cases table.get? key <;> rfl

theorem get?_foldl_composeClause (hdone : TablesSorted done) (key : MemberKey)
    (clauses : List (UseClause × Option SymbolId)) (c : Composition) :
    (clauses.foldl (fun c (clause, target) => x.composeClause owner through done c clause target)
      c).members.get? key =
      (((clauses.map Prod.snd).filterMap id).filterMap (x.incoming? through done key)).foldl
        (fun existing m => some (Composition.winner existing m)) (c.members.get? key) := by
  induction clauses generalizing c with
  | nil => rfl
  | cons head rest ih =>
    obtain ⟨clause, target⟩ := head
    rw [List.foldl_cons, ih, get?_composeClause hdone]
    cases target with
    | none => rfl
    | some target =>
      have htargets : List.filterMap id (((clause, some target) :: rest).map Prod.snd) =
          target :: List.filterMap id (rest.map Prod.snd) := rfl
      rw [htargets, Option.bind_some]
      cases hin : x.incoming? through done key target with
      | none => rw [List.filterMap_cons_none hin]
      | some m => rw [List.filterMap_cons_some hin, List.foldl_cons]

/-- The entry of a key after all clauses: the winner of what they bring in. -/
theorem get?_composeUses (hdone : TablesSorted done) {id : SymbolId}
    (hlength : (x.uses.uses id).length = owner.uses.length) (key : MemberKey) :
    (x.composeUses id owner through done).members.get? key =
      Composition.winnerOf ((x.uses.targets id).filterMap (x.incoming? through done key)) := by
  have htargets : (owner.uses.zip (x.uses.uses id)).map Prod.snd = x.uses.uses id :=
    List.map_snd_zip (Nat.le_of_eq hlength)
  unfold composeUses Composition.winnerOf UseGraph.targets
  rw [get?_foldl_composeClause hdone, htargets]
  rfl

end FlattenContext

/-! What holds of whatever is brought in holds of every entry and of both sides of every
collision. -/

/-- Every entry and every member that takes part in a collision satisfies `P`. -/
structure Composition.All (P : FlatMember → Prop) (c : Composition) : Prop where
  entries : ∀ key m, c.members.get? key = some m → P m
  collisions : ∀ collision ∈ c.collisions, P collision.existing ∧ P collision.incoming

section

variable {P : FlatMember → Prop} {c : Composition} {owner : Symbol} {through : Origin → Origin}

namespace Composition

theorem All.empty : All P empty :=
  ⟨fun key m hm => by simp [Composition.empty] at hm, by simp [Composition.empty]⟩

theorem All.add (h : c.All P) (clause : UseClause) (key : MemberKey) {m : FlatMember} (hm : P m) :
    (c.add owner clause key m).All P := by
  have hinserted : ∀ other entry, (c.members.insert key m).get? other = some entry → P entry := by
    intro other entry hentry
    by_cases hkey : other = key
    · rw [hkey, MemberTable.get?_insert_self] at hentry
      exact Option.some.inj hentry ▸ hm
    · rw [MemberTable.get?_insert_of_ne _ _ hkey] at hentry
      exact h.entries other entry hentry
  unfold Composition.add
  split
  · exact ⟨hinserted, h.collisions⟩
  · next existing hexisting =>
    split
    · exact h
    · refine ⟨hinserted, fun collision hcollision => ?_⟩
      split at hcollision
      · exact h.collisions collision hcollision
      · rcases List.mem_append.1 hcollision with hold | hnew
        · exact h.collisions collision hold
        · rw [List.mem_singleton.1 hnew]
          exact ⟨h.entries key existing hexisting, hm⟩

theorem All.addTable (h : c.All P) (clause : UseClause) {target : SymbolId} {isUnresolved : Bool}
    {table : MemberTable FlatMember}
    (htable : ∀ e ∈ table.entries, P (bring through target isUnresolved e.2)) :
    (c.addTable owner through clause target isUnresolved table).All P :=
  List.foldlRecOn (motive := All P) table.entries _ h fun _ hc e he =>
    hc.add clause e.1 (htable e he)

end Composition

theorem FlattenContext.all_composeUses {x : FlattenContext} {id : SymbolId} {done : TraitTables}
    (hbring : ∀ target table, x.uses.Leads id target → done.lookup target = some table →
      ∀ e ∈ table.entries, P (Composition.bring through target (x.isUnresolved target) e.2)) :
    (x.composeUses id owner through done).All P := by
  refine List.foldlRecOn (motive := Composition.All P) _ _ .empty fun c hc e he => ?_
  obtain ⟨clause, target⟩ := e
  cases target with
  | none => exact hc
  | some target =>
    have hleads : x.uses.Leads id target := (List.of_mem_zip he).2
    simp only [composeClause]
    split
    · exact hc
    · next table htable => exact hc.addTable clause (hbring target table hleads htable)

end

/-! Entries that are all changed alike. Where the change keeps members apart, whatever is composed
from changed tables is what was composed before, changed. -/

def Collision.map (f : FlatMember → FlatMember) (c : Collision) : Collision :=
  { c with existing := f c.existing, incoming := f c.incoming }

def Composition.map (f : FlatMember → FlatMember) (c : Composition) : Composition :=
  ⟨c.members.map f, c.collisions.map (Collision.map f)⟩

section

variable {f : FlatMember → FlatMember} {owner owner' : Symbol} {through through' : Origin → Origin}
  (hf : ∀ a b, Composition.isSameMember (f a) (f b) = Composition.isSameMember a b)
  (howner : ∀ kind name, (owner'.member? kind name).isSome = (owner.member? kind name).isSome)
include hf howner

namespace Composition

theorem add_map (clause : UseClause) (c : Composition) (key : MemberKey) (m : FlatMember) :
    (c.map f).add owner' clause key (f m) = (c.add owner clause key m).map f := by
  have hget : (c.map f).members.get? key = (c.members.get? key).map f :=
    MemberTable.get?_map _ _ key
  unfold add
  rw [hget, howner]
  cases c.members.get? key with
  | none => simp only [Option.map_none, map, MemberTable.map_insert]
  | some existing =>
    simp only [Option.map_some, hf]
    by_cases hsame : isSameMember existing m = true
    · rw [if_pos hsame, if_pos hsame]
    · rw [if_neg hsame, if_neg hsame]
      by_cases hown : (owner.member? key.kind key.name).isSome = true
      · rw [if_pos hown, if_pos hown]
        simp only [map, MemberTable.map_insert]
      · rw [if_neg hown, if_neg hown]
        simp only [map, MemberTable.map_insert, List.map_append, List.map_cons, List.map_nil,
          Collision.map]

theorem addTable_map {target target' : SymbolId} {isUnresolved isUnresolved' : Bool}
    (hbring : ∀ m, bring through' target' isUnresolved' (f m) =
      f (bring through target isUnresolved m))
    (clause : UseClause) (table : MemberTable FlatMember) (c : Composition) :
    (c.map f).addTable owner' through' clause target' isUnresolved' (table.map f) =
      (c.addTable owner through clause target isUnresolved table).map f := by
  obtain ⟨entries⟩ := table
  unfold addTable MemberTable.map
  rw [List.foldl_map]
  induction entries generalizing c with
  | nil => rfl
  | cons head rest ih =>
    have hhead : (c.map f).add owner' clause head.1
        (bring through' target' isUnresolved' (f head.2)) =
          (c.add owner clause head.1 (bring through target isUnresolved head.2)).map f := by
      rw [hbring, add_map hf howner]
    rw [List.foldl_cons, List.foldl_cons]
    simp only [hhead]
    exact ih _

end Composition

namespace FlattenContext

variable {x x' : FlattenContext} {id id' : SymbolId} {g : SymbolId → SymbolId}
  {done done' : TraitTables}

theorem composeUses_map (huses : owner'.uses = owner.uses)
    (hgraph : x'.uses.uses id' = (x.uses.uses id).map (Option.map g))
    (hdone : ∀ target, x.uses.Leads id target →
      done'.lookup (g target) = (done.lookup target).map (MemberTable.map f))
    (hbring : ∀ target, x.uses.Leads id target → ∀ m,
      Composition.bring through' (g target) (x'.isUnresolved (g target)) (f m) =
        f (Composition.bring through target (x.isUnresolved target) m)) :
    x'.composeUses id' owner' through' done' = (x.composeUses id owner through done).map f := by
  have hclause : ∀ (c : Composition) clause target, target ∈ x.uses.uses id →
      x'.composeClause owner' through' done' (c.map f) clause (target.map g) =
        (x.composeClause owner through done c clause target).map f := by
    intro c clause target htarget
    cases target with
    | none => rfl
    | some target =>
      simp only [Option.map_some, composeClause, hdone target htarget]
      cases done.lookup target with
      | none => rfl
      | some table => exact Composition.addTable_map hf howner (hbring target htarget) ..
  have hpairs : ∀ (pairs : List (UseClause × Option SymbolId)) (c : Composition),
      (∀ p ∈ pairs, p.2 ∈ x.uses.uses id) →
      (pairs.map fun p => (p.1, p.2.map g)).foldl
          (fun c p => x'.composeClause owner' through' done' c p.1 p.2) (c.map f) =
        (pairs.foldl (fun c p => x.composeClause owner through done c p.1 p.2) c).map f := by
    intro pairs
    induction pairs with
    | nil => exact fun c _ => rfl
    | cons first rest ih =>
      intro c hmem
      rw [List.map_cons, List.foldl_cons, List.foldl_cons, hclause c _ _ (hmem first (by simp))]
      exact ih _ fun p hp => hmem p (List.mem_cons_of_mem _ hp)
  unfold composeUses
  rw [hgraph, huses, List.zip_map_right]
  exact hpairs _ .empty fun p hp => (List.of_mem_zip (show (p.1, p.2) ∈ _ from hp)).2

end FlattenContext

end

end ModuleVisibility
