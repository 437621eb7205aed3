import Mathlib.Data.List.Basic
import ModuleVisibility.Proofs.Entry

/-!
Which collisions are reported. The table of an owner is built clause by clause, and a clause reports
every member that takes the place of another one. An older entry stays for the same member only, so
what is replaced is the member of the last clause before that has the key, whichever clause the
entry itself came from.
-/
namespace ModuleVisibility

namespace Composition

variable {owner : Symbol} {through : Origin → Origin} {clause : UseClause} {c : Composition}
  {key : MemberKey} {incoming : FlatMember}

/-- The collision when `incoming` is met under a key with the entry `existing`. -/
def collision? (owner : Symbol) (clause : UseClause) (existing : Option FlatMember)
    (key : MemberKey) (incoming : FlatMember) : Option Collision :=
  existing.bind fun existing =>
    if isSameMember existing incoming || (owner.member? key.kind key.name).isSome then none
    else some ⟨clause, key, existing, incoming⟩

theorem collision?_eq_some_iff {existing : Option FlatMember} {collision : Collision} :
    collision? owner clause existing key incoming = some collision ↔
      existing = some collision.existing ∧ ¬ owner.Declares key ∧
        isSameMember collision.existing incoming = false ∧
        collision = ⟨clause, key, collision.existing, incoming⟩ := by
  unfold collision?
  rw [Option.bind_eq_some_iff, ← Symbol.isSome_member?_iff]
  constructor
  · rintro ⟨existing, rfl, h⟩
    split at h
    · cases h
    · next hkept =>
      cases h
      simpa [and_comm] using hkept
  · rintro ⟨rfl, hown, hdiffer, heq⟩
    refine ⟨_, rfl, ?_⟩
    rw [if_neg (by simp [hown, hdiffer]), ← heq]

theorem collisions_add (owner : Symbol) (clause : UseClause) (c : Composition) (key : MemberKey)
    (incoming : FlatMember) :
    (c.add owner clause key incoming).collisions =
      c.collisions ++ (collision? owner clause (c.members.get? key) key incoming).toList := by
  unfold add collision?
  cases c.members.get? key with
  | none => simp
  | some existing =>
    by_cases hsame : isSameMember existing incoming = true
    · simp [hsame]
    · by_cases hown : (owner.member? key.kind key.name).isSome = true
      · simp [hsame, hown]
      · simp [hsame, hown]

/-- A table brings in each key once, so whatever it replaces was there before. -/
theorem collisions_addTable {table : MemberTable FlatMember} (htable : table.Sorted)
    (c : Composition) (target : SymbolId) (isUnresolved : Bool) :
    (c.addTable owner through clause target isUnresolved table).collisions =
      c.collisions ++ table.entries.filterMap fun e =>
        collision? owner clause (c.members.get? e.1) e.1
          (bring through target isUnresolved e.2) := by
  have hkeys := htable.nodup_keys
  unfold addTable
  generalize table.entries = entries at hkeys
  induction entries generalizing c with
  | nil => simp
  | cons head rest ih =>
    obtain ⟨key, m⟩ := head
    obtain ⟨hfresh, hrest⟩ := List.nodup_cons.1 hkeys
    -- The other entries have other keys, so they meet what was there before the first one.
    have hlater : rest.filterMap (fun e => collision? owner clause
          ((c.add owner clause key (bring through target isUnresolved m)).members.get? e.1) e.1
          (bring through target isUnresolved e.2)) =
        rest.filterMap fun e => collision? owner clause (c.members.get? e.1) e.1
          (bring through target isUnresolved e.2) := by
      refine List.filterMap_congr fun e he => ?_
      have hne : e.1 ≠ key := fun heq => hfresh (List.mem_map.2 ⟨e, he, heq⟩)
      simp only [get?_add, if_neg hne]
    rw [List.foldl_cons, ih _ hrest, hlater, collisions_add, List.append_assoc]
    cases hcollision : collision? owner clause (c.members.get? key) key
        (bring through target isUnresolved m) with
    | none => simp only [List.filterMap_cons, hcollision, Option.toList_none, List.nil_append]
    | some collision =>
      simp only [List.filterMap_cons, hcollision, Option.toList_some, List.singleton_append]

end Composition

namespace FlattenContext

variable {x : FlattenContext} {id : SymbolId} {owner : Symbol} {through : Origin → Origin}
  {done : TraitTables}

/-- The collisions of one clause that meets the entries `members`. -/
def clauseCollisions (x : FlattenContext) (owner : Symbol) (through : Origin → Origin)
    (done : TraitTables) (members : MemberTable FlatMember) (clause : UseClause)
    (target : Option SymbolId) : List Collision :=
  match target with
  | none => []
  | some id =>
    match done.lookup id with
    | none => []
    | some table => table.entries.filterMap fun e =>
        Composition.collision? owner clause (members.get? e.1) e.1
          (Composition.bring through id (x.isUnresolved id) e.2)

theorem collisions_composeClause (hdone : TablesSorted done) (c : Composition) (clause : UseClause)
    (target : Option SymbolId) :
    (x.composeClause owner through done c clause target).collisions =
      c.collisions ++ x.clauseCollisions owner through done c.members clause target := by
  cases target with
  | none => exact (List.append_nil _).symm
  | some id =>
    cases htable : done.lookup id with
    | none => simp only [composeClause, clauseCollisions, htable, List.append_nil]
    | some table =>
      simp only [composeClause, clauseCollisions, htable]
      exact Composition.collisions_addTable (hdone id table htable) ..

theorem mem_clauseCollisions (hdone : TablesSorted done) {members : MemberTable FlatMember}
    {clause : UseClause} {target : Option SymbolId} {c : Collision} :
    c ∈ x.clauseCollisions owner through done members clause target ↔
      c.clause = clause ∧ ¬ owner.Declares c.key ∧
        target.bind (x.incoming? through done c.key) = some c.incoming ∧
        members.get? c.key = some c.existing ∧
        Composition.isSameMember c.existing c.incoming = false := by
  unfold clauseCollisions incoming?
  cases target with
  | none => simp
  | some id =>
    cases htable : done.lookup id with
    | none => simp [htable]
    | some table =>
      simp only [List.mem_filterMap, Prod.exists, Composition.collision?_eq_some_iff,
        MemberTable.mem_entries_iff (hdone id table htable), Option.bind_some, htable,
        Option.map_eq_some_iff]
      constructor
      · rintro ⟨key, m, hm, hexisting, hown, hdiffer, heq⟩
        rw [heq]
        exact ⟨rfl, hown, ⟨m, hm, rfl⟩, hexisting, by rw [heq] at hdiffer; exact hdiffer⟩
      · rintro ⟨rfl, hown, ⟨m, hm, hincoming⟩, hexisting, hdiffer⟩
        refine ⟨c.key, m, hm, hexisting, hown, ?_, ?_⟩
        · rw [hincoming]
          exact hdiffer
        · rw [hincoming]

theorem sorted_clauseCollisions (hdone : TablesSorted done) (members : MemberTable FlatMember)
    (clause : UseClause) (target : Option SymbolId) :
    (x.clauseCollisions owner through done members clause target).Pairwise
      fun a b => a.key.lt b.key = true := by
  unfold clauseCollisions
  split
  · exact .nil
  · split
    · exact .nil
    · next table htable =>
      refine List.Pairwise.filterMap _ ?_ (hdone _ table htable)
      intro a b hlt c hc c' hc'
      obtain ⟨_, _, _, hkey⟩ := Composition.collision?_eq_some_iff.1 hc
      obtain ⟨_, _, _, hkey'⟩ := Composition.collision?_eq_some_iff.1 hc'
      rw [hkey, hkey']
      exact hlt

/-! The clauses of an owner in order. -/

/-- The composition of the first `n` clauses of an owner. -/
def composeFirst (x : FlattenContext) (id : SymbolId) (owner : Symbol) (through : Origin → Origin)
    (done : TraitTables) (n : Nat) : Composition :=
  ((owner.uses.zip (x.uses.uses id)).take n).foldl
    (fun c (clause, target) => x.composeClause owner through done c clause target) .empty

/-- The collisions of clause `index` of an owner. -/
def collisionsAt (x : FlattenContext) (id : SymbolId) (owner : Symbol) (through : Origin → Origin)
    (done : TraitTables) (index : Nat) : List Collision :=
  ((owner.uses.zip (x.uses.uses id))[index]?.map fun p =>
    x.clauseCollisions owner through done (x.composeFirst id owner through done index).members
      p.1 p.2).getD []

/-- The collisions of the first `n` clauses, each with the index of its clause. -/
def collisionsBefore (x : FlattenContext) (id : SymbolId) (owner : Symbol)
    (through : Origin → Origin) (done : TraitTables) (n : Nat) : List (Nat × Collision) :=
  (List.range n).flatMap fun index => (x.collisionsAt id owner through done index).map (index, ·)

/-- One more clause adds the collisions that it meets. -/
theorem collisions_composeFirst_succ (hdone : TablesSorted done) (n : Nat) :
    (x.composeFirst id owner through done (n + 1)).collisions =
      (x.composeFirst id owner through done n).collisions
        ++ x.collisionsAt id owner through done n := by
  unfold composeFirst collisionsAt
  rw [List.take_add_one]
  cases hclause : (owner.uses.zip (x.uses.uses id))[n]? with
  | none => simp
  | some p =>
    rw [Option.toList_some, List.foldl_append, List.foldl_cons, List.foldl_nil,
      collisions_composeClause hdone]
    rfl

theorem collisions_composeFirst (hdone : TablesSorted done) (n : Nat) :
    (x.composeFirst id owner through done n).collisions =
      (x.collisionsBefore id owner through done n).map Prod.snd := by
  unfold collisionsBefore
  induction n with
  | zero => rfl
  | succ n ih =>
    rw [collisions_composeFirst_succ hdone, ih, List.range_succ, List.flatMap_append,
      List.map_append]
    simp [Function.comp_def]

/-- All clauses are composed in the end. -/
theorem collisions_composeUses (hdone : TablesSorted done) :
    (x.composeUses id owner through done).collisions =
      (x.collisionsBefore id owner through done owner.uses.length).map Prod.snd := by
  have hall : (owner.uses.zip (x.uses.uses id)).take owner.uses.length =
      owner.uses.zip (x.uses.uses id) :=
    List.take_of_length_le (by rw [List.length_zip]; exact Nat.min_le_left _ _)
  rw [← collisions_composeFirst hdone, composeFirst, hall]
  rfl

/-- The collisions come clause by clause, and those of one clause in the order of their keys. -/
theorem ordered_collisionsBefore (hdone : TablesSorted done) (n : Nat) :
    (x.collisionsBefore id owner through done n).Pairwise fun a b =>
      a.1 < b.1 ∨ a.1 = b.1 ∧ a.2.key.lt b.2.key = true := by
  refine List.pairwise_flatMap.2 ⟨fun index _ => ?_, ?_⟩
  · refine List.pairwise_map.2 (List.Pairwise.imp (fun hlt => .inr ⟨rfl, hlt⟩) ?_)
    unfold collisionsAt
    cases (owner.uses.zip (x.uses.uses id))[index]? with
    | none => exact .nil
    | some p => exact sorted_clauseCollisions hdone ..
  · refine List.pairwise_lt_range.imp fun hlt a ha b hb => ?_
    obtain ⟨_, _, rfl⟩ := List.mem_map.1 ha
    obtain ⟨_, _, rfl⟩ := List.mem_map.1 hb
    exact .inl hlt

/-- The entry of a key after the first clauses: the winner of what they bring in. -/
theorem get?_composeFirst (hdone : TablesSorted done)
    (hlength : (x.uses.uses id).length = owner.uses.length) (n : Nat) (key : MemberKey) :
    (x.composeFirst id owner through done n).members.get? key =
      Composition.winnerOf ((((x.uses.uses id).take n).filterMap fun target => target).filterMap
        (x.incoming? through done key)) := by
  have htargets : ((owner.uses.zip (x.uses.uses id)).take n).map Prod.snd =
      (x.uses.uses id).take n := by
    rw [List.map_take, List.map_snd_zip (Nat.le_of_eq hlength)]
  unfold composeFirst Composition.winnerOf
  rw [get?_foldl_composeClause hdone, htargets]
  rfl

/-- What clause `index` replaces, by what it brings in and what the clauses before have left. -/
theorem mem_collisionsAt (hdone : TablesSorted done)
    (hlength : (x.uses.uses id).length = owner.uses.length) {index : Nat} {c : Collision} :
    c ∈ x.collisionsAt id owner through done index ↔
      owner.uses[index]? = some c.clause ∧ ¬ owner.Declares c.key ∧
        (x.uses.uses id)[index]?.join.bind (x.incoming? through done c.key) = some c.incoming ∧
        Composition.winnerOf ((((x.uses.uses id).take index).filterMap fun target =>
          target).filterMap (x.incoming? through done c.key)) = some c.existing ∧
        Composition.isSameMember c.existing c.incoming = false := by
  unfold collisionsAt
  constructor
  · intro h
    cases hclause : (owner.uses.zip (x.uses.uses id))[index]? with
    | none => simp [hclause] at h
    | some p =>
      rw [hclause, Option.map_some, Option.getD_some, mem_clauseCollisions hdone,
        get?_composeFirst hdone hlength] at h
      obtain ⟨huse, htarget⟩ := List.getElem?_zip_eq_some.1 hclause
      rw [huse, htarget, Option.join_some]
      exact ⟨congrArg some h.1.symm, h.2⟩
  · rintro ⟨huse, h⟩
    have hlt : index < (x.uses.uses id).length := by
      rw [hlength]
      exact (List.getElem?_eq_some_iff.1 huse).1
    have hclause : (owner.uses.zip (x.uses.uses id))[index]? =
        some (c.clause, (x.uses.uses id)[index]) :=
      List.getElem?_zip_eq_some.2 ⟨huse, List.getElem?_eq_getElem hlt⟩
    rw [List.getElem?_eq_getElem hlt, Option.join_some] at h
    rw [hclause, Option.map_some, Option.getD_some, mem_clauseCollisions hdone,
      get?_composeFirst hdone hlength]
    exact ⟨rfl, h⟩

theorem mem_collisionsBefore (hdone : TablesSorted done)
    (hlength : (x.uses.uses id).length = owner.uses.length) {index : Nat} {c : Collision} :
    (index, c) ∈ x.collisionsBefore id owner through done owner.uses.length ↔
      c ∈ x.collisionsAt id owner through done index := by
  unfold collisionsBefore
  simp only [List.mem_flatMap, List.mem_range, List.mem_map, Prod.mk.injEq]
  constructor
  · rintro ⟨_, _, _, hc, rfl, rfl⟩
    exact hc
  · intro hc
    have huse := ((mem_collisionsAt hdone hlength).1 hc).1
    exact ⟨index, (List.getElem?_eq_some_iff.1 huse).1, c, hc, rfl, rfl⟩

end FlattenContext
end ModuleVisibility
