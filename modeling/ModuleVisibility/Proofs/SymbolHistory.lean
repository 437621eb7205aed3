import Mathlib.Data.List.Basic
import Mathlib.Data.List.Induction
import Mathlib.Data.List.Infix
import ModuleVisibility.Analysis
import ModuleVisibility.Proofs.CyclicTraits
import ModuleVisibility.Proofs.Distinct
import ModuleVisibility.Proofs.SymbolTable

/-!
The symbols after any calls, in any order. The store keeps the first declaration of each name and
gives it the next id, so ids count names in the order in which they come up, and the map of names
leads to the record that has the name. Later declarations of a name are refused with the id of the
first, and marks change nothing but the flag of what they mark.
-/
namespace ModuleVisibility

/-- What ends a front of a list with one more element ends the whole list or a front of the list
before. -/
theorem concat_prefix_concat_iff {α : Type} {front l : List α} {a b : α} :
    front ++ [a] <+: l ++ [b] ↔ (front = l ∧ a = b) ∨ front ++ [a] <+: l := by
  have hinj : front ++ [a] = l ++ [b] ↔ front = l ∧ a = b := by
    rw [← List.concat_eq_append, ← List.concat_eq_append, List.concat_inj]
  rw [List.prefix_concat_iff, hinj]

/-- The symbol as it stood when it was declared. -/
def Symbol.asDeclared (s : Symbol) : Symbol := { s with isUnresolved := false }

/-- The record as it stood when its symbol was declared. -/
def SymbolRecord.asDeclared (r : SymbolRecord) : SymbolRecord :=
  { r with symbol := r.symbol.asDeclared }

namespace SymbolStore

/-- What can be asked of a store that changes it. -/
inductive Call where
  | declare (d : Declaration) (home : ModuleId) (unit : Nat)
  | mark (id : SymbolId)
  deriving DecidableEq

/-- What a call declares. -/
def Call.symbol? : Call → Option Symbol
  | .declare d home unit => some (.ofDeclaration d home unit)
  | .mark _ => none

/-- The store that a call leaves. -/
def step (t : SymbolStore) : Call → SymbolStore
  | .declare d home unit => (t.declare (.ofDeclaration d home unit)).1
  | .mark id => t.markUnresolved id

/-- The store after some calls. -/
def after (calls : List Call) : SymbolStore := calls.foldl step .empty

/-- What the calls declare, whether they succeed or not. -/
def declarations (calls : List Call) : List Symbol := calls.filterMap Call.symbol?

/-- One of the calls declares the symbol and is answered with the id. -/
def Gives (calls : List Call) (s : Symbol) (id : SymbolId) : Prop :=
  ∃ front c, front ++ [c] <+: calls ∧ c.symbol? = some s ∧ ((after front).declare s).2 = .ok id

/-- One of the calls marks an id that has been given before. -/
def Marks (calls : List Call) (id : SymbolId) : Prop :=
  ∃ front, front ++ [.mark id] <+: calls ∧ ∃ s, Gives front s id

/-- Only ids that have been given are marked: there is no other way to come by one. -/
def Possible (calls : List Call) : Prop :=
  ∀ front id, front ++ [.mark id] <+: calls → ∃ s, Gives front s id

variable {t : SymbolStore} {s : Symbol} {r : SymbolRecord} {id : SymbolId} {name : String}
  {calls : List Call} {c : Call}

/-! One call. -/

theorem declare_eq_of_find?_eq_none (h : t.find? s.name = none) :
    t.declare s = (t.add s, .ok ⟨t.size⟩) := by
  rw [declare, h]

theorem declare_eq_of_find?_eq_some (h : t.find? s.name = some id) :
    t.declare s = (t, .error ⟨s.name, id⟩) := by
  rw [declare, h]

theorem get?_add : (t.add s).get? id = some r ↔
    t.get? id = some r ∨ id = ⟨t.size⟩ ∧ r = s.record ⟨t.size⟩ := by
  obtain ⟨index⟩ := id
  simp only [get?, add, size, SymbolId.mk.injEq, List.getElem?_append, List.getElem?_singleton]
  split
  · next hlt =>
    have hne : index ≠ t.arena.length := by omega
    simp [hne]
  · next hge =>
    have hnone : t.arena[index]? = none := List.getElem?_eq_none (by omega)
    have hlast : index - t.arena.length = 0 ↔ index = t.arena.length := by omega
    rw [hnone]
    simp [hlast, eq_comm]

theorem isSome_get?_iff : (t.get? id).isSome ↔ id.index < t.size := by
  simp [get?, size]

/-- Only the record of the id is marked. -/
theorem get?_markUnresolved (t : SymbolStore) (marked id : SymbolId) :
    (t.markUnresolved marked).get? id =
      (t.get? id).map fun r => if id = marked then r.markUnresolved else r := by
  obtain ⟨index⟩ := id
  obtain ⟨marked⟩ := marked
  rw [get?, markUnresolved, List.getElem?_modify]
  simp only [SymbolId.mk.injEq, eq_comm (a := index)]
  rfl

/-- A mark leaves every record as it was declared. -/
theorem asDeclared_markUnresolved (t : SymbolStore) (id : SymbolId) :
    (t.markUnresolved id).arena.map (·.symbol.asDeclared) =
      t.arena.map (·.symbol.asDeclared) :=
  map_modify_of_eq SymbolRecord.markUnresolved (fun _ => rfl) _ _

/-! What the map of names finds. -/

theorem Sound.exists_of_find? (h : t.Sound) (hid : t.find? name = some id) :
    ∃ r, t.get? id = some r ∧ r.name = name := by
  obtain ⟨s, hs, hname⟩ := SymbolTable.get?_of_find? (t := ⟨t, h⟩) hid
  obtain ⟨r, hr, rfl⟩ := Option.map_eq_some_iff.1 hs
  exact ⟨r, hr, hname⟩

theorem Sound.find?_eq_none_iff (h : t.Sound) :
    t.find? name = none ↔ name ∉ t.arena.map SymbolRecord.name := by
  have hnone : t.find? name = none ↔ ∀ s ∈ t.arena.map SymbolRecord.symbol, s.name ≠ name :=
    SymbolTable.find?_eq_none_iff (t := ⟨t, h⟩)
  rw [hnone, List.forall_mem_map, List.mem_map]
  exact ⟨fun hall ⟨r, hr, hname⟩ => hall r hr hname, fun hnot r hr hname => hnot ⟨r, hr, hname⟩⟩

/-- Where all names are different, each record is found under its name. -/
theorem Sound.find?_eq_some_iff (h : t.Sound) (hnodup : (t.arena.map SymbolRecord.name).Nodup) :
    t.find? name = some id ↔ ∃ r, t.get? id = some r ∧ r.name = name := by
  constructor
  · exact h.exists_of_find?
  · rintro ⟨r, hr, rfl⟩
    have hnames : SymbolTable.DistinctNames ⟨t, h⟩ := by
      unfold SymbolTable.DistinctNames SymbolTable.symbols
      rw [List.map_map]
      exact hnodup
    exact hnames.find? (congrArg (Option.map SymbolRecord.symbol) hr)

/-! One call more. -/

theorem after_concat (calls : List Call) (c : Call) : after (calls ++ [c]) = (after calls).step c :=
  List.foldl_concat ..

theorem declarations_concat (calls : List Call) (c : Call) :
    declarations (calls ++ [c]) = declarations calls ++ c.symbol?.toList := by
  rw [declarations, List.filterMap_append, declarations]
  cases hc : c.symbol? with
  | none => simp [hc]
  | some s => simp [hc]

theorem gives_concat : Gives (calls ++ [c]) s id ↔
    Gives calls s id ∨ (c.symbol? = some s ∧ ((after calls).declare s).2 = .ok id) := by
  unfold Gives
  simp only [concat_prefix_concat_iff]
  constructor
  · rintro ⟨front, last, ⟨rfl, rfl⟩ | hearlier, hanswer⟩
    · exact .inr hanswer
    · exact .inl ⟨front, last, hearlier, hanswer⟩
  · rintro (⟨front, last, hearlier, hanswer⟩ | hanswer)
    · exact ⟨front, last, .inr hearlier, hanswer⟩
    · exact ⟨calls, c, .inl ⟨rfl, rfl⟩, hanswer⟩

theorem marks_concat :
    Marks (calls ++ [c]) id ↔ Marks calls id ∨ (c = .mark id ∧ ∃ s, Gives calls s id) := by
  unfold Marks
  simp only [concat_prefix_concat_iff]
  constructor
  · rintro ⟨front, ⟨rfl, rfl⟩ | hearlier, hgiven⟩
    · exact .inr ⟨rfl, hgiven⟩
    · exact .inl ⟨front, hearlier, hgiven⟩
  · rintro (⟨front, hearlier, hgiven⟩ | ⟨rfl, hgiven⟩)
    · exact ⟨front, .inr hearlier, hgiven⟩
    · exact ⟨calls, .inl ⟨rfl, rfl⟩, hgiven⟩

/-- A declaration marks nothing. -/
theorem marks_concat_declare {d : Declaration} {home : ModuleId} {unit : Nat} :
    Marks (calls ++ [.declare d home unit]) id ↔ Marks calls id := by
  rw [marks_concat]
  apply or_iff_left
  rintro ⟨heq, -⟩
  cases heq

theorem Gives.mono {more : List Call} (h : Gives calls s id) (hmore : calls <+: more) :
    Gives more s id := by
  obtain ⟨front, c, hfront, hanswer⟩ := h
  exact ⟨front, c, hfront.trans hmore, hanswer⟩

/-- What is marked has been given. -/
theorem Marks.gives (h : Marks calls id) : ∃ s, Gives calls s id := by
  obtain ⟨front, hfront, s, hgives⟩ := h
  exact ⟨s, hgives.mono ((List.prefix_append front _).trans hfront)⟩

/-! What the calls leave. -/

/-- The store is a record of the calls. -/
structure Records (t : SymbolStore) (calls : List Call) : Prop where
  sound : t.Sound
  order : t.arena.map (·.symbol.asDeclared) = distinctBy Symbol.name (declarations calls)
  given : ∀ s id, Gives calls s id ↔ ∃ r, t.get? id = some r ∧ r.symbol.asDeclared = s
  flags : ∀ id r, t.get? id = some r → (r.symbol.isUnresolved = true ↔ Marks calls id)

theorem Records.names (h : Records t calls) : t.arena.map SymbolRecord.name =
    (distinctBy Symbol.name (declarations calls)).map Symbol.name := by
  rw [← h.order, List.map_map]
  rfl

theorem Records.nodup (h : Records t calls) : (t.arena.map SymbolRecord.name).Nodup := by
  rw [h.names]
  exact nodup_distinctBy _ _

theorem Records.find?_eq_none_iff (h : Records t calls) :
    t.find? name = none ↔ name ∉ (declarations calls).map Symbol.name := by
  rw [h.sound.find?_eq_none_iff, h.names, key_mem_distinctBy_iff]

theorem Records.not_gives_size (h : Records t calls) (s : Symbol) : ¬ Gives calls s ⟨t.size⟩ := by
  intro hgives
  obtain ⟨r, hget, -⟩ := (h.given s ⟨t.size⟩).1 hgives
  have hlt := isSome_get?_iff.1 (Option.isSome_of_eq_some hget)
  exact Nat.lt_irrefl _ hlt

/-- A new record stands for its symbol, and the others for what they stood for. -/
theorem Records.given_add {s' : Symbol} (h : Records t calls) (hclear : s.asDeclared = s) :
    (∃ r, (t.add s).get? id = some r ∧ r.symbol.asDeclared = s') ↔
      Gives calls s' id ∨ (s = s' ∧ id = ⟨t.size⟩) := by
  rw [h.given]
  simp only [get?_add]
  constructor
  · rintro ⟨r, hget | ⟨rfl, rfl⟩, hsame⟩
    · exact .inl ⟨r, hget, hsame⟩
    · exact .inr ⟨hclear.symm.trans hsame, rfl⟩
  · rintro (⟨r, hget, hsame⟩ | ⟨rfl, rfl⟩)
    · exact ⟨r, .inl hget, hsame⟩
    · exact ⟨_, .inr ⟨rfl, rfl⟩, hclear⟩

/-- The id of a new record has not been marked, since it has not been given. -/
theorem Records.flags_add (h : Records t calls) (hclear : s.isUnresolved = false)
    (hget : (t.add s).get? id = some r) : r.symbol.isUnresolved = true ↔ Marks calls id := by
  rcases get?_add.1 hget with hold | ⟨rfl, rfl⟩
  · exact h.flags id r hold
  · apply iff_of_false
    · rw [Symbol.record, hclear]
      exact Bool.false_ne_true
    · intro hmarks
      obtain ⟨s', hgives⟩ := hmarks.gives
      exact h.not_gives_size s' hgives

/-- A new name is added behind the others. -/
theorem Records.accept {d : Declaration} {home : ModuleId} {unit : Nat}
    (h : Records (after calls) calls) (hnew : (after calls).find? d.name = none) :
    Records ((after calls).step (.declare d home unit)) (calls ++ [.declare d home unit]) := by
  generalize hs : Symbol.ofDeclaration d home unit = s
  have hdeclares : (Call.declare d home unit).symbol? = some s := congrArg some hs
  have hclear : s.asDeclared = s ∧ s.isUnresolved = false := by
    subst hs
    exact ⟨rfl, rfl⟩
  have hfind : (after calls).find? s.name = none := by
    subst hs
    exact hnew
  have hanswer : (after calls).declare s = ((after calls).add s, .ok ⟨(after calls).size⟩) :=
    declare_eq_of_find?_eq_none hfind
  have hstep : (after calls).step (.declare d home unit) = (after calls).add s := by
    rw [step, hs, hanswer]
  rw [hstep]
  constructor
  case sound => exact h.sound.add hfind
  case order =>
    rw [declarations_concat, hdeclares, Option.toList_some, distinctBy_concat,
      if_neg (h.find?_eq_none_iff.1 hfind), add, List.map_append, h.order, List.map_singleton]
    exact congrArg (_ ++ [·]) hclear.1
  case given =>
    intro s' id
    have hgiven : ((after calls).declare s).2 = .ok id ↔ id = ⟨(after calls).size⟩ := by
      rw [hanswer, Except.ok.injEq, eq_comm]
    rw [gives_concat, hdeclares, h.given_add hclear.1, Option.some_inj]
    refine or_congr_right (and_congr_right ?_)
    rintro rfl
    exact hgiven
  case flags =>
    intro id r hget
    rw [marks_concat_declare]
    exact h.flags_add hclear.2 hget

/-- A known name is refused, and nothing changes. -/
theorem Records.refuse {d : Declaration} {home : ModuleId} {unit : Nat}
    (h : Records (after calls) calls) (hknown : (after calls).find? d.name = some id) :
    Records ((after calls).step (.declare d home unit)) (calls ++ [.declare d home unit]) := by
  have hanswer : (after calls).declare (.ofDeclaration d home unit) =
      (after calls, .error ⟨d.name, id⟩) :=
    declare_eq_of_find?_eq_some hknown
  have hstep : (after calls).step (.declare d home unit) = after calls := by
    rw [step, hanswer]
  rw [hstep]
  constructor
  case sound => exact h.sound
  case order =>
    have hmem : (Symbol.ofDeclaration d home unit).name ∈
        (declarations calls).map Symbol.name := by
      by_contra hnot
      cases hknown.symm.trans (h.find?_eq_none_iff.2 hnot)
    rw [declarations_concat, Call.symbol?, Option.toList_some, distinctBy_concat, if_pos hmem,
      List.append_nil, h.order]
  case given =>
    intro s id
    rw [gives_concat, ← h.given]
    apply or_iff_left
    rintro ⟨hdeclared, hid⟩
    cases hdeclared
    rw [hanswer] at hid
    cases hid
  case flags =>
    intro id r hget
    rw [marks_concat_declare]
    exact h.flags id r hget

/-- A mark changes one flag. -/
theorem Records.mark (h : Records (after calls) calls) (marked : SymbolId) :
    Records ((after calls).step (.mark marked)) (calls ++ [.mark marked]) := by
  rw [step]
  constructor
  case sound => exact h.sound.markUnresolved marked
  case order =>
    rw [asDeclared_markUnresolved, declarations_concat, Call.symbol?, Option.toList_none,
      List.append_nil, h.order]
  case given =>
    intro s id
    rw [gives_concat, h.given, get?_markUnresolved]
    simp only [Call.symbol?, Option.map_eq_some_iff, reduceCtorEq, false_and, or_false]
    constructor
    · rintro ⟨r, hget, hsame⟩
      refine ⟨_, ⟨r, hget, rfl⟩, ?_⟩
      split
      · exact hsame
      · exact hsame
    · rintro ⟨_, ⟨r, hget, rfl⟩, hsame⟩
      refine ⟨r, hget, ?_⟩
      split at hsame
      · exact hsame
      · exact hsame
  case flags =>
    intro id r hget
    rw [get?_markUnresolved] at hget
    obtain ⟨old, hold, rfl⟩ := Option.map_eq_some_iff.1 hget
    rw [marks_concat]
    split
    · next heq =>
      subst heq
      exact iff_of_true rfl (.inr ⟨rfl, old.symbol.asDeclared, (h.given _ _).2 ⟨old, hold, rfl⟩⟩)
    · next hne =>
      have hother : ¬ (Call.mark marked = .mark id ∧ ∃ s, Gives calls s id) :=
        fun ⟨heq, _⟩ => hne (Call.mark.inj heq).symm
      rw [or_iff_left hother]
      exact h.flags id old hold

theorem Records.step (h : Records (after calls) calls) (c : Call) :
    Records ((after calls).step c) (calls ++ [c]) := by
  cases c with
  | declare d home unit =>
    cases hfind : (after calls).find? d.name with
    | none => exact h.accept hfind
    | some id => exact h.refuse hfind
  | mark id => exact h.mark id

theorem records_after (calls : List Call) : Records (after calls) calls := by
  -- From the back, since what a call is answered depends on all that stand before it.
  induction calls using List.reverseRecOn with
  | nil =>
    constructor
    · exact sound_empty
    · rfl
    · intro s id
      apply iff_of_false
      · rintro ⟨front, c, hfront, -⟩
        exact List.append_ne_nil_of_right_ne_nil front (List.cons_ne_nil _ _)
          (List.prefix_nil.1 hfront)
      · rintro ⟨r, hget, -⟩
        cases hget
    · intro id r hget
      cases hget
  | append_singleton calls c ih =>
    rw [after_concat]
    exact ih.step c

theorem marks_iff_of_possible (h : Possible calls) : Marks calls id ↔ .mark id ∈ calls := by
  constructor
  · rintro ⟨front, hfront, -⟩
    exact hfront.subset (by simp)
  · intro hmem
    obtain ⟨front, back, rfl⟩ := List.append_of_mem hmem
    have hfront : front ++ [.mark id] <+: front ++ .mark id :: back := ⟨back, by simp⟩
    exact ⟨front, hfront, h front id hfront⟩

theorem Records.exists_gives_iff (h : Records t calls) :
    (∃ s, Gives calls s id) ↔ id.index < t.size := by
  rw [← isSome_get?_iff, Option.isSome_iff_exists]
  simp only [h.given]
  constructor
  · rintro ⟨_, r, hget, -⟩
    exact ⟨r, hget⟩
  · rintro ⟨r, hget⟩
    exact ⟨r.symbol.asDeclared, r, hget, rfl⟩

/-- The map has a name for each record, and no name twice. -/
theorem Records.nodup_keys (h : Records t calls) : (t.byName.entries.map Prod.fst).Nodup := by
  rw [h.sound.indexed, List.map_map]
  exact h.nodup

/-- What stands in a record is what has been declared, with the id and the kind. -/
theorem Records.gives_iff (h : Records t calls) :
    Gives calls s id ↔ ∃ r, t.get? id = some r ∧ r.asDeclared = s.record id := by
  rw [h.given]
  refine exists_congr fun r => and_congr_right fun hget => ?_
  have hrecord : r = r.symbol.record id := h.sound.numbered id.index r hget
  constructor
  · rintro rfl
    rw [hrecord]
    rfl
  · intro heq
    exact congrArg SymbolRecord.symbol heq

/-- Without their flags, the records are those of the declarations whose names were new. -/
theorem Records.records_eq (h : Records t calls) : t.arena.map SymbolRecord.asDeclared =
    (distinctBy Symbol.name (declarations calls)).mapIdx fun index s => s.record ⟨index⟩ := by
  rw [← h.order]
  refine List.ext_getElem? fun index => ?_
  rw [List.getElem?_mapIdx, List.getElem?_map, List.getElem?_map]
  cases hr : t.arena[index]? with
  | none => rfl
  | some r =>
    rw [h.sound.numbered index r hr]
    rfl

/-- What can be told of the records and of the map of names from the calls. -/
structure InStep (calls : List Call) : Prop where
  /-- The map leads from the name of each record to its id and from no other name, and from no name
  twice. -/
  mapped : ∀ name id, (name, id) ∈ (after calls).byName.entries ↔
    ∃ r ∈ (after calls).arena, r.name = name ∧ r.id = id
  nodup : ((after calls).byName.entries.map Prod.fst).Nodup
  /-- The id of a record is its place. -/
  placed : ∀ (index : Nat) (r : SymbolRecord),
    (after calls).arena[index]? = some r → r.id = ⟨index⟩
  /-- Names and ids go together one to one, for just the names that have been declared. -/
  found : ∀ name id, (after calls).find? name = some id ↔
    ∃ r, (after calls).get? id = some r ∧ r.name = name
  declared : ∀ name, (∃ id, (after calls).find? name = some id) ↔
    name ∈ (declarations calls).map Symbol.name
  /-- The ids that have been given count up without a gap, in the order in which the names came
  up. -/
  dense : ∀ id, (∃ s, Gives calls s id) ↔ id.index < (after calls).size
  order : (after calls).arena.map SymbolRecord.asDeclared =
    (distinctBy Symbol.name (declarations calls)).mapIdx fun index s => s.record ⟨index⟩
  /-- But for its flag, the record of an id is what has been declared by the call that was answered
  with the id. -/
  entries : ∀ s id, Gives calls s id ↔
    ∃ r, (after calls).get? id = some r ∧ r.asDeclared = s.record id
  unresolved : ∀ id r, (after calls).get? id = some r →
    (r.symbol.isUnresolved = true ↔ Marks calls id)
  marks : Possible calls → ∀ id, Marks calls id ↔ .mark id ∈ calls
  /-- A name that is new gets the next id, and a known one is refused with the id that it has. -/
  accepted : ∀ s, s.name ∉ (declarations calls).map Symbol.name →
    ((after calls).declare s).2 = .ok ⟨(after calls).size⟩
  refused : ∀ first id, Gives calls first id → ∀ s, s.name = first.name →
    (after calls).declare s = (after calls, .error ⟨s.name, id⟩)

theorem inStep_after (calls : List Call) : InStep calls := by
  have h := records_after calls
  constructor
  case mapped =>
    intro name id
    rw [h.sound.indexed, List.mem_map]
    simp only [Prod.mk.injEq]
  case nodup => exact h.nodup_keys
  case placed =>
    intro index r hr
    rw [h.sound.numbered index r hr]
    rfl
  case found =>
    intro name id
    exact h.sound.find?_eq_some_iff h.nodup
  case declared =>
    intro name
    rw [← not_iff_not, ← h.find?_eq_none_iff, Option.eq_none_iff_forall_ne_some, not_exists]
  case dense =>
    intro id
    exact h.exists_gives_iff
  case order => exact h.records_eq
  case entries =>
    intro s id
    exact h.gives_iff
  case unresolved => exact h.flags
  case marks =>
    intro hpossible id
    exact marks_iff_of_possible hpossible
  case accepted =>
    intro s hnew
    rw [declare_eq_of_find?_eq_none (h.find?_eq_none_iff.2 hnew)]
  case refused =>
    intro first id hgives s hname
    obtain ⟨r, hget, rfl⟩ := (h.given first id).1 hgives
    have hfind : (after calls).find? s.name = some id :=
      (h.sound.find?_eq_some_iff h.nodup).2 ⟨r, hget, hname.symm⟩
    exact declare_eq_of_find?_eq_some hfind

/-! The symbols of a program come of such calls, so what is told of all calls is told of every
program. -/

def Reached (t : SymbolStore) : Prop := ∃ calls, Possible calls ∧ t = after calls

theorem Possible.concat (h : Possible calls) (hc : ∀ id, c = .mark id → ∃ s, Gives calls s id) :
    Possible (calls ++ [c]) := by
  intro front id hfront
  rcases concat_prefix_concat_iff.1 hfront with ⟨rfl, rfl⟩ | hearlier
  · exact hc id rfl
  · exact h front id hearlier

theorem Reached.declare (h : t.Reached) (d : Declaration) (home : ModuleId) (unit : Nat) :
    (t.declare (.ofDeclaration d home unit)).1.Reached := by
  obtain ⟨calls, hpossible, rfl⟩ := h
  refine ⟨calls ++ [.declare d home unit], hpossible.concat nofun, ?_⟩
  rw [after_concat, step]

theorem Reached.markUnresolved (h : t.Reached) (hid : (t.get? id).isSome) :
    (t.markUnresolved id).Reached := by
  obtain ⟨calls, hpossible, rfl⟩ := h
  refine ⟨calls ++ [.mark id], hpossible.concat ?_, ?_⟩
  · intro marked heq
    cases heq
    exact (records_after calls).exists_gives_iff.2 (isSome_get?_iff.1 hid)
  · rw [after_concat, step]

theorem Reached.declareSymbol {c : Collection} (h : c.symbols.toSymbolStore.Reached)
    (sources : SourceMap) (unit : Nat) (d : Declaration) :
    (c.declare sources unit d).symbols.toSymbolStore.Reached := by
  generalize hs : Symbol.ofDeclaration d (c.modules.moduleAt unit d.span.lo) unit = s
  have hdeclared : (c.symbols.declare s).1.toSymbolStore.Reached := by
    subst hs
    exact h.declare d (c.modules.moduleAt unit d.span.lo) unit
  unfold Collection.declare
  dsimp only
  rw [hs]
  split
  · next symbols id heq =>
    rw [heq] at hdeclared
    split
    · exact hdeclared
    · exact hdeclared
  · next symbols conflict heq =>
    rw [heq] at hdeclared
    split
    · exact hdeclared
    · next first hfirst =>
      exact hdeclared.markUnresolved
        (Option.isSome_map.symm.trans (Option.isSome_of_eq_some hfirst))

theorem reached_ofUnits (sources : SourceMap) (units : List CompilationUnit) :
    (Collection.ofUnits sources units).symbols.toSymbolStore.Reached := by
  have hempty : empty.Reached := by
    refine ⟨[], ?_, rfl⟩
    intro front id hfront
    exact absurd (List.prefix_nil.1 hfront) (by simp)
  refine List.foldlRecOn (motive := fun c : Collection => c.symbols.toSymbolStore.Reached) _ _
    hempty fun c hc _ _ => ?_
  exact List.foldlRecOn (motive := fun c : Collection => c.symbols.toSymbolStore.Reached) _ _ hc
    fun c hc _ _ => hc.declareSymbol sources _ _

theorem Reached.markAll {t : SymbolTable} (h : t.toSymbolStore.Reached) {ids : List SymbolId}
    (hids : ∀ id ∈ ids, (t.get? id).isSome) :
    (ids.foldl SymbolTable.markUnresolved t).toSymbolStore.Reached := by
  induction ids generalizing t with
  | nil => exact h
  | cons marked ids ih =>
    have hmarked := hids marked List.mem_cons_self
    apply ih (h.markUnresolved (Option.isSome_map.symm.trans hmarked))
    intro id hid
    rw [SymbolTable.get?_markUnresolved, Option.isSome_map]
    exact hids id (List.mem_cons_of_mem _ hid)

theorem reached_analysis (policy : Policy) (units : List ParsedUnit) :
    (Analysis.ofUnits policy units).symbols.toSymbolStore.Reached := by
  apply (reached_ofUnits _ _).markAll
  intro id hid
  exact SymbolTable.isSome_of_mem_ofKind (CycleSearch.mem_cyclic.1 hid).1

end SymbolStore
end ModuleVisibility
