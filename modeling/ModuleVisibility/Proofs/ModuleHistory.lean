import Mathlib.Data.List.Basic
import Mathlib.Data.List.Induction
import Mathlib.Data.List.Infix
import ModuleVisibility.Proofs.Declaring

/-!
The modules after any calls, in any order. What a call changes is told by its effect: names are only
added, and a module is unresolved when its name has been registered and not otherwise. So the store
is a record of the calls. It has a module for each declaration that has not failed, the map of names
leads to it, and every later call succeeds or fails by what came before it. The record of the global
module is never touched.
-/
namespace ModuleVisibility
namespace ModuleStore

/-- What can be asked of a store that changes it. -/
inductive Call where
  | declare (name : String)
  | register (name : String)
  | enter (unit : Nat) (id : ModuleId) (position : Nat)
  deriving DecidableEq

/-- The store that a call leaves. -/
def step (g : ModuleStore) : Call → ModuleStore
  | .declare name => (g.declare name).1
  | .register name => (g.registerEntity name).1
  | .enter unit id position => g.enter unit id position

/-- The error of an answer, if it is one. -/
def error? {α : Type} : Except ModuleConflict α → Option ModuleConflict
  | .ok _ => none
  | .error conflict => some conflict

/-- Why a call fails, if it does. -/
def conflict? (g : ModuleStore) : Call → Option ModuleConflict
  | .declare name => error? (g.declare name).2
  | .register name => error? (g.registerEntity name).2
  | .enter .. => none

/-- The store after some calls. -/
def after (calls : List Call) : ModuleStore := calls.foldl step .empty

/-- One of the calls has declared the name and has not failed. -/
def Declared (calls : List Call) (name : String) : Prop :=
  ∃ front, front ++ [.declare name] <+: calls ∧ (after front).conflict? (.declare name) = none

instance (calls : List Call) (name : String) : Decidable (Declared calls name) :=
  decidable_of_iff (∃ front ∈ calls.inits, front ++ [.declare name] <+: calls ∧
      (after front).conflict? (.declare name) = none) <| by
    constructor
    · rintro ⟨front, -, h⟩
      exact ⟨front, h⟩
    · rintro ⟨front, h⟩
      exact ⟨front, (List.mem_inits ..).2 ((List.prefix_append _ _).trans h.1), h⟩

variable {calls : List Call} {c : Call} {name : String}

theorem Sound.step {g : ModuleStore} (h : g.Sound) (c : Call) : (g.step c).Sound := by
  cases c with
  | declare name => exact h.declare name
  | register name => exact h.registerEntity name
  | enter unit id position => exact h.enter unit id position

theorem sound_after (calls : List Call) : (after calls).Sound :=
  List.foldlRecOn (motive := Sound) _ _ sound_empty fun _ hg c _ => hg.step c

theorem after_append (calls more : List Call) :
    after (calls ++ more) = more.foldl step (after calls) :=
  List.foldl_append

theorem after_concat (calls : List Call) (c : Call) :
    after (calls ++ [c]) = (after calls).step c := by
  rw [after_append]
  rfl

theorem declared_concat : Declared (calls ++ [c]) name ↔
    Declared calls name ∨
      (c = .declare name ∧ (after calls).conflict? (.declare name) = none) := by
  unfold Declared
  simp only [List.prefix_concat_iff]
  constructor
  · rintro ⟨front, hlast | hearlier, hnone⟩
    · obtain ⟨rfl, hcall⟩ := List.append_inj' hlast rfl
      exact .inr ⟨(List.singleton_inj.1 hcall).symm, hnone⟩
    · exact .inl ⟨front, hearlier, hnone⟩
  · rintro (⟨front, hearlier, hnone⟩ | ⟨rfl, hnone⟩)
    · exact ⟨front, .inr hearlier, hnone⟩
    · exact ⟨calls, .inl rfl, hnone⟩

end ModuleStore

namespace ModuleGraph

open ModuleStore (Call Declared)

variable {g g' : ModuleGraph} {c : Call} {calls : List Call} {name : String} {id : ModuleId}

/-- The graph that a call leaves. -/
def step (g : ModuleGraph) (c : Call) : ModuleGraph := ⟨g.toModuleStore.step c, g.sound.step c⟩

/-- The graph after some calls. -/
def after (calls : List Call) : ModuleGraph := ⟨.after calls, ModuleStore.sound_after calls⟩

theorem after_concat (calls : List Call) (c : Call) :
    after (calls ++ [c]) = (after calls).step c := by
  unfold after step
  simp only [ModuleStore.after_concat]

/-! When a call fails. -/

theorem conflict?_declare (g : ModuleGraph) (name : String) :
    g.conflict? (.declare name) = if name ∈ g.entities then some ⟨name⟩ else none := by
  have hanswer : g.conflict? (.declare name) = ModuleStore.error? (g.declare name).2 := rfl
  rw [hanswer]
  by_cases hmem : name ∈ g.entities
  · rw [declare_of_mem hmem, if_pos hmem, ModuleStore.error?]
  · obtain ⟨g', id, hdeclare, -⟩ := declare_of_not_mem hmem
    rw [hdeclare, if_neg hmem, ModuleStore.error?]

theorem conflict?_register (g : ModuleGraph) (name : String) :
    g.conflict? (.register name) = if name ∈ g.names then some ⟨name⟩ else none := by
  have hanswer : g.conflict? (.register name) = ModuleStore.error? (g.registerEntity name).2 := rfl
  rw [hanswer, registerEntity_eq]
  by_cases hmem : name ∈ g.names
  · rw [if_pos hmem, if_pos hmem, ModuleStore.error?]
  · rw [if_neg hmem, if_neg hmem, ModuleStore.error?]

/-! What a call changes. -/

/-- The names of the unresolved modules are those that other declarations have taken. -/
def Flagged (g : ModuleGraph) : Prop :=
  ∀ m ∈ g.modules, m.isUnresolved = true ↔ m.name ∈ g.entities

theorem Flagged.markNamed_of_mem (h : g.Flagged) (hname : name ∈ g.entities) :
    Module.markNamed g.modules name = g.modules := by
  refine Module.markNamed_eq_self fun m hm heq => (h m hm).2 ?_
  rwa [heq]

/-- A declaration that fails leaves the graph as it is: its module is marked already, if there is
one. -/
theorem Flagged.step_of_conflict? (h : g.Flagged) (hfails : g.conflict? (.declare name) ≠ none) :
    g.step (.declare name) = g := by
  have hmem : name ∈ g.entities := by
    by_contra hnot
    rw [conflict?_declare, if_neg hnot] at hfails
    exact hfails rfl
  have hstep : g.step (.declare name) = (g.declare name).1 := rfl
  rw [hstep, declare_of_mem hmem, h.markNamed_of_mem hmem]
  exact eq_of_parts (modules_ofParts ..) rfl rfl

/-- What a call makes of a graph: new names come last, no name is taken back, and the flags stay
right. -/
structure Effect (g : ModuleGraph) (c : Call) (g' : ModuleGraph) : Prop where
  kept : g.names <+: g'.names
  nodup : g.names.Nodup → g'.names.Nodup
  names : ∀ name, name ∈ g'.names ↔
    name ∈ g.names ∨ (c = .declare name ∧ g.conflict? (.declare name) = none)
  entities : ∀ name, name ∈ g'.entities ↔ name ∈ g.entities ∨ c = .register name
  flags : g.names.Nodup → g.Flagged → g'.Flagged

/-- A declaration that fails changes the flag of a module at most. -/
theorem effect_declare_of_mem (hmem : name ∈ g.entities) :
    Effect g (.declare name) (g.declare name).1 := by
  rw [declare_of_mem hmem]
  have hnames : (ofParts (Module.markNamed g.modules name) g.entities g.memberships).names =
      g.names := by
    rw [names, modules_ofParts, Module.names_markNamed, names]
  constructor
  case kept => exact hnames ▸ List.prefix_rfl
  case nodup => exact hnames ▸ fun h => h
  case names =>
    intro other
    rw [hnames, conflict?_declare]
    refine (or_iff_left ?_).symm
    rintro ⟨heq, hnone⟩
    cases heq
    rw [if_pos hmem] at hnone
    cases hnone
  case entities =>
    intro other
    refine (or_iff_left ?_).symm
    intro heq
    cases heq
  case flags =>
    intro _ h
    rw [h.markNamed_of_mem hmem]
    intro m hm
    rw [modules_ofParts] at hm
    exact h m hm

theorem effect_declare_of_not_mem (hmem : name ∉ g.entities) :
    Effect g (.declare name) (g.declare name).1 := by
  obtain ⟨g', id, hdeclare, -, hentities, -, hgrows, hmodules⟩ := declare_of_not_mem hmem
  rw [hdeclare]
  constructor
  case kept => exact hgrows.modules.map _
  case nodup => exact hgrows.nodup
  case names =>
    intro other
    rw [hgrows.mem, List.mem_singleton, conflict?_declare]
    refine or_congr_right ⟨?_, ?_⟩
    · rintro rfl
      exact ⟨rfl, if_neg hmem⟩
    · rintro ⟨heq, -⟩
      cases heq
      rfl
  case entities =>
    intro other
    rw [hentities]
    refine (or_iff_left ?_).symm
    intro heq
    cases heq
  case flags =>
    intro _ h m hm
    rw [hentities]
    rcases hmodules m hm with hold | rfl
    · exact h m hold
    · exact iff_of_false Bool.false_ne_true hmem

theorem effect_declare (g : ModuleGraph) (name : String) :
    Effect g (.declare name) (g.declare name).1 := by
  by_cases hmem : name ∈ g.entities
  · exact effect_declare_of_mem hmem
  · exact effect_declare_of_not_mem hmem

theorem effect_register (g : ModuleGraph) (name : String) :
    Effect g (.register name) (g.registerEntity name).1 := by
  rw [registerEntity_eq]
  have hnames : (ofParts (Module.markNamed g.modules name) (name :: g.entities)
      g.memberships).names = g.names := by
    rw [names, modules_ofParts, Module.names_markNamed, names]
  refine ⟨hnames ▸ List.prefix_rfl, hnames ▸ fun h => h, fun other => ?_, fun other => ?_,
    fun hnodup h m hm => ?_⟩
  · rw [hnames]
    refine (or_iff_left ?_).symm
    rintro ⟨heq, -⟩
    cases heq
  · rw [Call.register.injEq, or_comm, eq_comm]
    exact List.mem_cons
  · rw [modules_ofParts, Module.markNamed_of_nodup hnodup] at hm
    obtain ⟨old, hold, rfl⟩ := List.mem_map.1 hm
    have hother : old.name ≠ name → (old.name ∈ name :: g.entities ↔ old.name ∈ g.entities) :=
      fun hne => List.mem_cons.trans (or_iff_right hne)
    split
    · next heq => exact iff_of_true rfl (heq ▸ List.mem_cons_self)
    · next hne => exact (h old hold).trans (hother hne).symm

theorem effect_enter (g : ModuleGraph) (unit : Nat) (id : ModuleId) (position : Nat) :
    Effect g (.enter unit id position) (g.enter unit id position) where
  kept := List.prefix_rfl
  nodup h := h
  names _ := (or_iff_left nofun).symm
  entities _ := (or_iff_left nofun).symm
  flags _ h := h

theorem effect_step (g : ModuleGraph) (c : Call) : Effect g c (g.step c) := by
  cases c with
  | declare name => exact effect_declare g name
  | register name => exact effect_register g name
  | enter unit id position => exact effect_enter g unit id position

/-! What the calls leave. -/

/-- The graph is a record of the calls. -/
structure Records (g : ModuleGraph) (calls : List Call) : Prop where
  nodup : g.names.Nodup
  names : ∀ name, name ∈ g.names ↔ Declared calls name
  entities : ∀ name, name ∈ g.entities ↔ .register name ∈ calls
  flags : g.Flagged

theorem Records.step (h : Records (after calls) calls) (c : Call) :
    Records ((after calls).step c) (calls ++ [c]) := by
  have heffect := effect_step (after calls) c
  refine ⟨heffect.nodup h.nodup, fun name => ?_, fun name => ?_, heffect.flags h.nodup h.flags⟩
  · rw [heffect.names, h.names, ModuleStore.declared_concat]
    rfl
  · rw [heffect.entities, h.entities, List.mem_append, List.mem_singleton, eq_comm]

theorem records_after (calls : List Call) : Records (after calls) calls := by
  -- From the back, since whether a call has failed depends on all that stand before it.
  induction calls using List.reverseRecOn with
  | nil =>
    refine ⟨List.nodup_nil, fun name => iff_of_false List.not_mem_nil ?_, fun name => ?_,
      fun m hm => ?_⟩
    · rintro ⟨front, hfront, -⟩
      exact List.append_ne_nil_of_right_ne_nil front (List.cons_ne_nil _ _)
        (List.prefix_nil.1 hfront)
    · exact iff_of_false List.not_mem_nil List.not_mem_nil
    · cases hm
  | append_singleton calls c ih =>
    rw [after_concat]
    exact ih.step c

/-- No call takes a name back or moves it. -/
theorem names_prefix_after (calls more : List Call) :
    (after calls).names <+: (after (calls ++ more)).names := by
  induction more using List.reverseRecOn with
  | nil => rw [List.append_nil]
  | append_singleton more c ih =>
    rw [← List.append_assoc, after_concat]
    exact ih.trans (effect_step _ c).kept

/-! Modules and their names. -/

theorem lookup?_eq_some_iff_get? (hnodup : g.names.Nodup) :
    g.lookup? name = some id ↔ ∃ m, g.get? id = some m ∧ m.name = name := by
  rw [lookup?_eq_some_iff hnodup]
  constructor
  · rintro ⟨index, hindex, rfl⟩
    rw [names, List.getElem?_map] at hindex
    rw [get?_declared]
    exact Option.map_eq_some_iff.1 hindex
  · rintro ⟨m, hget, hname⟩
    cases id with
    | global =>
      rw [get?_global] at hget
      cases hget
    | declared index =>
      rw [get?_declared] at hget
      refine ⟨index, ?_, rfl⟩
      rw [names, List.getElem?_map]
      exact Option.map_eq_some_iff.2 ⟨m, hget, hname⟩

theorem lookup?_ne_global (g : ModuleGraph) (name : String) : g.lookup? name ≠ some .global := by
  intro hlookup
  obtain ⟨index, m, hid, -⟩ := g.sound.exists_of_lookup? hlookup
  cases hid

theorem exists_lookup?_iff : (∃ id, g.lookup? name = some id) ↔ name ∈ g.names := by
  rw [← not_iff_not, ← lookup?_eq_none_iff, Option.eq_none_iff_forall_ne_some, not_exists]

theorem lookup?_of_prefix (h : g.names <+: g'.names) (hnodup : g.names.Nodup)
    (hnodup' : g'.names.Nodup) (hid : g.lookup? name = some id) : g'.lookup? name = some id := by
  obtain ⟨index, hindex, rfl⟩ := (lookup?_eq_some_iff hnodup).1 hid
  obtain ⟨later, hlater⟩ := h
  refine (lookup?_eq_some_iff hnodup').2 ⟨index, ?_, rfl⟩
  rw [← hlater, List.getElem?_append_left (List.getElem?_eq_some_iff.1 hindex).1, hindex]

/-- The record of a module keeps all but its flag. -/
theorem record_of_prefix (h : g.names <+: g'.names) {m : ModuleRecord}
    (hm : g.toModuleStore.get? id = some m) :
    ∃ m', g'.toModuleStore.get? id = some m' ∧ m'.id = m.id ∧ m'.name = m.name ∧
      m'.isGlobal = m.isGlobal := by
  cases id with
  | global =>
    rw [store_get?_global] at hm
    cases hm
    exact ⟨.sentinel, g'.store_get?_global, rfl, rfl, rfl⟩
  | declared index =>
    rw [store_get?_declared] at hm
    obtain ⟨module, hmodule, rfl⟩ := Option.map_eq_some_iff.1 hm
    have hname : g.names[index]? = some module.name := by
      rw [names, List.getElem?_map, hmodule, Option.map_some]
    obtain ⟨later, hlater⟩ := h
    have hname' : g'.names[index]? = some module.name := by
      rw [← hlater, List.getElem?_append_left (List.getElem?_eq_some_iff.1 hname).1, hname]
    rw [names, List.getElem?_map] at hname'
    obtain ⟨module', hmodule', hsame⟩ := Option.map_eq_some_iff.1 hname'
    refine ⟨module'.record index, ?_, rfl, hsame, rfl⟩
    rw [store_get?_declared, hmodule', Option.map_some]

/-- A declaration that succeeds gives the module which the name is found under from then on. -/
theorem lookup?_of_declare (h : (g.declare name).2 = .ok id) :
    (g.declare name).1.lookup? name = some id := by
  by_cases hmem : name ∈ g.entities
  · rw [declare_of_mem hmem] at h
    cases h
  · obtain ⟨g', id', hdeclare, hlookup, -⟩ := declare_of_not_mem hmem
    rw [hdeclare] at h ⊢
    cases h
    exact hlookup

/-- A record that is not that of the global module tells of a declared module. -/
theorem get?_of_store {m : ModuleRecord} (hm : g.toModuleStore.get? id = some m)
    (hglobal : m.isGlobal = false) : g.get? id = some m.toModule := by
  rw [get?, hm, Option.filter_some, hglobal]
  rfl

theorem exists_record_of_get? {m : Module} (hm : g.get? id = some m) :
    ∃ r, g.toModuleStore.get? id = some r ∧ r.isGlobal = false ∧ r.toModule = m := by
  obtain ⟨r, hr, rfl⟩ := Option.map_eq_some_iff.1 hm
  obtain ⟨hr, hglobal⟩ := Option.filter_eq_some_iff.1 hr
  exact ⟨r, hr, by simpa using hglobal, rfl⟩

/-- A name finds just the record of the declared module that is called so. -/
theorem lookup?_eq_some_iff_record (hnodup : g.names.Nodup) : g.lookup? name = some id ↔
    ∃ r, g.toModuleStore.get? id = some r ∧ r.isGlobal = false ∧ r.name = name := by
  rw [lookup?_eq_some_iff_get? hnodup]
  constructor
  · rintro ⟨_, hm, rfl⟩
    obtain ⟨r, hr, hglobal, rfl⟩ := exists_record_of_get? hm
    exact ⟨r, hr, hglobal, rfl⟩
  · rintro ⟨r, hr, hglobal, rfl⟩
    exact ⟨_, get?_of_store hr hglobal, rfl⟩

theorem mem_modules_of_get? {m : Module} (hm : g.get? id = some m) : m ∈ g.modules := by
  cases id with
  | global =>
    rw [get?_global] at hm
    cases hm
  | declared index =>
    rw [get?_declared] at hm
    exact List.mem_of_getElem? hm

end ModuleGraph

namespace ModuleStore

variable {calls : List Call}

/-- What can be told of the modules from the calls. -/
structure Consistent (calls : List Call) : Prop where
  /-- The map leads from the name of each declared module to its id and from no other name, and from
  no name twice. -/
  mapped : ∀ name id, (name, id) ∈ (after calls).byName.entries ↔
    ∃ m ∈ (after calls).arena.tail, m.name = name ∧ m.id = id
  nodup : ((after calls).byName.entries.map Prod.fst).Nodup
  /-- The id of a declared module is its place. -/
  placed : ∀ (index : Nat) (m : ModuleRecord), (after calls).arena[index + 1]? = some m →
    m.id = .declared index ∧ m.isGlobal = false
  distinct : ((after calls).arena.tail.map ModuleRecord.name).Nodup
  found : ∀ name id, (after calls).lookup? name = some id ↔
    ∃ m, (after calls).get? id = some m ∧ m.isGlobal = false ∧ m.name = name
  declared : ∀ name, (∃ id, (after calls).lookup? name = some id) ↔ Declared calls name
  given : ∀ name id, ((after calls).declare name).2 = .ok id →
    (after (calls ++ [.declare name])).lookup? name = some id
  /-- What a name has been given to and what a module is called is so ever after. -/
  kept : ∀ more, (∀ name id, (after calls).lookup? name = some id →
      (after (calls ++ more)).lookup? name = some id) ∧
    ∀ id m, (after calls).get? id = some m → ∃ m', (after (calls ++ more)).get? id = some m' ∧
      m'.id = m.id ∧ m'.name = m.name ∧ m'.isGlobal = m.isGlobal
  /-- The record of the global module is what it was at the start, and no name finds it. -/
  global : (after calls).get? .global = some .sentinel ∧
    ∀ name, (after calls).lookup? name ≠ some .global
  unresolved : ∀ id m, (after calls).get? id = some m → m.isGlobal = false →
    (m.isUnresolved = true ↔ .register m.name ∈ calls)
  declaring : ∀ name, (after calls).conflict? (.declare name) =
    if .register name ∈ calls then some ⟨name⟩ else none
  registering : ∀ name, (after calls).conflict? (.register name) =
    if Declared calls name then some ⟨name⟩ else none
  unchanged : ∀ name, (after calls).conflict? (.declare name) ≠ none →
    after (calls ++ [.declare name]) = after calls

theorem names_tail (calls : List Call) :
    (after calls).arena.tail.map ModuleRecord.name = (ModuleGraph.after calls).names := by
  rw [ModuleGraph.names, ModuleGraph.modules, List.map_map]
  rfl

theorem consistent_after (calls : List Call) : Consistent calls := by
  have hsound := sound_after calls
  have h := ModuleGraph.records_after calls
  have hdistinct : ((after calls).arena.tail.map ModuleRecord.name).Nodup := by
    rw [names_tail]
    exact h.nodup
  constructor
  case mapped =>
    intro name id
    rw [hsound.indexed, ← List.map_tail, List.mem_map]
    simp only [Prod.mk.injEq]
  case nodup =>
    rw [hsound.indexed, ← List.map_tail, List.map_map]
    exact hdistinct
  case placed => exact hsound.numbered
  case distinct => exact hdistinct
  case found =>
    intro name id
    exact ModuleGraph.lookup?_eq_some_iff_record (g := .after calls) h.nodup
  case declared =>
    intro name
    exact ModuleGraph.exists_lookup?_iff.trans (h.names name)
  case given =>
    intro name id hid
    rw [after_concat]
    exact ModuleGraph.lookup?_of_declare (g := .after calls) hid
  case kept =>
    intro more
    have hnames := ModuleGraph.names_prefix_after calls more
    have hmore := ModuleGraph.records_after (calls ++ more)
    exact ⟨fun name id hid => ModuleGraph.lookup?_of_prefix hnames h.nodup hmore.nodup hid,
      fun id m hm => ModuleGraph.record_of_prefix hnames hm⟩
  case global =>
    exact ⟨hsound.global, fun name => ModuleGraph.lookup?_ne_global (.after calls) name⟩
  case unresolved =>
    intro id m hm hglobal
    have hget := ModuleGraph.get?_of_store (g := .after calls) hm hglobal
    exact (h.flags _ (ModuleGraph.mem_modules_of_get? hget)).trans (h.entities m.name)
  case declaring =>
    intro name
    have hconflict := ModuleGraph.conflict?_declare (.after calls) name
    rwa [if_congr (h.entities name) rfl rfl] at hconflict
  case registering =>
    intro name
    have hconflict := ModuleGraph.conflict?_register (.after calls) name
    rwa [if_congr (h.names name) rfl rfl] at hconflict
  case unchanged =>
    intro name hfails
    rw [after_concat]
    exact congrArg ModuleGraph.toModuleStore (h.flags.step_of_conflict? hfails)

/-- A declaration that has failed takes no name, so it is no reason for a later registration to
fail. -/
theorem not_fails_after_failed_declaration :
    ¬ ∀ (calls : List Call) (name : String),
      (.register name ∈ calls → (after calls).conflict? (.declare name) ≠ none) ∧
        (.declare name ∈ calls → (after calls).conflict? (.register name) ≠ none) := by
  intro h
  exact (h [.register "X", .declare "X"] "X").2 (by decide) (by decide)

/-- A declared module may be called like the global one, and is another. -/
example : (after [.declare "<global>", .register "<global>"]).lookup? "<global>" =
      some (.declared 0) ∧
    (after [.declare "<global>", .register "<global>"]).get? .global = some .sentinel := by
  decide

/-! The modules of a program come of calls, so what is told of all calls is told of every
program. -/

def Reached (g : ModuleStore) : Prop := ∃ calls, g = after calls

theorem Reached.step {g : ModuleStore} (h : g.Reached) (c : Call) : (g.step c).Reached := by
  obtain ⟨calls, rfl⟩ := h
  exact ⟨calls ++ [c], (after_concat calls c).symm⟩

theorem Reached.addUnit {g : ModuleGraph} (h : g.toModuleStore.Reached) (index : Nat)
    (unit : CompilationUnit) : (g.addUnit index unit).toModuleStore.Reached := by
  have hdefinitions : (unit.definitions.foldl
      (fun g definition => (g.declare definition.name).1) g).toModuleStore.Reached :=
    List.foldlRecOn (motive := fun g : ModuleGraph => g.toModuleStore.Reached) _ _ h
      fun g hg definition _ => hg.step (.declare definition.name)
  unfold ModuleGraph.addUnit
  generalize unit.definitions.foldl (fun g definition => (g.declare definition.name).1) g = defined
    at hdefinitions ⊢
  dsimp only
  split
  · exact hdefinitions
  · next directive _ =>
    have hdirective : (defined.declare directive.name).1.toModuleStore.Reached :=
      hdefinitions.step (.declare directive.name)
    split
    · next heq =>
      rw [heq] at hdirective
      exact hdirective.step (.enter ..)
    · next heq =>
      rw [heq] at hdirective
      exact hdirective

theorem Reached.declareSymbol {c : Collection} (h : c.modules.toModuleStore.Reached)
    (sources : SourceMap) (unit : Nat) (d : Declaration) :
    (c.declare sources unit d).modules.toModuleStore.Reached := by
  have hregistered : (c.modules.registerEntity d.name).1.toModuleStore.Reached :=
    h.step (.register d.name)
  unfold Collection.declare
  dsimp only
  split
  · split
    · next heq =>
      rw [heq] at hregistered
      exact hregistered
    · next heq =>
      rw [heq] at hregistered
      exact hregistered
  · split
    · exact h
    · exact h

theorem reached_ofUnits (sources : SourceMap) (units : List CompilationUnit) :
    (Collection.ofUnits sources units).modules.toModuleStore.Reached := by
  have hmodules : (ModuleGraph.ofUnits units).toModuleStore.Reached :=
    List.foldlRecOn (motive := fun g : ModuleGraph => g.toModuleStore.Reached) _ _ ⟨[], rfl⟩
      fun _ hg _ _ => hg.addUnit _ _
  refine List.foldlRecOn (motive := fun c : Collection => c.modules.toModuleStore.Reached) _ _
    hmodules fun c hc _ _ => ?_
  exact List.foldlRecOn (motive := fun c : Collection => c.modules.toModuleStore.Reached) _ _ hc
    fun c hc _ _ => hc.declareSymbol sources _ _

end ModuleStore
end ModuleVisibility
