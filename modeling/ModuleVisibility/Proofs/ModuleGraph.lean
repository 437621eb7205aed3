import Mathlib.Data.List.Nodup
import ModuleVisibility.Program.Module

/-!
A graph of modules as its declared modules, the names that are taken and the memberships: these
three determine it, they answer every question, and each operation is told by what it makes of them.
-/
namespace ModuleVisibility

namespace Module

def markUnresolved (m : Module) : Module := { m with isUnresolved := true }

/-- The record of a declared module. -/
def record (m : Module) (index : Nat) : ModuleRecord :=
  ⟨.declared index, m.name, false, m.isUnresolved⟩

/-- Modules in which the first one of a name is unresolved. -/
def markNamed (modules : List Module) (name : String) : List Module :=
  match modules.findIdx? (·.name == name) with
  | some index => modules.modify index markUnresolved
  | none => modules

/-- Only the flag of a module changes, and only if the module has the name. -/
theorem of_mem_markNamed {modules : List Module} {name : String} {m : Module}
    (h : m ∈ markNamed modules name) :
    m ∈ modules ∨ ∃ old ∈ modules, old.name = name ∧ m = old.markUnresolved := by
  unfold markNamed at h
  split at h
  · next index hindex =>
    obtain ⟨hlt, hname, -⟩ := List.findIdx?_eq_some_iff_getElem.1 hindex
    obtain ⟨place, hplace⟩ := List.mem_iff_getElem?.1 h
    rw [List.getElem?_modify] at hplace
    obtain ⟨old, hold, rfl⟩ := Option.map_eq_some_iff.1 hplace
    have hmem : old ∈ modules := List.mem_of_getElem? hold
    split
    · next hsame =>
      subst hsame
      rw [List.getElem?_eq_getElem hlt] at hold
      cases hold
      exact .inr ⟨_, hmem, beq_iff_eq.1 hname, rfl⟩
    · exact .inl hmem
  · exact .inl h

theorem length_markNamed (modules : List Module) (name : String) :
    (markNamed modules name).length = modules.length := by
  unfold markNamed
  split
  · exact List.length_modify ..
  · rfl

theorem names_markNamed (modules : List Module) (name : String) :
    (markNamed modules name).map Module.name = modules.map Module.name := by
  unfold markNamed
  split
  · exact map_modify_of_eq markUnresolved (fun _ => rfl) _ _
  · rfl

theorem markNamed_eq_self {modules : List Module} {name : String}
    (h : ∀ m ∈ modules, m.name = name → m.isUnresolved = true) :
    markNamed modules name = modules := by
  unfold markNamed
  split
  · next index hindex =>
    obtain ⟨hlt, hname, -⟩ := List.findIdx?_eq_some_iff_getElem.1 hindex
    have hmarked : modules[index].markUnresolved = modules[index] := by
      rw [markUnresolved, ← h _ (List.getElem_mem hlt) (beq_iff_eq.1 hname)]
    refine List.ext_getElem? fun place => ?_
    rw [List.getElem?_modify]
    by_cases hplace : index = place
    · subst hplace
      rw [List.getElem?_eq_getElem hlt, Option.map_eq_map, Option.map_some, if_pos rfl, hmarked]
    · simp [hplace]
  · rfl

/-- Where all names are different, every module of the name is unresolved. -/
theorem markNamed_of_nodup {modules : List Module} (h : (modules.map Module.name).Nodup)
    (name : String) : markNamed modules name =
      modules.map fun m => if m.name = name then m.markUnresolved else m := by
  refine List.ext_getElem? fun place => ?_
  rw [List.getElem?_map, markNamed]
  cases hindex : modules.findIdx? (·.name == name) with
  | none =>
    cases hm : modules[place]? with
    | none => rfl
    | some m =>
      have hother := List.findIdx?_eq_none_iff.1 hindex m (List.mem_of_getElem? hm)
      rw [Option.map_some, if_neg (beq_eq_false_iff_ne.1 hother)]
  | some index =>
    obtain ⟨hlt, hname, -⟩ := List.findIdx?_eq_some_iff_getElem.1 hindex
    rw [List.getElem?_modify]
    cases hm : modules[place]? with
    | none => rfl
    | some m =>
      have hsame : index = place ↔ m.name = name := by
        rw [← List.getElem?_inj (by simpa using hlt) h, List.getElem?_map, List.getElem?_map, hm,
          List.getElem?_eq_getElem hlt, Option.map_some, Option.map_some, beq_iff_eq.1 hname,
          Option.some.injEq, eq_comm]
      simp only [Option.map_eq_map, Option.map_some, hsame]

end Module

namespace ModuleGraph

variable {g g' : ModuleGraph} {name : String} {id : ModuleId}

/-! Questions. -/

theorem arena_eq (g : ModuleGraph) :
    g.arena = .sentinel :: g.modules.zipIdx.map fun (m, index) => m.record index := by
  refine List.ext_getElem? fun place => ?_
  cases place with
  | zero => exact g.sound.global
  | succ index =>
    rw [List.getElem?_cons_succ, List.getElem?_map, List.getElem?_zipIdx, modules,
      List.getElem?_map, List.getElem?_tail]
    cases hm : g.arena[index + 1]? with
    | none => rfl
    | some m =>
      obtain ⟨hid, hglobal⟩ := g.sound.numbered index m hm
      obtain ⟨id, name, isGlobal, isUnresolved⟩ := m
      simp only at hid hglobal
      simp [hid, hglobal, Module.record, ModuleRecord.toModule]

/-- The record of a declared module tells the name and the flag. -/
theorem store_get?_declared (g : ModuleGraph) (index : Nat) :
    g.toModuleStore.get? (.declared index) = g.modules[index]?.map (·.record index) := by
  rw [ModuleStore.get?, arena_eq, ModuleId.number, List.getElem?_cons_succ, List.getElem?_map,
    List.getElem?_zipIdx, Option.map_map]
  simp [Function.comp_def]

theorem store_get?_global (g : ModuleGraph) : g.toModuleStore.get? .global = some .sentinel :=
  g.sound.global

@[simp] theorem get?_global (g : ModuleGraph) : g.get? .global = none := by
  rw [get?, store_get?_global]
  rfl

@[simp] theorem get?_declared (g : ModuleGraph) (index : Nat) :
    g.get? (.declared index) = g.modules[index]? := by
  rw [get?, store_get?_declared]
  cases g.modules[index]? <;> rfl

@[simp] theorem name_global (g : ModuleGraph) : g.name .global = ModuleId.globalName := by
  rw [name, store_get?_global]
  rfl

theorem name_declared (g : ModuleGraph) (index : Nat) :
    g.name (.declared index) = (g.modules[index]?.map Module.name).getD "" := by
  rw [name, store_get?_declared, Option.map_map]
  rfl

theorem scopesInternal_eq (g : ModuleGraph) (id : ModuleId) :
    g.scopesInternal id = (g.get? id).any (!·.isUnresolved) := by
  cases id with
  | global =>
    rw [scopesInternal, store_get?_global, get?_global]
    rfl
  | declared index =>
    rw [scopesInternal, store_get?_declared, get?_declared]
    cases g.modules[index]? <;> rfl

/-- Among numbered modules a name has the number of the first one that it is the name of. -/
theorem lookup_zipIdx (modules : List Module) (start : Nat) (name : String) :
    ((modules.zipIdx start).map fun (m, index) => (m.name, ModuleId.declared index)).lookup name =
      (modules.findIdx? (·.name == name)).map fun index => .declared (index + start) := by
  induction modules generalizing start with
  | nil => rfl
  | cons m rest ih =>
    rw [List.zipIdx_cons, List.map_cons, List.lookup_cons, ih, List.findIdx?_cons]
    by_cases hname : m.name = name
    · simp [hname]
    · have hother : (name == m.name) = false := beq_eq_false_iff_ne.2 (Ne.symm hname)
      simp only [hother, beq_eq_false_iff_ne.2 hname, Bool.false_eq_true, if_false, Option.map_map]
      congr 1
      funext index
      simp only [Function.comp_apply, ModuleId.declared.injEq]
      omega

theorem lookup?_eq (g : ModuleGraph) (name : String) :
    g.lookup? name = (g.modules.findIdx? (·.name == name)).map .declared := by
  have hentries : g.byName.entries =
      g.modules.zipIdx.map fun (m, index) => (m.name, ModuleId.declared index) := by
    rw [g.sound.indexed, arena_eq, List.map_cons, List.tail_cons, List.map_map]
    rfl
  have hlookup : g.lookup? name = g.byName.entries.lookup name := rfl
  rw [hlookup, hentries, lookup_zipIdx]
  rfl

/-! Questions by name. -/

/-- The names of the declared modules, in order. -/
def names (g : ModuleGraph) : List String := g.modules.map Module.name

theorem lookup?_eq_none_iff : g.lookup? name = none ↔ name ∉ g.names := by
  rw [lookup?_eq, names, Option.map_eq_none_iff, List.findIdx?_eq_none_iff]
  simp only [beq_eq_false_iff_ne, List.mem_map, not_exists, not_and, ne_eq]

theorem isSome_lookup? (h : name ∈ g.names) : (g.lookup? name).isSome := by
  rw [Option.isSome_iff_ne_none]
  exact fun hnone => lookup?_eq_none_iff.1 hnone h

theorem lookup?_eq_some_iff (hnodup : g.names.Nodup) : g.lookup? name = some id ↔
    ∃ index : Nat, g.names[index]? = some name ∧ id = .declared index := by
  rw [lookup?_eq]
  unfold names at *
  rw [Option.map_eq_some_iff]
  constructor
  · rintro ⟨index, hindex, rfl⟩
    obtain ⟨hlt, hname, _⟩ := List.findIdx?_eq_some_iff_getElem.1 hindex
    refine ⟨index, ?_, rfl⟩
    rw [List.getElem?_map, List.getElem?_eq_getElem hlt, Option.map_some]
    exact congrArg some (by simpa using hname)
  · rintro ⟨index, hindex, rfl⟩
    obtain ⟨hlt, hname⟩ := List.getElem?_eq_some_iff.1 hindex
    have hlt' : index < g.modules.length := by simpa using hlt
    refine ⟨index, List.findIdx?_eq_some_iff_getElem.2 ⟨hlt', ?_, fun j hj => ?_⟩, rfl⟩
    · simpa using hname
    · have hne := (List.nodup_iff_getElem?_ne_getElem?.1 hnodup) j index hj hlt
      rw [hindex, List.getElem?_map, List.getElem?_eq_getElem (Nat.lt_trans hj hlt')] at hne
      simpa using hne

/-- Only the names count. -/
theorem lookup?_congr (h : g'.names = g.names) (name : String) :
    g'.lookup? name = g.lookup? name := by
  have hnames : ∀ g : ModuleGraph, g.lookup? name =
      (g.names.findIdx? (· == name)).map ModuleId.declared := by
    intro g
    rw [lookup?_eq, names, List.findIdx?_map]
    rfl
  rw [hnames, hnames, h]

/-! The three parts. -/

/-- Graphs that have the same parts are the same. -/
theorem eq_of_parts (hmodules : g.modules = g'.modules) (hentities : g.entities = g'.entities)
    (hmemberships : g.memberships = g'.memberships) : g = g' := by
  have harena : g.arena = g'.arena := by rw [arena_eq, arena_eq, hmodules]
  have hnames : g.byName = g'.byName := by
    have hentries : g.byName.entries = g'.byName.entries := by
      rw [g.sound.indexed, g'.sound.indexed, harena]
    exact congrArg NameMap.mk hentries
  obtain ⟨⟨arena, byName, entities, memberships⟩, sound⟩ := g
  cases harena
  cases hnames
  cases hentities
  cases hmemberships
  rfl

/-- The graph of these parts. -/
def ofParts (modules : List Module) (entities : List String) (memberships : List Membership) :
    ModuleGraph where
  arena := .sentinel :: modules.zipIdx.map fun (m, index) => m.record index
  byName := ⟨modules.zipIdx.map fun (m, index) => (m.name, .declared index)⟩
  entities := entities
  memberships := memberships
  sound := by
    constructor
    · rfl
    · intro index r hr
      rw [List.getElem?_cons_succ, List.getElem?_map, List.getElem?_zipIdx] at hr
      obtain ⟨p, hp, rfl⟩ := Option.map_eq_some_iff.1 hr
      obtain ⟨m, -, rfl⟩ := Option.map_eq_some_iff.1 hp
      simp [Module.record]
    · rw [List.map_cons, List.tail_cons, List.map_map]
      rfl

@[simp] theorem modules_ofParts (modules : List Module) (entities : List String)
    (memberships : List Membership) : (ofParts modules entities memberships).modules = modules := by
  rw [ModuleGraph.modules, ofParts, List.tail_cons, List.map_map]
  exact List.zipIdx_map_fst 0 modules

@[simp] theorem entities_ofParts (modules : List Module) (entities : List String)
    (memberships : List Membership) :
    (ofParts modules entities memberships).entities = entities := rfl

@[simp] theorem memberships_ofParts (modules : List Module) (entities : List String)
    (memberships : List Membership) :
    (ofParts modules entities memberships).memberships = memberships := rfl

/-! Operations. -/

/-- Marking the record of a declared module marks the module. -/
theorem map_tail_markUnresolved (g : ModuleGraph) (index : Nat) :
    (g.toModuleStore.markUnresolved (.declared index)).arena.tail.map ModuleRecord.toModule =
      g.modules.modify index Module.markUnresolved := by
  rw [ModuleStore.markUnresolved, ModuleId.number, arena_eq, List.modify_succ_cons, List.tail_cons]
  refine List.ext_getElem? fun place => ?_
  rw [List.getElem?_map, List.getElem?_modify, List.getElem?_modify, List.getElem?_map,
    List.getElem?_zipIdx]
  cases g.modules[place]? with
  | none => rfl
  | some m =>
    by_cases hplace : index = place
    · simp [hplace, Module.record, ModuleRecord.markUnresolved, ModuleRecord.toModule,
        Module.markUnresolved]
    · simp [hplace, Module.record, ModuleRecord.toModule]

theorem map_tail_markNamed (g : ModuleGraph) (name : String) :
    (g.toModuleStore.markNamed name).arena.tail.map ModuleRecord.toModule =
      Module.markNamed g.modules name := by
  have hlookup : g.toModuleStore.lookup? name = _ := g.lookup?_eq name
  rw [ModuleStore.markNamed, hlookup, Module.markNamed]
  cases g.modules.findIdx? (·.name == name) with
  | none => rfl
  | some index => exact g.map_tail_markUnresolved index

/-- What declaring makes of the store it makes of the parts. -/
theorem declare_of_store {s : ModuleStore} {answer : Except ModuleConflict ModuleId}
    (h : g.toModuleStore.declare name = (s, answer)) : g.declare name =
      (ofParts (s.arena.tail.map ModuleRecord.toModule) s.entities s.memberships, answer) := by
  obtain rfl : (g.toModuleStore.declare name).1 = s := by rw [h]
  obtain rfl : (g.toModuleStore.declare name).2 = answer := by rw [h]
  exact Prod.ext (eq_of_parts (modules_ofParts ..).symm rfl rfl) rfl

theorem registerEntity_of_store {s : ModuleStore} {answer : Except ModuleConflict Unit}
    (h : g.toModuleStore.registerEntity name = (s, answer)) : g.registerEntity name =
      (ofParts (s.arena.tail.map ModuleRecord.toModule) s.entities s.memberships, answer) := by
  obtain rfl : (g.toModuleStore.registerEntity name).1 = s := by rw [h]
  obtain rfl : (g.toModuleStore.registerEntity name).2 = answer := by rw [h]
  exact Prod.ext (eq_of_parts (modules_ofParts ..).symm rfl rfl) rfl

/-- A name that another declaration has taken is refused. -/
theorem declare_of_mem (h : name ∈ g.entities) : g.declare name =
    (ofParts (Module.markNamed g.modules name) g.entities g.memberships, .error ⟨name⟩) := by
  have hrefused : g.toModuleStore.declare name =
      (g.toModuleStore.markNamed name, .error ⟨name⟩) := by
    rw [ModuleStore.declare, if_pos h]
  have hkept : (g.toModuleStore.markNamed name).entities = g.entities ∧
      (g.toModuleStore.markNamed name).memberships = g.memberships := by
    unfold ModuleStore.markNamed
    split
    · exact ⟨rfl, rfl⟩
    · exact ⟨rfl, rfl⟩
  rw [declare_of_store hrefused, map_tail_markNamed, hkept.1, hkept.2]

theorem declare_of_lookup?_eq_some (h : name ∉ g.entities) (hid : g.lookup? name = some id) :
    g.declare name = (g, .ok id) := by
  have hfound : g.toModuleStore.declare name = (g.toModuleStore, .ok id) := by
    have hstore : g.toModuleStore.lookup? name = some id := hid
    rw [ModuleStore.declare, if_neg h, hstore]
  rw [declare_of_store hfound]
  exact congrArg (·, _) (eq_of_parts (modules_ofParts ..) rfl rfl)

theorem declare_of_lookup?_eq_none (h : name ∉ g.entities) (hnew : g.lookup? name = none) :
    g.declare name = (ofParts (g.modules ++ [⟨name, false⟩]) g.entities g.memberships,
      .ok (.declared g.modules.length)) := by
  have hlength : g.arena.length = g.modules.length + 1 := by
    rw [arena_eq, List.length_cons, List.length_map, List.length_zipIdx]
  have hadded : g.toModuleStore.declare name =
      (g.toModuleStore.add name, .ok (.declared g.modules.length)) := by
    have hstore : g.toModuleStore.lookup? name = none := hnew
    rw [ModuleStore.declare, if_neg h, hstore, hlength]
    rfl
  have hnonempty : g.arena ≠ [] := List.ne_nil_of_length_eq_add_one hlength
  rw [declare_of_store hadded, ModuleStore.add, List.tail_append_of_ne_nil hnonempty,
    List.map_append]
  rfl

theorem registerEntity_eq (g : ModuleGraph) (name : String) : g.registerEntity name =
    (ofParts (Module.markNamed g.modules name) (name :: g.entities) g.memberships,
      if name ∈ g.names then .error ⟨name⟩ else .ok ()) := by
  have hlookup : g.toModuleStore.lookup? name = _ := g.lookup?_eq name
  have hmem : name ∈ g.names ↔ g.modules.findIdx? (·.name == name) ≠ none := by
    rw [← not_iff_not, ← lookup?_eq_none_iff, lookup?_eq, Option.map_eq_none_iff, not_not]
  rw [Module.markNamed]
  cases hindex : g.modules.findIdx? (·.name == name) with
  | none =>
    have htaken : g.toModuleStore.registerEntity name = (g.toModuleStore.take name, .ok ()) := by
      rw [ModuleStore.registerEntity, hlookup, hindex]
      rfl
    rw [registerEntity_of_store htaken, if_neg (by simp [hmem, hindex])]
    rfl
  | some index =>
    have hmarked : g.toModuleStore.registerEntity name =
        ((g.toModuleStore.take name).markUnresolved (.declared index), .error ⟨name⟩) := by
      rw [ModuleStore.registerEntity, hlookup, hindex]
      rfl
    have hmodules : ((g.toModuleStore.take name).markUnresolved (.declared index)).arena =
        (g.toModuleStore.markUnresolved (.declared index)).arena := rfl
    rw [registerEntity_of_store hmarked, hmodules, map_tail_markUnresolved,
      if_pos (by simp [hmem, hindex])]
    rfl

end ModuleGraph
end ModuleVisibility
