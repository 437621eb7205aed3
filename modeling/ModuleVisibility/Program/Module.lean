import ModuleVisibility.Program.NameMap
import ModuleVisibility.Unit.Basic

/-!
The modules of a program. They are a flat set of names, without hierarchy and imports. What no
directive covers is in the global module, where `internal` has no force; it has none either in a
module whose name some other declaration has taken, which is called unresolved.

A store keeps the modules by number and the ids by name, and a graph is a store in which the two
fit: that is so of a new store, and each operation changes both together.
-/
namespace ModuleVisibility

/-- A module: the global one, or the declared one of that number. -/
inductive ModuleId where
  | global
  | declared (index : Nat)
  deriving DecidableEq

namespace ModuleId

/-- How the global module is shown. -/
def globalName : String := "<global>"

/-- Numbers every module, the global one first. -/
def number : ModuleId → Nat
  | global => 0
  | declared index => index + 1

/-- The module of a number. -/
def ofNumber : Nat → ModuleId
  | 0 => global
  | index + 1 => declared index

end ModuleId

/-- A declared module, as the graph shows it. -/
structure Module where
  name : String
  isUnresolved : Bool
  deriving DecidableEq

/-- A module as it is stored, with the id that it has been given. -/
structure ModuleRecord where
  id : ModuleId
  name : String
  isGlobal : Bool
  isUnresolved : Bool
  deriving DecidableEq

namespace ModuleRecord

/-- The record of the global module, which is there from the start. -/
def sentinel : ModuleRecord := ⟨.global, ModuleId.globalName, true, false⟩

/-- Whether `internal` has force in the module. -/
def scopesInternal (m : ModuleRecord) : Bool := !m.isGlobal && !m.isUnresolved

def markUnresolved (m : ModuleRecord) : ModuleRecord := { m with isUnresolved := true }

def toModule (m : ModuleRecord) : Module := ⟨m.name, m.isUnresolved⟩

end ModuleRecord

/-- The name of a module is that of a declaration as well. -/
structure ModuleConflict where
  name : String
  deriving DecidableEq

namespace ModuleConflict

def message (e : ModuleConflict) : String :=
  "module '" ++ e.name ++ "' conflicts with a non-module declaration of the same name"

end ModuleConflict

/-- From byte `position` on, unit `unit` belongs to `joined`. -/
structure Membership where
  unit : Nat
  joined : ModuleId
  position : Nat
  deriving DecidableEq

/-- The records of the modules in the order of their numbers, the id of each declared name, the
names that other declarations have taken, and what the units have joined, the latest first. -/
structure ModuleStore where
  arena : List ModuleRecord
  byName : NameMap ModuleId
  entities : List String
  memberships : List Membership
  deriving DecidableEq

namespace ModuleStore

/-- The global module is there, and no name finds it. -/
def empty : ModuleStore := ⟨[.sentinel], .empty, [], []⟩

/-- The record of a module. -/
def get? (g : ModuleStore) (id : ModuleId) : Option ModuleRecord := g.arena[id.number]?

/-- The declared module of a name. -/
def lookup? (g : ModuleStore) (name : String) : Option ModuleId := g.byName.get? name

/-- Makes a module unresolved. -/
def markUnresolved (g : ModuleStore) (id : ModuleId) : ModuleStore :=
  { g with arena := g.arena.modify id.number ModuleRecord.markUnresolved }

/-- Makes the module of a name unresolved, if there is one. -/
def markNamed (g : ModuleStore) (name : String) : ModuleStore :=
  match g.lookup? name with
  | some id => g.markUnresolved id
  | none => g

/-- Adds a module of a name that is new. -/
def add (g : ModuleStore) (name : String) : ModuleStore :=
  let id := ModuleId.ofNumber g.arena.length
  { g with arena := g.arena ++ [⟨id, name, false, false⟩], byName := g.byName.insert name id }

/-- Records a name that is no module's. -/
def take (g : ModuleStore) (name : String) : ModuleStore :=
  { g with entities := name :: g.entities }

/-- Declares a module; a second declaration of a name gives the module of the first. -/
def declare (g : ModuleStore) (name : String) : ModuleStore × Except ModuleConflict ModuleId :=
  if name ∈ g.entities then (g.markNamed name, .error ⟨name⟩)
  else
    match g.lookup? name with
    | some id => (g, .ok id)
    | none => (g.add name, .ok (ModuleId.ofNumber g.arena.length))

/-- Records the name of a declaration that is no module. -/
def registerEntity (g : ModuleStore) (name : String) : ModuleStore × Except ModuleConflict Unit :=
  match g.lookup? name with
  | some id => ((g.take name).markUnresolved id, .error ⟨name⟩)
  | none => (g.take name, .ok ())

/-- Puts what stands behind `position` in a unit into a module. -/
def enter (g : ModuleStore) (unit : Nat) (id : ModuleId) (position : Nat) : ModuleStore :=
  { g with memberships := ⟨unit, id, position⟩ :: g.memberships }

/-- The records and the map fit: the first record is that of the global module, each other one has
its place for an id and is found under its name. -/
structure Sound (g : ModuleStore) : Prop where
  global : g.arena[0]? = some .sentinel
  numbered : ∀ index m, g.arena[index + 1]? = some m → m.id = .declared index ∧ m.isGlobal = false
  indexed : g.byName.entries = (g.arena.map fun m => (m.name, m.id)).tail

theorem sound_empty : empty.Sound where
  global := rfl
  numbered _ _ h := nomatch h
  indexed := rfl

variable {g : ModuleStore} {name : String} {id : ModuleId}

/-- A name finds the id of a record other than that of the global module. -/
theorem Sound.exists_of_lookup? (h : g.Sound) (hid : g.lookup? name = some id) :
    ∃ index m, id = .declared index ∧ g.arena[index + 1]? = some m ∧ m.name = name := by
  obtain ⟨before, after, hentries, -⟩ := List.lookup_eq_some_iff.1 hid
  have hmem : (name, id) ∈ (g.arena.map fun m => (m.name, m.id)).tail := by
    rw [← h.indexed, hentries]
    simp
  obtain ⟨index, hindex⟩ := List.mem_iff_getElem?.1 hmem
  rw [List.getElem?_tail, List.getElem?_map] at hindex
  obtain ⟨m, hm, hpair⟩ := Option.map_eq_some_iff.1 hindex
  cases hpair
  exact ⟨index, m, (h.numbered index m hm).1, hm, rfl⟩

theorem Sound.markUnresolved (h : g.Sound) (hid : g.lookup? name = some id) :
    (g.markUnresolved id).Sound := by
  obtain ⟨marked, -, rfl, -⟩ := h.exists_of_lookup? hid
  constructor
  · have hfirst : (g.markUnresolved (.declared marked)).arena[0]? = g.arena[0]? :=
      List.getElem?_modify_ne _ _ (Nat.succ_ne_zero marked)
    rw [hfirst]
    exact h.global
  · intro index m hm
    rw [ModuleStore.markUnresolved, List.getElem?_modify] at hm
    obtain ⟨old, hold, rfl⟩ := Option.map_eq_some_iff.1 hm
    have hkept := h.numbered index old hold
    split
    · exact hkept
    · exact hkept
  · have hkeys : (g.markUnresolved (.declared marked)).arena.map (fun m => (m.name, m.id)) =
        g.arena.map fun m => (m.name, m.id) :=
      map_modify_of_eq ModuleRecord.markUnresolved (fun _ => rfl) _ _
    rw [hkeys]
    exact h.indexed

theorem Sound.markNamed (h : g.Sound) (name : String) : (g.markNamed name).Sound := by
  unfold ModuleStore.markNamed
  split
  · next hid => exact h.markUnresolved hid
  · exact h

theorem Sound.take (h : g.Sound) (name : String) : (g.take name).Sound :=
  ⟨h.global, h.numbered, h.indexed⟩

theorem Sound.add (h : g.Sound) (hnew : g.lookup? name = none) : (g.add name).Sound := by
  have hlength : 0 < g.arena.length := (List.getElem?_eq_some_iff.1 h.global).1
  constructor
  · rw [ModuleStore.add, List.getElem?_append_left hlength]
    exact h.global
  · intro index m hm
    rw [ModuleStore.add, List.getElem?_append] at hm
    split at hm
    · exact h.numbered index m hm
    · next hplace =>
      obtain ⟨hlast, rfl⟩ := List.getElem?_eq_some_iff.1 hm
      have hnumber : g.arena.length = index + 1 := by
        simp only [List.length_singleton] at hlast
        omega
      simp [hnumber, ModuleId.ofNumber]
  · have hfirst : (g.arena.map fun m => (m.name, m.id)) ≠ [] := by
      simpa using List.ne_nil_of_length_pos hlength
    rw [ModuleStore.add, NameMap.entries_insert hnew, h.indexed, List.map_append,
      List.tail_append_of_ne_nil hfirst]
    rfl

theorem Sound.declare (h : g.Sound) (name : String) : (g.declare name).1.Sound := by
  unfold ModuleStore.declare
  split
  · exact h.markNamed name
  · split
    · exact h
    · next hnew => exact h.add hnew

theorem Sound.registerEntity (h : g.Sound) (name : String) : (g.registerEntity name).1.Sound := by
  unfold ModuleStore.registerEntity
  split
  · next hid => exact (h.take name).markUnresolved hid
  · exact h.take name

theorem Sound.enter (h : g.Sound) (unit : Nat) (id : ModuleId) (position : Nat) :
    (g.enter unit id position).Sound :=
  ⟨h.global, h.numbered, h.indexed⟩

end ModuleStore

/-- The modules of a program. -/
structure ModuleGraph extends ModuleStore where
  sound : toModuleStore.Sound
  deriving DecidableEq

namespace ModuleGraph

def empty : ModuleGraph := ⟨.empty, ModuleStore.sound_empty⟩

/-- The declared modules in the order of their declaration. -/
def modules (g : ModuleGraph) : List Module := g.arena.tail.map ModuleRecord.toModule

/-- Every module, the global one first. -/
def ids (g : ModuleGraph) : List ModuleId := g.arena.map ModuleRecord.id

/-- The declared module of a name. -/
def lookup? (g : ModuleGraph) (name : String) : Option ModuleId := g.toModuleStore.lookup? name

/-- A declared module. -/
def get? (g : ModuleGraph) (id : ModuleId) : Option Module :=
  ((g.toModuleStore.get? id).filter fun m => !m.isGlobal).map ModuleRecord.toModule

def name (g : ModuleGraph) (id : ModuleId) : String :=
  ((g.toModuleStore.get? id).map ModuleRecord.name).getD ""

def isUnresolved (g : ModuleGraph) (id : ModuleId) : Bool :=
  (g.toModuleStore.get? id).any ModuleRecord.isUnresolved

/-- Whether `internal` has force in a module. -/
def scopesInternal (g : ModuleGraph) (id : ModuleId) : Bool :=
  (g.toModuleStore.get? id).any ModuleRecord.scopesInternal

/-- Declares a module; a second declaration of a name gives the module of the first. -/
def declare (g : ModuleGraph) (name : String) : ModuleGraph × Except ModuleConflict ModuleId :=
  let answer := g.toModuleStore.declare name
  (⟨answer.1, g.sound.declare name⟩, answer.2)

/-- Records the name of a declaration that is no module. -/
def registerEntity (g : ModuleGraph) (name : String) : ModuleGraph × Except ModuleConflict Unit :=
  let answer := g.toModuleStore.registerEntity name
  (⟨answer.1, g.sound.registerEntity name⟩, answer.2)

/-- Puts what stands behind `position` in a unit into a module. -/
def enter (g : ModuleGraph) (unit : Nat) (id : ModuleId) (position : Nat) : ModuleGraph :=
  ⟨g.toModuleStore.enter unit id position, g.sound.enter unit id position⟩

/-- The module of a place. -/
def moduleAt (g : ModuleGraph) (unit position : Nat) : ModuleId :=
  match g.memberships.find? (·.unit == unit) with
  | some m => if m.position ≤ position then m.joined else .global
  | none => .global

end ModuleGraph
end ModuleVisibility
