import ModuleVisibility.Program.Module

/-!
The symbols of a program: one record for each name that is declared at top level, numbered in the
order of declaration. A store keeps the records by number and the numbers by name, and a table is a
store in which the two fit.
-/
namespace ModuleVisibility

/-- The number of a symbol. -/
structure SymbolId where
  index : Nat
  deriving DecidableEq

/-- A declaration with its module and unit. An unresolved one is open to everyone, since what it
is has been reported as an error. -/
structure Symbol where
  name : String
  home : ModuleId
  visibility : Visibility
  unit : Nat
  span : Span
  content : DeclarationContent
  isUnresolved : Bool
  deriving DecidableEq

namespace Symbol

/-- The symbol of a declaration. -/
def ofDeclaration (d : Declaration) (home : ModuleId) (unit : Nat) : Symbol :=
  ⟨d.name, home, d.visibility, unit, d.span, d.content, false⟩

def kind (s : Symbol) : SymbolKind := s.content.kind

def uses (s : Symbol) : List UseClause := s.content.uses

def members (s : Symbol) : List Member := s.content.members

def isModuleLevelTrait (s : Symbol) : Bool := s.content.isModuleLevelTrait

/-- The first member of a kind and name that the symbol declares itself, with its index. -/
def member? (s : Symbol) (kind : MemberKind) (name : String) : Option (Nat × Member) :=
  (s.members.zipIdx.find? fun (m, _) => m.kind == kind && m.name == name).map fun (m, i) => (i, m)

end Symbol

/-- A name is declared again. -/
structure DuplicateName where
  name : String
  existing : SymbolId
  deriving DecidableEq

def DuplicateName.message (e : DuplicateName) : String := "'" ++ e.name ++ "' is already declared"

/-- A symbol as it is stored, with the number that it has been given and its kind. -/
structure SymbolRecord where
  id : SymbolId
  kind : SymbolKind
  symbol : Symbol
  deriving DecidableEq

namespace SymbolRecord

def name (r : SymbolRecord) : String := r.symbol.name

def markUnresolved (r : SymbolRecord) : SymbolRecord :=
  { r with symbol := { r.symbol with isUnresolved := true } }

end SymbolRecord

/-- The record of a symbol that is given a number. -/
def Symbol.record (s : Symbol) (id : SymbolId) : SymbolRecord := ⟨id, s.kind, s⟩

/-- The records of the symbols in the order of their numbers, and the number of each name. -/
structure SymbolStore where
  arena : List SymbolRecord
  byName : NameMap SymbolId
  deriving DecidableEq

namespace SymbolStore

def empty : SymbolStore := ⟨[], .empty⟩

def size (t : SymbolStore) : Nat := t.arena.length

/-- The record of a number. -/
def get? (t : SymbolStore) (id : SymbolId) : Option SymbolRecord := t.arena[id.index]?

/-- The number of the symbol of a name. -/
def find? (t : SymbolStore) (name : String) : Option SymbolId := t.byName.get? name

/-- Adds a symbol of a name that is new. -/
def add (t : SymbolStore) (s : Symbol) : SymbolStore :=
  let id : SymbolId := ⟨t.size⟩
  ⟨t.arena ++ [s.record id], t.byName.insert s.name id⟩

/-- Adds a symbol unless its name is declared already. -/
def declare (t : SymbolStore) (s : Symbol) : SymbolStore × Except DuplicateName SymbolId :=
  match t.find? s.name with
  | some existing => (t, .error ⟨s.name, existing⟩)
  | none => (t.add s, .ok ⟨t.size⟩)

/-- Makes a symbol unresolved. -/
def markUnresolved (t : SymbolStore) (id : SymbolId) : SymbolStore :=
  { t with arena := t.arena.modify id.index SymbolRecord.markUnresolved }

/-- The records and the map fit: each record has its place for a number and is found under its
name. -/
structure Sound (t : SymbolStore) : Prop where
  numbered : ∀ (index : Nat) (r : SymbolRecord), t.arena[index]? = some r →
    r = r.symbol.record ⟨index⟩
  indexed : t.byName.entries = t.arena.map fun r => (r.name, r.id)

theorem sound_empty : empty.Sound where
  numbered _ _ h := nomatch h
  indexed := rfl

variable {t : SymbolStore} {s : Symbol}

theorem Sound.add (h : t.Sound) (hnew : t.find? s.name = none) : (t.add s).Sound where
  numbered index r hr := by
    rw [SymbolStore.add, List.getElem?_append] at hr
    split at hr
    · exact h.numbered index r hr
    · next hplace =>
      obtain ⟨hlast, rfl⟩ := List.getElem?_eq_some_iff.1 hr
      have hnumber : t.size = index := by
        simp only [size, List.length_singleton] at hlast ⊢
        omega
      simp [Symbol.record, hnumber]
  indexed := by
    rw [SymbolStore.add, NameMap.entries_insert hnew, h.indexed, List.map_append]
    rfl

theorem Sound.declare (h : t.Sound) (s : Symbol) : (t.declare s).1.Sound := by
  unfold SymbolStore.declare
  split
  · exact h
  · next hnew => exact h.add hnew

theorem Sound.markUnresolved (h : t.Sound) (id : SymbolId) : (t.markUnresolved id).Sound where
  numbered index r hr := by
    rw [SymbolStore.markUnresolved, List.getElem?_modify] at hr
    obtain ⟨old, hold, rfl⟩ := Option.map_eq_some_iff.1 hr
    have hkept := h.numbered index old hold
    split
    · rw [hkept]
      rfl
    · exact hkept
  indexed := by
    have hkeys : (t.markUnresolved id).arena.map (fun r => (r.name, r.id)) =
        t.arena.map fun r => (r.name, r.id) :=
      map_modify_of_eq SymbolRecord.markUnresolved (fun _ => rfl) _ _
    rw [hkeys]
    exact h.indexed

end SymbolStore

/-- The symbols of a program. -/
structure SymbolTable extends SymbolStore where
  sound : toSymbolStore.Sound
  deriving DecidableEq

namespace SymbolTable

def empty : SymbolTable := ⟨.empty, SymbolStore.sound_empty⟩

def size (t : SymbolTable) : Nat := t.toSymbolStore.size

/-- The symbols in order. -/
def symbols (t : SymbolTable) : List Symbol := t.arena.map SymbolRecord.symbol

/-- The symbols with their numbers, in order. -/
def entries (t : SymbolTable) : List (SymbolId × Symbol) := t.arena.map fun r => (r.id, r.symbol)

def get? (t : SymbolTable) (id : SymbolId) : Option Symbol :=
  (t.toSymbolStore.get? id).map SymbolRecord.symbol

/-- The name of a symbol. -/
def name (t : SymbolTable) (id : SymbolId) : String := ((t.get? id).map Symbol.name).getD ""

/-- The number of the symbol of a name. -/
def find? (t : SymbolTable) (name : String) : Option SymbolId := t.toSymbolStore.find? name

/-- The symbol of a name with its number. -/
def lookup? (t : SymbolTable) (name : String) : Option (SymbolId × Symbol) := do
  let id ← t.find? name
  let s ← t.get? id
  return (id, s)

/-- The symbol of a name, if it is of the kind. -/
def lookupKind? (t : SymbolTable) (kind : SymbolKind) (name : String) :
    Option (SymbolId × Symbol) :=
  (t.lookup? name).filter fun (_, s) => s.kind == kind

/-- The numbers of the symbols of a kind, in order. -/
def ofKind (t : SymbolTable) (kind : SymbolKind) : List SymbolId :=
  (t.arena.filter fun r => r.kind == kind).map SymbolRecord.id

/-- Adds a symbol unless its name is declared already. -/
def declare (t : SymbolTable) (s : Symbol) : SymbolTable × Except DuplicateName SymbolId :=
  let answer := t.toSymbolStore.declare s
  (⟨answer.1, t.sound.declare s⟩, answer.2)

/-- Makes a symbol unresolved. -/
def markUnresolved (t : SymbolTable) (id : SymbolId) : SymbolTable :=
  ⟨t.toSymbolStore.markUnresolved id, t.sound.markUnresolved id⟩

end SymbolTable
end ModuleVisibility
