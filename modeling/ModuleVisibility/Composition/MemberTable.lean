import ModuleVisibility.Reference.Basic

/-!
Tables of members by kind and name. The entries are in order, methods before constants before
properties and names by their characters, so that a table can be walked in the order of its keys.
-/
namespace ModuleVisibility

/-- What tells members of one class apart. -/
structure MemberKey where
  kind : MemberKind
  name : String
  deriving DecidableEq

/-- Kind first, name second. -/
def MemberKey.lt (a b : MemberKey) : Bool :=
  a.kind.rank < b.kind.rank || (a.kind.rank == b.kind.rank && a.name < b.name)

structure MemberTable (α : Type) where
  entries : List (MemberKey × α)

namespace MemberTable

variable {α β : Type}

def empty : MemberTable α := ⟨[]⟩

def get? (t : MemberTable α) (key : MemberKey) : Option α := t.entries.lookup key

/-- Puts an entry at its place among entries in order, instead of one with its key. -/
def insertEntry (key : MemberKey) (a : α) : List (MemberKey × α) → List (MemberKey × α)
  | [] => [(key, a)]
  | (other, b) :: rest =>
    if key = other then (key, a) :: rest
    else if key.lt other then (key, a) :: (other, b) :: rest
    else (other, b) :: insertEntry key a rest

def insert (t : MemberTable α) (key : MemberKey) (a : α) : MemberTable α :=
  ⟨insertEntry key a t.entries⟩

/-- The table without a key. -/
def erase (t : MemberTable α) (key : MemberKey) : MemberTable α :=
  ⟨t.entries.filter fun (other, _) => other ≠ key⟩

def map (f : α → β) (t : MemberTable α) : MemberTable β :=
  ⟨t.entries.map fun (key, a) => (key, f a)⟩

@[simp] theorem get?_empty (key : MemberKey) : (empty : MemberTable α).get? key = none := rfl

@[simp] theorem get?_insert_self (t : MemberTable α) (key : MemberKey) (a : α) :
    (t.insert key a).get? key = some a := by
  obtain ⟨entries⟩ := t
  simp only [insert, get?]
  induction entries with
  | nil => simp [insertEntry]
  | cons e rest ih =>
    obtain ⟨k, b⟩ := e
    simp only [insertEntry]
    split
    · simp
    · split
      · simp
      · next hne _ => simp [List.lookup_cons, beq_eq_false_iff_ne.2 hne, ih]

theorem get?_insert_of_ne (t : MemberTable α) {key other : MemberKey} (a : α) (h : other ≠ key) :
    (t.insert key a).get? other = t.get? other := by
  obtain ⟨entries⟩ := t
  simp only [insert, get?]
  have hne : (other == key) = false := beq_eq_false_iff_ne.2 h
  induction entries with
  | nil => simp [insertEntry, List.lookup_cons, hne]
  | cons e rest ih =>
    obtain ⟨k, b⟩ := e
    simp only [insertEntry]
    split
    · next he => subst he; simp [List.lookup_cons, hne]
    · split
      · simp [List.lookup_cons, hne]
      · simp [List.lookup_cons, ih]

end MemberTable
end ModuleVisibility
