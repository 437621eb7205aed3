/-!
What stores are made of: lists of records of which one is changed, and maps from names. What is put
into a map under a name takes the place of what was there, and a name that is new comes last.
-/
namespace ModuleVisibility

theorem map_modify {α β : Type} (f : α → α) {g : α → β} (k : β → β) (h : ∀ a, g (f a) = k (g a))
    (l : List α) (index : Nat) : (l.modify index f).map g = (l.map g).modify index k := by
  refine List.ext_getElem? fun i => ?_
  rw [List.getElem?_map, List.getElem?_modify, List.getElem?_modify, List.getElem?_map]
  cases l[i]? with
  | none => rfl
  | some a => by_cases hi : index = i <;> simp [hi, h]

/-- What does not see the change is the same for all elements. -/
theorem map_modify_of_eq {α β : Type} (f : α → α) {g : α → β} (h : ∀ a, g (f a) = g a)
    (l : List α) (index : Nat) : (l.modify index f).map g = l.map g := by
  rw [map_modify f id h, List.modify_id]

structure NameMap (α : Type) where
  entries : List (String × α)
  deriving DecidableEq

namespace NameMap

variable {α : Type}

def empty : NameMap α := ⟨[]⟩

def get? (m : NameMap α) (name : String) : Option α := m.entries.lookup name

/-- Puts a value under a name among entries. -/
def insertEntry (name : String) (a : α) : List (String × α) → List (String × α)
  | [] => [(name, a)]
  | (other, b) :: rest =>
    if name = other then (name, a) :: rest else (other, b) :: insertEntry name a rest

def insert (m : NameMap α) (name : String) (a : α) : NameMap α := ⟨insertEntry name a m.entries⟩

/-- A name that is new comes last. -/
theorem entries_insert {m : NameMap α} {name : String} (h : m.get? name = none) (a : α) :
    (m.insert name a).entries = m.entries ++ [(name, a)] := by
  obtain ⟨entries⟩ := m
  simp only [get?, insert] at h ⊢
  induction entries with
  | nil => rfl
  | cons e rest ih =>
    obtain ⟨other, b⟩ := e
    by_cases hname : name = other
    · simp [hname] at h
    · rw [List.lookup_cons, beq_eq_false_iff_ne.2 hname] at h
      rw [insertEntry, if_neg hname, ih h, List.cons_append]

end NameMap
end ModuleVisibility
