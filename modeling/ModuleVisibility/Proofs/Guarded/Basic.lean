import Mathlib.Algebra.Group.Nat.Defs
import ModuleVisibility.Text.Lines

/-!
Computations on offsets that stop where an access is not allowed: an index or range that reaches
past the end, a text cut inside a character, a number below zero, a 32-bit number that grows too
large, and a loop that goes round without getting further. Every access goes through one of the
operations here, so a computation that gives a value has made none that is not allowed.
-/
namespace ModuleVisibility

/-- What stops a computation on offsets. -/
inductive Trap where
  | outOfRange
  | offBoundary
  | belowZero
  | overflow
  | stuck
  deriving DecidableEq

/-- A computation on offsets that a trap may stop. -/
abbrev Guarded (α : Type) := Except Trap α

namespace Guarded

variable {α β : Type}

@[simp] theorem ok_bind (a : α) (f : α → Guarded β) : (Except.ok a >>= f : Guarded β) = f a := rfl

@[simp] theorem pure_eq_ok (a : α) : (pure a : Guarded α) = .ok a := rfl

/-- A branch that gives its value in each case gives the value of the branch. -/
theorem ite_eq_ok {p : Prop} [Decidable p] {x y : Guarded α} {a b : α} (hx : p → x = .ok a)
    (hy : ¬ p → y = .ok b) : (if p then x else y) = .ok (if p then a else b) := by
  split
  · exact hx ‹_›
  · exact hy ‹_›

/-- A computation for each element of a list gives a value for each, if none of them is stopped. -/
theorem mapM_eq_ok {f : α → Guarded β} {g : α → β} {as : List α} (h : ∀ a ∈ as, f a = .ok (g a)) :
    as.mapM f = .ok (as.map g) := by
  induction as with
  | nil => rfl
  | cons a as ih =>
    rw [List.mapM_cons, h a List.mem_cons_self, ok_bind,
      ih fun b hb => h b (List.mem_cons_of_mem a hb)]
    rfl

/-! Operations. -/

/-- The difference of two numbers that must not be below zero. -/
def sub (a b : Nat) : Guarded Nat := if b ≤ a then .ok (a - b) else .error .belowZero

/-- The 32-bit number that is left of a larger one. -/
def toU32 (n : Nat) : Nat := n % 2 ^ 32

/-- The sum of two 32-bit numbers that must be one too. -/
def addU32 (a b : Nat) : Guarded Nat := if a + b < 2 ^ 32 then .ok (a + b) else .error .overflow

/-- The element at a place that must be there. -/
def index (xs : List α) (i : Nat) : Guarded α :=
  match xs[i]? with
  | some x => .ok x
  | none => .error .outOfRange

/-- The elements from `lo` up to but without `hi`, places that must be there and in this order. -/
def range (xs : List α) (lo hi : Nat) : Guarded (List α) :=
  if lo ≤ hi ∧ hi ≤ xs.length then .ok ((xs.drop lo).take (hi - lo)) else .error .outOfRange

/-- The characters of a byte range, whose ends must be in the text and between characters. -/
def textRange (cs : List Char) (lo hi : Nat) : Guarded (List Char) :=
  if lo ≤ hi ∧ hi ≤ Text.byteSize cs then
    match Text.slice? cs ⟨lo, hi⟩ with
    | some text => .ok text
    | none => .error .offBoundary
  else .error .outOfRange

/-- The text from a byte on. -/
def textFrom (cs : List Char) (lo : Nat) : Guarded (List Char) := textRange cs lo (Text.byteSize cs)

/-- The element at a place, if there is one, with the place being one of the list. -/
def peek (xs : List α) (pos : Nat) : Option { x // xs[pos]? = some x } :=
  if h : pos < xs.length then some ⟨xs[pos], List.getElem?_eq_getElem h⟩ else none

/-- How much of a list lies behind a place: what a loop over the list has to make smaller. -/
def left (xs : List α) (pos : Nat) : Nat := xs.length - pos

theorem sub_of_le {a b : Nat} (h : b ≤ a) : sub a b = .ok (a - b) := if_pos h

@[simp] theorem sub_succ (n : Nat) : sub (n + 1) 1 = .ok n := rfl

theorem toU32_of_lt {n : Nat} (h : n < 2 ^ 32) : toU32 n = n := Nat.mod_eq_of_lt h

theorem addU32_of_lt {a b : Nat} (h : a + b < 2 ^ 32) : addU32 a b = .ok (a + b) := if_pos h

theorem index_of_getElem? {xs : List α} {i : Nat} {x : α} (h : xs[i]? = some x) :
    index xs i = .ok x := by
  rw [index, h]

/-- A place that shows an element is one of the list. -/
theorem left_succ_lt {xs : List α} {pos : Nat} {x : α} (h : xs[pos]? = some x) :
    left xs (pos + 1) < left xs pos := by
  have hlt := (List.getElem?_eq_some_iff.1 h).1
  unfold left
  omega

/-! Places in a list. -/

/-- `rest` is what the list holds from the place `pos` on. -/
def At (xs : List α) (pos : Nat) (rest : List α) : Prop :=
  ∃ before, before ++ rest = xs ∧ before.length = pos

namespace At

variable {xs as rest : List α} {x : α} {pos : Nat}

theorem zero (xs : List α) : At xs 0 xs := ⟨[], rfl, rfl⟩

theorem of_drop (h : pos ≤ xs.length) : At xs pos (xs.drop pos) :=
  ⟨xs.take pos, List.take_append_drop pos xs, List.length_take_of_le h⟩

theorem skip (h : At xs pos (as ++ rest)) : At xs (pos + as.length) rest := by
  obtain ⟨before, rfl, rfl⟩ := h
  exact ⟨before ++ as, List.append_assoc .., List.length_append⟩

theorem next (h : At xs pos (x :: rest)) : At xs (pos + 1) rest := by
  have hsingle : At xs pos ([x] ++ rest) := h
  exact hsingle.skip

theorem length_eq (h : At xs pos rest) : xs.length = pos + rest.length := by
  obtain ⟨before, rfl, rfl⟩ := h
  exact List.length_append

theorem left_eq (h : At xs pos rest) : left xs pos = rest.length := by
  rw [left, h.length_eq]
  exact Nat.add_sub_cancel_left ..

theorem getElem?_add (h : At xs pos rest) (i : Nat) : xs[pos + i]? = rest[i]? := by
  obtain ⟨before, rfl, rfl⟩ := h
  rw [List.getElem?_append_right (Nat.le_add_right ..), Nat.add_sub_cancel_left]

theorem getElem? (h : At xs pos rest) : xs[pos]? = rest.head? := by
  rw [← Nat.add_zero pos, h.getElem?_add, List.head?_eq_getElem?]

theorem getElem?_nil (h : At xs pos []) : xs[pos]? = none := h.getElem?

theorem getElem?_cons (h : At xs pos (x :: rest)) : xs[pos]? = some x := h.getElem?

theorem peek_nil (h : At xs pos []) : peek xs pos = none :=
  dif_neg (Nat.not_lt.2 (List.getElem?_eq_none_iff.1 h.getElem?_nil))

theorem peek_cons (h : At xs pos (x :: rest)) : peek xs pos = some ⟨x, h.getElem?_cons⟩ := by
  obtain ⟨hlt, hget⟩ := List.getElem?_eq_some_iff.1 h.getElem?_cons
  rw [peek, dif_pos hlt]
  exact congrArg some (Subtype.ext hget)

theorem index (h : At xs pos (x :: rest)) : index xs pos = .ok x :=
  index_of_getElem? h.getElem?_cons

theorem range (h : At xs pos (as ++ rest)) : range xs pos (pos + as.length) = .ok as := by
  have hlength := h.length_eq
  rw [List.length_append] at hlength
  obtain ⟨before, rfl, rfl⟩ := h
  rw [Guarded.range, if_pos ⟨by omega, by omega⟩, List.drop_left,
    Nat.add_sub_cancel_left, List.take_left]

theorem drop_eq (h : At xs pos rest) : xs.drop pos = rest := by
  obtain ⟨before, rfl, rfl⟩ := h
  exact List.drop_left

/-- What a list holds from a place on is one list. -/
theorem unique {rest' : List α} (h : At xs pos rest) (h' : At xs pos rest') : rest = rest' := by
  rw [← h.drop_eq, h'.drop_eq]

theorem left_lt {rest' : List α} {pos' : Nat} (h : At xs pos rest) (h' : At xs pos' rest')
    (hlength : rest'.length < rest.length) : left xs pos' < left xs pos := by
  rwa [h.left_eq, h'.left_eq]

theorem range_end (h : At xs pos rest) : Guarded.range xs pos xs.length = .ok rest := by
  have hall : At xs pos (rest ++ []) := by rwa [List.append_nil]
  rw [h.length_eq, hall.range]

end At

/-! Places in a text. -/

/-- `rest` is what stands behind the byte `offset` of the text. -/
def TextAt (cs : List Char) (offset : Nat) (rest : List Char) : Prop :=
  ∃ before, before ++ rest = cs ∧ Text.byteSize before = offset

theorem dropBytes?_byteSize (as bs : List Char) :
    Text.dropBytes? (Text.byteSize as) (as ++ bs) = some bs := by
  induction as with
  | nil => exact Text.dropBytes?.eq_1 bs
  | cons a as ih =>
    obtain ⟨n, hn⟩ : ∃ n, a.utf8Size + Text.byteSize as = n + 1 :=
      Nat.exists_eq_succ_of_ne_zero (by have := a.utf8Size_pos; omega)
    rw [Text.byteSize_cons, hn, List.cons_append, Text.dropBytes?, if_pos (by omega), ← hn,
      Nat.add_sub_cancel_left, ih]

theorem takeBytes?_byteSize (as bs : List Char) :
    Text.takeBytes? (Text.byteSize as) (as ++ bs) = some as := by
  induction as with
  | nil => exact Text.takeBytes?.eq_1 bs
  | cons a as ih =>
    obtain ⟨n, hn⟩ : ∃ n, a.utf8Size + Text.byteSize as = n + 1 :=
      Nat.exists_eq_succ_of_ne_zero (by have := a.utf8Size_pos; omega)
    rw [Text.byteSize_cons, hn, List.cons_append, Text.takeBytes?, if_pos (by omega), ← hn,
      Nat.add_sub_cancel_left, ih]
    rfl

namespace TextAt

variable {cs as rest : List Char} {c : Char} {offset : Nat}

theorem zero (cs : List Char) : TextAt cs 0 cs := ⟨[], rfl, rfl⟩

theorem skip (h : TextAt cs offset (as ++ rest)) : TextAt cs (offset + Text.byteSize as) rest := by
  obtain ⟨before, rfl, rfl⟩ := h
  exact ⟨before ++ as, List.append_assoc .., Text.byteSize_append ..⟩

theorem next (h : TextAt cs offset (c :: rest)) : TextAt cs (offset + c.utf8Size) rest := by
  have hsingle : TextAt cs offset ([c] ++ rest) := h
  exact hsingle.skip

theorem byteSize_eq (h : TextAt cs offset rest) :
    Text.byteSize cs = offset + Text.byteSize rest := by
  obtain ⟨before, rfl, rfl⟩ := h
  exact Text.byteSize_append ..

theorem slice? (h : TextAt cs offset (as ++ rest)) :
    Text.slice? cs ⟨offset, offset + Text.byteSize as⟩ = some as := by
  obtain ⟨before, rfl, rfl⟩ := h
  rw [Text.slice?, if_pos (Nat.le_add_right ..), dropBytes?_byteSize]
  dsimp only
  rw [Nat.add_sub_cancel_left]
  exact takeBytes?_byteSize as rest

/-- A range that covers what stands there is cut between characters. -/
theorem textRange (h : TextAt cs offset (as ++ rest)) :
    textRange cs offset (offset + Text.byteSize as) = .ok as := by
  have hsize := h.byteSize_eq
  rw [Text.byteSize_append] at hsize
  rw [Guarded.textRange, if_pos ⟨by omega, by omega⟩, h.slice?]

example : Guarded.textRange ['é', 'a'] 1 3 = .error .offBoundary := rfl

theorem textFrom (h : TextAt cs offset rest) : textFrom cs offset = .ok rest := by
  have hall : TextAt cs offset (rest ++ []) := by rwa [List.append_nil]
  rw [Guarded.textFrom, h.byteSize_eq, hall.textRange]

end TextAt
end Guarded
end ModuleVisibility
