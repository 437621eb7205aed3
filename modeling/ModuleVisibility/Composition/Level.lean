import ModuleVisibility.Composition.UseGraph
import ModuleVisibility.Program.Distinct

/-!
Levels of composition: a trait is in the first level behind those of all traits it uses, so that
levels can be composed one after the other. Every trait counts the traits it waits for. When a level
is placed its dependents count down, and those that wait for nothing more are the next level. Each
level keeps the order of the traits.
-/
namespace ModuleVisibility
namespace UseGraph

/-- The traits that `user` uses, each once. -/
def dependencies (g : UseGraph) (user : SymbolId) : List SymbolId :=
  distinctBy id (g.targets user)

variable (g : UseGraph) (deps : SymbolId → List SymbolId)

/-- The traits that wait for `id`, in order. -/
def dependents (id : SymbolId) : List SymbolId := g.traits.filter fun user => id ∈ deps user

/-- For how many traits each trait waits at first. -/
def waitingAtFirst : List (SymbolId × Nat) := g.traits.map fun id => (id, (deps id).length)

/-- Traits in the order of the graph. -/
def inOrder (ids : List SymbolId) : List SymbolId :=
  ids.mergeSort fun a b => g.traits.idxOf a ≤ g.traits.idxOf b

/-- The counts when `user` waits for one trait less. -/
def decrement (user : SymbolId) (waiting : List (SymbolId × Nat)) : List (SymbolId × Nat) :=
  waiting.map fun (id, left) => (id, if id = user then left - 1 else left)

/-- For how many traits each trait still waits, and those that have stopped waiting. -/
structure Countdown where
  waiting : List (SymbolId × Nat)
  free : List SymbolId

/-- The trait `user` waits for one trait less; it is free if that was the last one. -/
def Countdown.tick (c : Countdown) (user : SymbolId) : Countdown where
  waiting := decrement user c.waiting
  free := if c.waiting.lookup user = some 1 then c.free ++ [user] else c.free

/-- The count when the traits of a level have been placed. -/
def placeLevel (waiting : List (SymbolId × Nat)) (level : List SymbolId) : Countdown :=
  (level.flatMap (g.dependents deps)).foldl Countdown.tick ⟨waiting, []⟩

/-- For how many traits is waited in all. -/
def totalWaiting (waiting : List (SymbolId × Nat)) : Nat :=
  waiting.foldr (fun entry total => entry.2 + total) 0

theorem totalWaiting_decrement_le (user : SymbolId) (waiting : List (SymbolId × Nat)) :
    totalWaiting (decrement user waiting) ≤ totalWaiting waiting := by
  induction waiting with
  | nil => exact Nat.le_refl _
  | cons head rest ih =>
    simp only [totalWaiting, decrement, List.map_cons, List.foldr_cons] at ih ⊢
    have hhead : (if head.1 = user then head.2 - 1 else head.2) ≤ head.2 := by
      split <;> omega
    omega

theorem totalWaiting_decrement_lt {user : SymbolId} {waiting : List (SymbolId × Nat)}
    (h : waiting.lookup user = some 1) :
    totalWaiting (decrement user waiting) < totalWaiting waiting := by
  induction waiting with
  | nil => simp at h
  | cons head rest ih =>
    obtain ⟨id, left⟩ := head
    rw [List.lookup_cons] at h
    by_cases hid : user = id
    · subst hid
      have hleft : left = 1 := by simpa using h
      have hrest := totalWaiting_decrement_le user rest
      simp only [totalWaiting, decrement, List.map_cons, List.foldr_cons, if_true] at hrest ⊢
      omega
    · have hne : (user == id) = false := by simpa using hid
      have hne' : ¬ id = user := fun heq => hid heq.symm
      rw [hne] at h
      have hrest := ih h
      simp only [totalWaiting, decrement, List.map_cons, List.foldr_cons, if_neg hne'] at hrest ⊢
      omega

theorem Countdown.total_tick_le (c : Countdown) (user : SymbolId) :
    totalWaiting (c.tick user).waiting + (c.tick user).free.length ≤
      totalWaiting c.waiting + c.free.length := by
  unfold tick
  split
  · next h =>
    have hless := totalWaiting_decrement_lt h
    simp only [List.length_append, List.length_singleton]
    omega
  · exact Nat.add_le_add_right (totalWaiting_decrement_le user c.waiting) _

theorem total_placeLevel_le (waiting : List (SymbolId × Nat)) (level : List SymbolId) :
    totalWaiting (placeLevel g deps waiting level).waiting +
      (placeLevel g deps waiting level).free.length ≤ totalWaiting waiting := by
  have hfold : ∀ (users : List SymbolId) (c : Countdown),
      totalWaiting (users.foldl Countdown.tick c).waiting +
        (users.foldl Countdown.tick c).free.length ≤ totalWaiting c.waiting + c.free.length := by
    intro users
    induction users with
    | nil => exact fun c => Nat.le_refl _
    | cons user rest ih => exact fun c => Nat.le_trans (ih (c.tick user)) (c.total_tick_le user)
  exact hfold _ ⟨waiting, []⟩

/-- The levels from `level` on, when the other traits that are not placed wait as `waiting` says. -/
def levelsFrom (waiting : List (SymbolId × Nat)) (level : List SymbolId) : List (List SymbolId) :=
  if _h : level = [] then []
  else
    level
      :: levelsFrom (placeLevel g deps waiting level).waiting
        (g.inOrder (placeLevel g deps waiting level).free)
termination_by totalWaiting waiting + if level = [] then 0 else 1
decreasing_by
  have htotal := total_placeLevel_le g deps waiting level
  have hlength : (g.inOrder (placeLevel g deps waiting level).free).length =
      (placeLevel g deps waiting level).free.length := List.length_mergeSort _
  rw [if_neg _h]
  split
  · omega
  · next hnext =>
    have hpos := List.length_pos_iff.2 hnext
    omega

/-- The levels of all traits when `deps` lists what each of them uses, in any order. -/
def levelsBy : List (List SymbolId) :=
  levelsFrom g deps (waitingAtFirst g deps) (g.traits.filter fun id => (deps id).isEmpty)

/-- The levels of all traits. -/
def levels (g : UseGraph) : List (List SymbolId) := g.levelsBy g.dependencies

end UseGraph
end ModuleVisibility
