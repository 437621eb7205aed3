/-!
Lists without repetitions by a key: of the elements that share a key the first is kept.
-/
namespace ModuleVisibility

/-- The first element of each key, in order. -/
def distinctBy {α β : Type} [DecidableEq β] (key : α → β) : List α → List α
  | [] => []
  | a :: as => a :: (distinctBy key as).filter fun b => key b ≠ key a

end ModuleVisibility
