import ModuleVisibility.Composition.CycleSearch
import ModuleVisibility.Program.Distinct

/-!
How cycles are reported. A cycle is written from its least name on and reported at the clause by
which the trait of that name uses the next one. Cycles of the same traits are reported once.
-/
namespace ModuleVisibility
namespace CycleReport

/-- Whether a name comes no later than another, character by character. -/
def nameLe (a b : String) : Bool := a ≤ b

/-- The least of some names. -/
def least : List String → String
  | [] => ""
  | name :: names => names.foldl (fun a b => if b < a then b else a) name

/-- The cycle from its least name on. -/
def rotate (t : SymbolTable) (cycle : List SymbolId) : List SymbolId :=
  let first := least (cycle.map t.name)
  cycle.dropWhile (t.name · ≠ first) ++ cycle.takeWhile (t.name · ≠ first)

/-- The names of a cycle, whichever trait it starts from. -/
def nameSet (t : SymbolTable) (cycle : List SymbolId) : List String :=
  (cycle.map t.name).mergeSort nameLe

/-- The clause of `head` that names `next`; without one, the place where `head` is declared. -/
def clauseSpan (head : Symbol) (next : String) : Span :=
  match head.uses.find? (·.name == next) with
  | some clause => clause.span
  | none => head.span

/-- The report of a cycle that is written from `ids` on. -/
def ofRotated? (t : SymbolTable) (sources : SourceMap) (ids : List SymbolId) : Option Diagnostic :=
  match ids with
  | [] => none
  | first :: others =>
    (t.get? first).map fun head =>
      let next := t.name (others.headD first)
      (Finding.compositionCycle (ids.map t.name)).report
        (sources.locate head.unit (clauseSpan head next))

/-- The reports of the cycles found, in order. -/
def diagnostics (t : SymbolTable) (sources : SourceMap) (cycles : List (List SymbolId)) :
    List Diagnostic :=
  (distinctBy (nameSet t) cycles).filterMap fun cycle => ofRotated? t sources (rotate t cycle)

end CycleReport
end ModuleVisibility
