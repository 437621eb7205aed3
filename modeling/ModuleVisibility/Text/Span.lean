/-!
Byte ranges of a source text. A range is a pair of UTF-8 offsets; ranges are ordered by their
start and then by their end, which is the order in which a unit's faults are listed.
-/
namespace ModuleVisibility

/-- A byte range of one unit's text, from `lo` up to but without `hi`. -/
structure Span where
  lo : Nat
  hi : Nat
  deriving DecidableEq, Inhabited

namespace Span

/-- The range at the start of a text, which stands for a place that nobody gave. -/
def origin : Span := ⟨0, 0⟩

/-- The smallest range that covers both. -/
def join (a b : Span) : Span := ⟨min a.lo b.lo, max a.hi b.hi⟩

/-- Start first, end second. -/
def le (a b : Span) : Bool := a.lo < b.lo || (a.lo == b.lo && a.hi ≤ b.hi)

/-- The empty range behind `a`. -/
def endPoint (a : Span) : Span := ⟨a.hi, a.hi⟩

end Span
end ModuleVisibility
