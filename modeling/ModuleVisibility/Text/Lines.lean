import ModuleVisibility.Text.Character
import ModuleVisibility.Text.Span

/-!
Lines of a text. Lines and columns count from one, columns and ranges count bytes, and a line's
newline belongs to no line range.
-/
namespace ModuleVisibility

/-- A place in a text as people name it. -/
structure Position where
  line : Nat
  column : Nat
  deriving DecidableEq

namespace Text

/-- The lines of a text, each with its newline; a last line may lack it. -/
def lines : List Char → List (List Char)
  | [] => []
  | c :: cs =>
    if c = '\n' then [c] :: lines cs
    else match lines cs with
      | [] => [[c]]
      | l :: ls => (c :: l) :: ls

/-- No character is lost between lines. -/
theorem flatten_lines (cs : List Char) : (lines cs).flatten = cs := by
  fun_induction lines cs <;> simp_all

/-- The bytes at which the lines behind the first start, when the text starts at byte `start`. -/
def laterLineStarts (start : Nat) : List Char → List Nat
  | [] => []
  | c :: cs =>
    let after := start + c.utf8Size
    if c = '\n' then after :: laterLineStarts after cs else laterLineStarts after cs

/-- The bytes at which the lines of a text start. -/
def lineStarts (cs : List Char) : List Nat := 0 :: laterLineStarts 0 cs

/-- The position of a byte; behind the end there is only the end. -/
def position (cs : List Char) (offset : Nat) : Position :=
  let o := min offset (byteSize cs)
  let started := (lineStarts cs).takeWhile (· ≤ o)
  ⟨started.length, o - started.getLastD 0 + 1⟩

/-- The byte range of a line, without its newline. -/
def lineRange? (cs : List Char) (line : Nat) : Option Span :=
  if line = 0 then none
  else match (lineStarts cs).drop (line - 1) with
    | [] => none
    | [start] => some ⟨start, byteSize cs⟩
    | start :: next :: _ => some ⟨start, next - 1⟩

/-- The characters of a byte range, if its ends lie between characters of the text. -/
def slice? (cs : List Char) (span : Span) : Option (List Char) :=
  if span.lo ≤ span.hi then (dropBytes? span.lo cs).bind (takeBytes? (span.hi - span.lo))
  else none

/-- A line without the carriage returns it ends with. -/
def line? (cs : List Char) (line : Nat) : Option (List Char) := do
  let span ← lineRange? cs line
  let text ← slice? cs span
  return (text.reverse.dropWhile (· == '\r')).reverse

end Text
end ModuleVisibility
