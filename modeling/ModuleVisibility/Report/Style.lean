/-!
Styled text for terminals. A style is written as control codes around a text, and left out where
colors are off.
-/
namespace ModuleVisibility

inductive Color where
  | red
  | green
  | yellow
  | blue
  | cyan
  deriving DecidableEq

inductive Emphasis where
  | bold
  | dimmed
  deriving DecidableEq

/-- How a text looks: an emphasis, a color or both. -/
structure Style where
  emphasis : Option Emphasis
  color : Option Color
  deriving DecidableEq

/-- Whether styles are shown. -/
inductive ColorMode where
  | plain
  | colored
  deriving DecidableEq

namespace Style

def ofColor (c : Color) : Style := ⟨none, some c⟩

def ofEmphasis (e : Emphasis) : Style := ⟨some e, none⟩

def bold (c : Color) : Style := ⟨some .bold, some c⟩

def emphasisCode : Emphasis → String
  | .bold => "1"
  | .dimmed => "2"

def colorCode : Color → String
  | .red => "31"
  | .green => "32"
  | .yellow => "33"
  | .blue => "34"
  | .cyan => "36"

/-- The codes of a style, the emphasis before the color. -/
def codes (s : Style) : List String :=
  (s.emphasis.map emphasisCode).toList ++ (s.color.map colorCode).toList

/-- A text in a style. -/
def paint (s : Style) : ColorMode → String → String
  | .plain, text => text
  | .colored, text => "\x1b[" ++ String.intercalate ";" s.codes ++ "m" ++ text ++ "\x1b[0m"

@[simp] theorem paint_plain (s : Style) (text : String) : s.paint .plain text = text := rfl

end Style
end ModuleVisibility
