import Stepwise.Display.Style

/-! A line of text in pieces, each of a style of its own. -/
namespace Stepwise.Display

structure Span where
  text : String
  style : Style := {}
deriving DecidableEq, Repr

abbrev Line := List Span

namespace Line

/-- The characters of a line with their styles. A line has no line breaks. -/
def glyphs (line : Line) : List (Char × Style) :=
  line.flatMap fun span => (span.text.toList.filter (· ≠ '\n')).map (·, span.style)

/-- Lays a style over every piece. -/
def tinted (line : Line) (style : Style) : Line :=
  line.map fun span => { span with style := style.onto span.style }

def text (line : Line) : String := String.join (line.map (·.text))

end Line

end Stepwise.Display
