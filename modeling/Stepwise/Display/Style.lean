/-! Colors and styles of text on a screen. A style need not fix a color; where it does not, what
lies below shows through. -/
namespace Stepwise.Display

inductive Color where
  | black
  | white
  | rgb (red green blue : UInt8)
deriving DecidableEq, Repr

namespace Color

def hexDigits (byte : UInt8) : List Char :=
  [Nat.digitChar (byte.toNat / 16), Nat.digitChar (byte.toNat % 16)]

/-- A name, or the three parts in hexadecimal digits. -/
def text : Color → String
  | black => "black"
  | white => "white"
  | rgb red green blue => String.ofList ('#' :: hexDigits red ++ hexDigits green ++ hexDigits blue)

end Color

structure Style where
  foreground : Option Color := none
  background : Option Color := none
  bold : Bool := false
  blinking : Bool := false
deriving DecidableEq, Repr

namespace Style

/-- A style laid onto another one. Nothing that either adds is taken away. -/
def onto (upper lower : Style) : Style where
  foreground := upper.foreground.or lower.foreground
  background := upper.background.or lower.background
  bold := upper.bold || lower.bold
  blinking := upper.blinking || lower.blinking

end Style

/-! The colors of the screen, by what they stand for. -/
namespace Palette

def text : Color := .rgb 205 214 244
def primary : Color := .rgb 137 180 250
def secondary : Color := .rgb 250 179 135
def muted : Color := .rgb 108 112 134
def success : Color := .rgb 166 227 161
def failure : Color := .rgb 243 139 168
def number : Color := .rgb 250 179 135
def letter : Color := .rgb 148 226 213
def operator : Color := .rgb 137 180 250
def function : Color := .rgb 249 226 175
def focus : Color := .rgb 249 226 175
def current : Color := .rgb 50 50 70

/-- The edge of a pane, which stands out while the pane is in focus. -/
def edge (focused : Bool) : Style :=
  if focused then { foreground := some focus, bold := true } else { foreground := some muted }

end Palette

end Stepwise.Display
