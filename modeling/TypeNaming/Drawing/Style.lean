/-
# The style of a drawing

What lines and corners are drawn with, and in which ink.  An ink is the number
of a terminal color; without colors every ink is left out and only the text
remains.
-/
namespace TypeNaming.Drawing

/-- The characters that lines are drawn with. -/
structure Glyphs where
  horizontal : String
  vertical : String
  /-- A vertical line where lines of the text are left out. -/
  gap : String
  arrowUp : String
  arrowRight : String
  topLeft : String
  bottomLeft : String
  /-- A vertical line that comes down on a horizontal one. -/
  joinDown : String
  bottomRight : String
  crossLeft : String
  /-- A vertical line that leaves an underline. -/
  underJoin : String
  underline : String

/-- Box-drawing characters. -/
def Glyphs.unicode : Glyphs where
  horizontal := "─"
  vertical := "│"
  gap := "┆"
  arrowUp := "▲"
  arrowRight := "▶"
  topLeft := "╭"
  bottomLeft := "╰"
  joinDown := "┴"
  bottomRight := "╯"
  crossLeft := "├"
  underJoin := "┬"
  underline := "─"

/-- Characters that every terminal has. -/
def Glyphs.ascii : Glyphs where
  horizontal := "-"
  vertical := "|"
  gap := ":"
  arrowUp := "^"
  arrowRight := ">"
  topLeft := ","
  bottomLeft := "`"
  joinDown := "^"
  bottomRight := "'"
  crossLeft := "|"
  underJoin := "|"
  underline := "^"

/-- The parameters of a color sequence. -/
abbrev Ink := String

/-- The ink of a color of the palette of 256. -/
def Ink.palette (number : Nat) : Ink :=
  "38;5;" ++ toString number

/-- The ink of errors. -/
def Ink.red : Ink := "31"

/-- The ink of warnings. -/
def Ink.yellow : Ink := "33"

/-- The ink of plain remarks. -/
def Ink.advice : Ink := Ink.palette 147

/-- The ink of the frame and of line numbers. -/
def Ink.margin : Ink := Ink.palette 246

/-- The ink of the frame beside rows that are not lines of the text. -/
def Ink.skipped : Ink := Ink.palette 240

/-- The ink of the text where no marker lies on it. -/
def Ink.plain : Ink := Ink.palette 249

/-- The ink of the word "Help". -/
def Ink.note : Ink := Ink.palette 115

/-- How a drawing is made. -/
structure Style where
  glyphs : Glyphs
  color : Bool

/-- The text in the ink. -/
def Style.paint (style : Style) (ink : Ink) (text : String) : String :=
  if style.color then "\x1b[" ++ ink ++ "m" ++ text ++ "\x1b[0m" else text

/-- The text a number of times over. -/
def times (count : Nat) (text : String) : String :=
  String.join (List.replicate count text)

/-- A row of spaces. -/
def spaces (count : Nat) : String := times count " "

/-! ## The inks of markers -/

/-- The state that the inks of markers are drawn from: three channels of 16
bits. -/
structure Channels where
  red : Nat
  green : Nat
  blue : Nat

namespace Channels

/-- The state before the first ink. -/
def initial : Channels := ⟨30000, 15000, 35000⟩

/-- How far apart the states of a channel are. -/
def stride : Nat := 40503

/-- The next state. -/
def next (s : Channels) : Channels where
  red := (s.red + stride * 1130) % 65536
  green := (s.green + stride * 1134) % 65536
  blue := (s.blue + stride * 1138) % 65536

/-- The color of a state: each channel is brought into the upper half of its
scale, the scales are those of the palette, and the sum is rounded down. -/
def ink (s : Channels) : Ink :=
  Ink.palette
    (16 + (5 * (s.blue + 65535) + 30 * (s.green + 65535) + 180 * (s.red + 65535)) / 131070)

/-- The inks of so many states. -/
def inks (s : Channels) : Nat → List Ink
  | 0 => []
  | count + 1 => s.next.ink :: s.next.inks count

end Channels

/-- The inks of so many markers.  The first color is not used. -/
def markerInks (count : Nat) : List Ink :=
  Channels.initial.next.inks count

end TypeNaming.Drawing
