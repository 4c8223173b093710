/-
# The lines of a text

A text is drawn line by line.  A line ends with one of the line terminators of
Unicode, or with a carriage return and a line feed together, and the terminator
is part of it; there is always at least one line.  Places are counted in
characters here.
-/
import TypeNaming.Text.Blank

namespace TypeNaming.Drawing

/-- Whether a line ends after the character. -/
def isTerminator (c : Char) : Bool :=
  [0x0A, 0x0B, 0x0C, 0x0D, 0x85, 0x2028, 0x2029].contains c.toNat

/-- A line with the place where it starts. -/
structure Line where
  start : Nat
  chars : List Char

namespace Line

/-- The place after the line and its terminator. -/
def stop (line : Line) : Nat := line.start + line.chars.length

/-- What is drawn of the line. -/
def shown (line : Line) : List Char := Text.trimEnd line.chars

/-- Whether the place is on the line. -/
def holds (line : Line) (place : Nat) : Bool :=
  line.start ≤ place && place < line.stop

end Line

/-- The lines of a text with their terminators; none for the empty text. -/
def cutLines : List Char → List (List Char)
  | [] => []
  | '\r' :: '\n' :: rest => ['\r', '\n'] :: cutLines rest
  | c :: rest =>
    if isTerminator c then [c] :: cutLines rest
    else
      match cutLines rest with
      | [] => [[c]]
      | line :: lines => (c :: line) :: lines

/-- Nothing of the text is lost. -/
theorem flatten_cutLines (text : List Char) : (cutLines text).flatten = text := by
  fun_induction cutLines text with
  | case1 => rfl
  | case2 rest ih => simp [ih]
  | case3 c rest _ _ ih => simp [ih]
  | case4 c rest _ _ h ih => simpa [h] using ih
  | case5 c rest _ _ line lines h ih => simpa [h] using ih

/-- The pieces with the places where they start. -/
def placed (start : Nat) : List (List Char) → List Line
  | [] => []
  | piece :: pieces => ⟨start, piece⟩ :: placed (start + piece.length) pieces

/-- A text cut into lines. -/
structure Page where
  lines : List Line
  /-- The number of characters. -/
  size : Nat

namespace Page

/-- The lines of a text. -/
def ofText (text : List Char) : Page where
  lines :=
    match cutLines text with
    | [] => [⟨0, []⟩]
    | pieces => placed 0 pieces
  size := text.length

/-- The index of the line that a place is on; the end of the text is on the last
line, and what lies past it on none. -/
def lineAt? (page : Page) (place : Nat) : Option Nat :=
  if page.size < place then none
  else some ((page.lines.countP fun line => line.start ≤ place) - 1)

end Page

end TypeNaming.Drawing
