/-
# The rows under a line

A line of the text is drawn with rows under it, one pair for every end of a
marker on it.  The first row of a pair has the underlines and the vertical
strokes, the second the stroke to the message.  A marker that spreads over
several lines runs down the margin instead, in a column of its own.

An `Anchor` is an end of a marker on a line.  One of them may be drawn in the
margin, beside the line itself, and needs no row.
-/
import TypeNaming.Drawing.Marker
import TypeNaming.Text.Column

namespace TypeNaming.Drawing

/-- An end of a marker on a line. -/
structure Anchor where
  marker : Marker
  /-- How many characters into the line it is. -/
  column : Nat
  /-- Whether it is one of the two ends of a marker over several lines. -/
  ofSpread : Bool
  /-- Whether the message is written here. -/
  speaks : Bool

namespace Anchor

/-- Whether the anchor is drawn before another one: further left, or of two in
one column the one whose marker starts later. -/
def before (a b : Anchor) : Bool :=
  a.column < b.column || (a.column == b.column && b.marker.start ≤ a.marker.start)

/-- The first end of a marker over several lines. -/
def opening (line : Line) (m : Marker) : Anchor := ⟨m, m.start - line.start, true, false⟩

/-- The last end of a marker over several lines. -/
def closing (line : Line) (m : Marker) : Anchor := ⟨m, m.last - line.start, true, true⟩

/-- A marker on one line, anchored in its middle. -/
def middle (line : Line) (m : Marker) : Anchor :=
  ⟨m, max ((m.start + m.stop) / 2) m.start - line.start, false, true⟩

end Anchor

/-- The first anchor, in the order of drawing. -/
def firstAnchor? : List Anchor → Option Anchor
  | [] => none
  | a :: as =>
    match firstAnchor? as with
    | none => some a
    | some best => if a.before best then some a else some best

/-- A line of a block, and the anchors on it. -/
structure Scene where
  style : Style
  /-- The columns that line numbers take. -/
  numberWidth : Nat
  /-- The index of the line. -/
  index : Nat
  line : Line
  /-- Whether lines are left out here. -/
  inGap : Bool
  /-- The markers of the block that spread over several lines, the longest
  first. -/
  spread : List Marker
  /-- The anchor that is drawn in the margin. -/
  margin : Option Anchor
  /-- The anchors that have rows, in the order of drawing. -/
  anchors : List Anchor

/-- A row of the drawing: the line itself, or one of the two rows of an anchor. -/
inductive Row where
  | text
  | strokes (anchor : Nat)
  | message (anchor : Nat)
  deriving DecidableEq

/-- Whether the row is the line itself. -/
def Row.isText (row : Row) : Bool := row == .text

namespace Scene

/-- The text in the ink. -/
def paint (s : Scene) : Ink → String → String := s.style.paint

/-- Whether the marker is the one drawn in the margin. -/
def inMargin (s : Scene) (m : Marker) : Bool :=
  (s.margin.map (·.marker.isSame m)).getD false

/-! ## The margin -/

/-- What a column of the margin has to show. -/
structure Cell where
  /-- A corner, and whether its marker begins there. -/
  corner : Option (Marker × Bool) := none
  /-- A horizontal stroke. -/
  stroke : Option Marker := none
  /-- A vertical stroke. -/
  rail : Option Marker := none
  /-- A marker that points into the line, and whether it begins there. -/
  pointer : Option (Marker × Bool) := none

/-- The anchor that is given to a marker by its number, the first by default. -/
def anchorOf (s : Scene) (m : Marker) : Nat :=
  (s.anchors.findIdx? (·.marker.isSame m)).getD 0

/-- What a marker adds to a column of the margin, which is its own column or one
further right. -/
def addMarker (s : Scene) (row : Row) (own : Bool) (cell : Cell) (m : Marker) : Cell :=
  if !(m.start ≤ s.line.stop && s.line.start < m.stop) then cell
  else
    let begins := s.line.holds m.start
    let ends := s.line.holds m.last
    let withRail := { cell with rail := cell.rail.or (if own then some m else none) }
    if s.inMargin m && row.isText then { cell with pointer := some (m, begins) }
    else if !begins && (!ends || row.isText) then withRail
    else
      match row with
      | .text => cell
      | .strokes anchor =>
        if anchor != s.anchorOf m then
          if begins != (anchor < s.anchorOf m : Bool) then withRail else cell
        else if s.inMargin m then
          let cell := { cell with rail := if own then some m else none }
          if begins then cell else { cell with rail := cell.rail.or (if own then some m else none) }
        else if begins then cell
        else withRail
      | .message anchor =>
        if anchor != s.anchorOf m then
          if begins != (anchor < s.anchorOf m : Bool) then withRail else cell
        else
          let cell :=
            if s.inMargin m then { cell with rail := if own then some m else none } else cell
          if s.inMargin m && begins then cell
          else
            { cell with
              stroke := some m
              corner := if own then some (m, begins) else cell.corner }

/-- A column of the margin; the last one, after those of the markers, leads into
the line. -/
def cell (s : Scene) (row : Row) (column : Nat) : Cell :=
  (s.spread.take (column + 1)).zipIdx.foldl
    (fun cell (m, index) => s.addMarker row (index == column) cell m) {}

/-- The two characters of a column of the margin. -/
def drawCell (s : Scene) (row : Row) (column : Nat) : String :=
  let g := s.style.glyphs
  let cell := s.cell row column
  let isOwn (m : Marker) := (s.spread[column]?.map (·.isSame m)).getD false
  let isLast := column == s.spread.length
  let stroke :=
    match cell.pointer with
    | some (m, _) =>
      if row.isText && !isOwn m && column + 1 != s.spread.length then cell.stroke.or (some m)
      else cell.stroke
    | none => cell.stroke
  let stroke := stroke.filter fun m => !(row.isText && s.inMargin m)
  match cell.corner, stroke, cell.rail, cell.pointer with
  | some (m, begins), _, _, _ =>
    s.paint m.ink (if begins then g.topLeft else g.bottomLeft) ++ s.paint m.ink g.horizontal
  | none, some m, _, _ => times 2 (s.paint m.ink g.horizontal)
  | none, none, some m, _ => s.paint m.ink (if s.inGap then g.gap else g.vertical) ++ " "
  | none, none, none, some (m, begins) =>
    if isLast then s.paint m.ink g.arrowRight ++ s.paint m.ink " "
    else
      let glyph :=
        if isOwn m then (if begins then g.topLeft else g.crossLeft) else g.horizontal
      s.paint m.ink glyph ++ s.paint m.ink g.horizontal
  | none, none, none, none => "  "

/-- The frame at the left of a row, with the number of the line beside the line
itself. -/
def drawFrame (s : Scene) (row : Row) : String :=
  let g := s.style.glyphs
  let frame :=
    if row.isText && !s.inGap then
      let number := toString (s.index + 1)
      s.paint Ink.margin
        (spaces (s.numberWidth - number.length) ++ number ++ " " ++ g.vertical)
    else
      s.paint Ink.skipped (spaces (s.numberWidth + 1) ++ if s.inGap then g.gap else g.vertical)
  " " ++ frame ++ " "

/-- The frame and the margin at the left of a row. -/
def drawMargin (s : Scene) (row : Row) : String :=
  let columns := if s.spread.isEmpty then 0 else s.spread.length + 1
  s.drawFrame row ++ String.join ((List.range columns).map (s.drawCell row))

/-! ## The line itself -/

/-- The markers that can lie on a character of the line. -/
def candidates (s : Scene) : List Marker :=
  (s.margin.map (·.marker)).toList ++ s.spread ++ s.anchors.map (·.marker)

/-- The ink of a character of the line. -/
def inkAt (s : Scene) (column : Nat) : Ink :=
  let covering := s.candidates.filter fun m => m.holds (s.line.start + column)
  ((shortest? covering).map (·.ink)).getD Ink.plain

/-- The characters of the line; blanks become spaces. -/
def drawText (s : Scene) : String :=
  String.join <| s.line.shown.zipIdx.map fun (c, column) =>
    let ink := s.inkAt column
    if Text.isBlank c then times (Text.columns c column) (s.paint ink " ")
    else s.paint ink (String.singleton c)

/-! ## The rows of an anchor -/

/-- How many characters of the line the rows run along. -/
def reach (s : Scene) : Nat :=
  2 + s.anchors.foldl
    (fun reach a =>
      if a.ofSpread then s.line.chars.length else max reach (a.marker.stop - s.line.start))
    0

/-- The columns of each character that the rows run along, and one for each place
after the line. -/
def widths (s : Scene) : List Nat :=
  let shown := s.line.shown.zipIdx.map fun (c, column) => Text.columns c column
  (shown ++ List.replicate s.reach 1).take s.reach

/-- A glyph over the columns of a character, with a filler after the first. -/
def fill (width : Nat) (glyph filler : String) : String :=
  if width = 0 then "" else glyph ++ times (width - 1) filler

/-- The anchor whose vertical stroke passes a row at a column. -/
def strokeAt? (s : Scene) (anchor column : Nat) : Option Anchor :=
  (s.anchors.zipIdx.find? fun (a, index) =>
    !s.inMargin a.marker && a.column == column && anchor ≤ index).map (·.1)

/-- The marker whose underline is drawn at a column. -/
def underlineAt? (s : Scene) (column : Nat) : Option Marker :=
  shortest? <| (s.anchors.filter fun a =>
    !a.ofSpread && a.marker.holds (s.line.start + column)).map (·.marker)

/-- The first row of an anchor, after the margin. -/
def drawStrokes (s : Scene) (anchor : Nat) : String :=
  let g := s.style.glyphs
  String.join <| s.widths.zipIdx.map fun (width, column) =>
    let underline := if anchor = 0 then s.underlineAt? column else none
    match s.strokeAt? anchor column, underline with
    | some a, some _ =>
      fill width (s.paint a.marker.ink g.underJoin) (s.paint a.marker.ink g.underline)
    | some a, none =>
      let glyph := if a.ofSpread && anchor == 0 then g.arrowUp else g.vertical
      fill width (s.paint a.marker.ink glyph) (s.paint a.marker.ink " ")
    | none, some m => fill width (s.paint m.ink g.underline) (s.paint m.ink g.underline)
    | none, none => fill width " " " "

/-- The second row of an anchor, after the margin. -/
def drawMessage (s : Scene) (anchor : Nat) (a : Anchor) : String :=
  let g := s.style.glyphs
  let ink := a.marker.ink
  let strokes := s.widths.zipIdx.map fun (width, column) =>
    let level := (column > a.column : Bool) != a.ofSpread || (a.speaks && a.column < column)
    if column = a.column && !s.inMargin a.marker then
      let corner :=
        if a.ofSpread then (if a.speaks then g.joinDown else g.bottomRight) else g.bottomLeft
      fill width (s.paint ink corner) (s.paint ink g.horizontal)
    else if level then fill width (s.paint ink g.horizontal) (s.paint ink g.horizontal)
    else
      match s.strokeAt? anchor column with
      | some other => fill width (s.paint other.marker.ink g.vertical) (s.paint ink " ")
      | none => fill width " " " "
  String.join strokes ++ if a.speaks then " " ++ a.marker.message else ""

/-- The line with all its rows. -/
def draw (s : Scene) : String :=
  let rows := s.anchors.zipIdx.map fun (a, anchor) =>
    s.drawMargin (.strokes anchor) ++ s.drawStrokes anchor ++ "\n"
      ++ s.drawMargin (.message anchor) ++ s.drawMessage anchor a ++ "\n"
  s.drawMargin .text ++ (if s.inGap then "" else s.drawText) ++ "\n" ++ String.join rows

end Scene

end TypeNaming.Drawing
