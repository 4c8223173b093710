/-
# Reports

A failure is drawn as one report for each of its diagnostics: a headline, the
lines of the text that the markers are on, and the advice.  Lines between them
are left out.

Places are taken as counts of characters here, while the spans of a diagnostic
count bytes; the two agree as long as the text before them is ASCII.
-/
import TypeNaming.Drawing.Row

namespace TypeNaming.Drawing

/-- What a caller can choose about a drawing. -/
structure Settings where
  color : Bool := true
  /-- The name of the text, instead of the one that the failure knows. -/
  file : Option String := none
  glyphs : Glyphs := Glyphs.unicode

/-- The style that the settings ask for. -/
def Settings.style (settings : Settings) : Style := ⟨settings.glyphs, settings.color⟩

/-- The name of a kind of diagnostic, and its ink. -/
def heading : Severity → String × Ink
  | .error => ("Error", Ink.red)
  | .warning => ("Warning", Ink.yellow)
  | .info => ("Advice", Ink.advice)

/-- The first line of a report. -/
def headline (style : Style) (d : Diagnostic) : String :=
  let (name, ink) := heading d.severity
  let code :=
    match d.code with
    | some code => "[" ++ code ++ spaces (2 - code.length) ++ "] "
    | none => ""
  style.paint ink (code ++ name ++ ":") ++ " " ++ d.message ++ "\n"

/-- A block of markers, and what is drawn around it. -/
structure Block where
  style : Style
  page : Page
  numberWidth : Nat
  /-- The markers of the block. -/
  markers : List Marker
  /-- Those of them that spread over several lines, the longest first. -/
  spread : List Marker

namespace Block

/-- The anchors on a line that are ends of spread markers.  When both ends count
as being on it, the first one does. -/
def spreadAnchors (b : Block) (line : Line) : List Anchor :=
  b.spread.filterMap fun m =>
    if line.holds m.start then some (Anchor.opening line m)
    else if line.holds m.last then some (Anchor.closing line m)
    else none

/-- The anchors on a line that get rows of their own, given the one in the
margin. -/
def rowAnchors (b : Block) (line : Line) (margin : Option Anchor) : List Anchor :=
  let inMargin (m : Marker) := (margin.map (·.marker.isSame m)).getD false
  let ends := b.spread.filterMap fun m =>
    if line.holds m.start && !inMargin m then some (Anchor.opening line m)
    else if line.holds m.last then some (Anchor.closing line m)
    else none
  let middles := (b.markers.filter fun m =>
    !m.spread && line.start ≤ m.start && m.stop ≤ line.stop).map (Anchor.middle line)
  (ends ++ middles).mergeSort Anchor.before

/-- The line as it is to be drawn. -/
def scene (b : Block) (index : Nat) (line : Line) : Scene :=
  let margin := firstAnchor? (b.spreadAnchors line)
  { style := b.style
    numberWidth := b.numberWidth
    index := index
    line := line
    inGap := false
    spread := b.spread
    margin := margin
    anchors := b.rowAnchors line margin }

/-- The lines of the block, given whether lines were left out before.  A line
without an anchor is left out; the first of a row of such lines is drawn empty,
to show that something is missing. -/
def drawLines (b : Block) (gap : Bool) : List (Line × Nat) → String
  | [] => ""
  | (line, index) :: rest =>
    let scene := b.scene index line
    if scene.margin.isNone && scene.anchors.isEmpty then
      let inside := b.spread.any (·.holds line.start)
      let drawn :=
        if gap then ""
        else if inside then { scene with inGap := true }.draw
        else scene.drawFrame (.strokes 0) ++ "\n"
      drawn ++ b.drawLines true rest
    else
      scene.draw ++ b.drawLines false rest

/-- The rows of advice under the last block. -/
def drawAdvice (b : Block) (advice : List String) : String :=
  let margin :=
    match b.page.lines with
    | [] => ""
    | line :: _ => { b.scene 0 line with margin := none, anchors := [] }.drawMargin (.strokes 0)
  let lead (index : Nat) :=
    if advice.length = 1 then "Help" else "Help " ++ toString (index + 1)
  String.join <| advice.zipIdx.map fun (text, index) =>
    let rows := (Text.lines text).zipIdx.map fun (piece, row) =>
      let head :=
        if row = 0 then b.style.paint Ink.note (lead index) ++ ": "
        else spaces ((lead index).length + 2)
      margin ++ head ++ piece ++ "\n"
    margin ++ "\n" ++ String.join rows

end Block

/-- The place that a report is headed by, in lines and characters from one. -/
def location (page : Page) (file : String) (start : Nat) : String :=
  match page.lineAt? start with
  | none => file ++ ":?:?"
  | some index =>
    let column := start - ((page.lines[index]?.map (·.start)).getD 0)
    file ++ ":" ++ toString (index + 1) ++ ":" ++ toString (column + 1)

/-- The report of one diagnostic. -/
def report (style : Style) (file source : String) (d : Diagnostic) : String :=
  let g := style.glyphs
  let page := Page.ofText source.toList
  let groups := blocks (markersOf page d)
  let ranges := groups.map (rangeOf page)
  let width := ranges.foldl (fun width range => max width (toString range.2).length) 0
  let frame (text : String) := style.paint Ink.margin text
  let drawn := (groups.zip ranges).zipIdx.map fun ((markers, first, last), index) =>
    let spread := (markers.filter (·.spread)).mergeSort fun m m' => m'.length ≤ m.length
    let block : Block := ⟨style, page, width, markers, spread⟩
    let corner := if index = 0 then g.topLeft else g.crossLeft
    let head := spaces (width + 2) ++ frame corner ++ frame g.horizontal ++ frame "["
      ++ " " ++ location page file d.span.start ++ " " ++ frame "]" ++ "\n"
      ++ spaces (width + 2) ++ frame g.vertical ++ "\n"
    let lines := (page.lines.zipIdx.take last).drop first
    let foot :=
      if index + 1 = groups.length then
        block.drawAdvice d.advice ++ frame (times (width + 2) g.horizontal ++ g.bottomRight) ++ "\n"
      else spaces (width + 2) ++ frame g.vertical ++ "\n"
    head ++ block.drawLines false lines ++ foot
  headline style d ++ String.join drawn

/-- The drawing of a failure. -/
def draw (settings : Settings) (failure : Failure) : String :=
  match failure with
  | .misuse message => "error: " ++ message ++ "\n"
  | .rejected diagnostics source file =>
    let name := (settings.file.or file).getD "<unknown>"
    String.join (diagnostics.map (report settings.style name source))

end TypeNaming.Drawing
