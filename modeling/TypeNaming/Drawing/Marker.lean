/-
# Markers

A marker is a range of a drawn text with a message.  The markers of a diagnostic
are its own span and the related ones; those that lie past the end of the text
are not drawn.  Consecutive markers are drawn in one block as long as they go
down the text.
-/
import TypeNaming.Drawing.Line
import TypeNaming.Drawing.Style
import TypeNaming.Failure

namespace TypeNaming.Drawing

/-- A range of the text with a message. -/
structure Marker where
  /-- Tells the markers of one diagnostic apart. -/
  id : Nat
  start : Nat
  stop : Nat
  /-- The line that the range ends on. -/
  line : Nat
  /-- Whether the range begins on another line than it ends on. -/
  spread : Bool
  message : String
  ink : Ink

namespace Marker

/-- The last place in the range, or the only one when it is empty. -/
def last (m : Marker) : Nat := max (m.stop - 1) m.start

/-- The number of characters in the range. -/
def length (m : Marker) : Nat := m.stop - m.start

/-- Whether the place is in the range. -/
def holds (m : Marker) (place : Nat) : Bool := m.start ≤ place && place < m.stop

/-- Whether it is the same marker. -/
def isSame (m other : Marker) : Bool := m.id == other.id

/-- The marker of a range, if the range is in the text. -/
def ofSpan? (page : Page) (id : Nat) (span : Span) (message : String) (ink : Ink) :
    Option Marker := do
  let first ← page.lineAt? span.start
  let line ← if span.stop ≤ span.start then some first else page.lineAt? (span.stop - 1)
  return ⟨id, span.start, span.stop, line, first != line, message, ink⟩

end Marker

/-- The first of the shortest markers. -/
def shortest? : List Marker → Option Marker
  | [] => none
  | m :: ms =>
    match shortest? ms with
    | none => some m
    | some best => if best.length < m.length then some best else some m

/-- The markers of a diagnostic. -/
def markersOf (page : Page) (d : Diagnostic) : List Marker :=
  let places := (d.span, d.message) :: d.related.map fun r => (r.span, r.message)
  (places.zip (markerInks places.length)).zipIdx.filterMap fun ((place, ink), id) =>
    Marker.ofSpan? page id place.1 place.2 ink

/-- The markers in blocks, each of which goes down the text. -/
def blocks : List Marker → List (List Marker)
  | [] => []
  | m :: ms =>
    match ms.head?, blocks ms with
    | some next, block :: others =>
      if m.line ≤ next.line then (m :: block) :: others else [m] :: block :: others
    | _, others => [m] :: others

/-- The lines that a block is drawn over: the first, and the one after the last. -/
def rangeOf (page : Page) (block : List Marker) : Nat × Nat :=
  let first := block.foldl (fun place m => min place m.start) ((block.head?.map (·.start)).getD 0)
  let stop := block.foldl (fun place m => max place m.stop) 0
  ((page.lineAt? first).getD 0,
    ((page.lineAt? (max (stop - 1) first)).map (· + 1)).getD page.lines.length)

end TypeNaming.Drawing
