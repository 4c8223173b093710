/-
# Blank characters

The Unicode property White_Space, and the trimming that goes by it.  The
grammar of signatures knows fewer blanks (see `Signature.Token`); these are the
ones around a line of input and at the end of a drawn line.
-/
import TypeNaming.Text.Range

namespace TypeNaming.Text

/-- The ranges of the property White_Space. -/
def blankRanges : RangeTable :=
  [ (0x0009, 0x000D), (0x0020, 0x0020), (0x0085, 0x0085), (0x00A0, 0x00A0),
    (0x1680, 0x1680), (0x2000, 0x200A), (0x2028, 0x2029), (0x202F, 0x202F),
    (0x205F, 0x205F), (0x3000, 0x3000) ]

/-- Whether the character is white space. -/
def isBlank (c : Char) : Bool :=
  blankRanges.covers c.toNat

theorem isBlank_of_isWhitespace {c : Char} (h : c.isWhitespace = true) : isBlank c = true := by
  simp only [Char.isWhitespace, Bool.or_eq_true, decide_eq_true_eq] at h
  rcases h with ((rfl | rfl) | rfl) | rfl <;> decide

/-- The characters up to the last one that is not blank. -/
def trimEnd (cs : List Char) : List Char :=
  (cs.reverse.dropWhile isBlank).reverse

/-- The text without the blanks at its two ends. -/
def trim (text : String) : String :=
  String.ofList (trimEnd (text.toList.dropWhile isBlank))

/-- The lines of a text.  A line ends with a line feed, together with the carriage
return right before it if there is one; what is left after the last line feed
is a line unless it is empty. -/
def lines (text : String) : List String :=
  (splitLines text.toList).map String.ofList
where
  /-- The characters of each line, without what ends it. -/
  splitLines : List Char → List (List Char)
    | [] => []
    | '\n' :: cs => [] :: splitLines cs
    | '\r' :: '\n' :: cs => [] :: splitLines cs
    | c :: cs =>
      match splitLines cs with
      | [] => [[c]]
      | line :: lines => (c :: line) :: lines

end TypeNaming.Text
