/-
# How deep brackets are nested

Before a text is read, its brackets are counted: an opening one adds a level, a
closing one takes one away unless there is none.  Only the characters are looked
at, so the count is defined for every text, in the grammar or not.
-/
import TypeNaming.Text.Offset

namespace TypeNaming.Signature

/-- The number of open brackets after the character. -/
def depthAfter (depth : Nat) (c : Char) : Nat :=
  if c = '<' ∨ c = '(' then depth + 1
  else if c = '>' ∨ c = ')' then depth - 1
  else depth

/-- The byte offset of the first bracket that opens more than `limit` levels, in
a text that begins at byte `pos` inside `depth` brackets. -/
def firstTooDeepFrom (limit pos depth : Nat) : List Char → Option Nat
  | [] => none
  | c :: rest =>
    if limit < depthAfter depth c then some pos
    else firstTooDeepFrom limit (pos + c.utf8Size) (depthAfter depth c) rest

/-- The byte offset of the first bracket that opens more than `limit` levels. -/
def firstTooDeep? (limit : Nat) (text : List Char) : Option Nat :=
  firstTooDeepFrom limit 0 0 text

end TypeNaming.Signature
