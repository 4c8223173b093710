/-
# Columns

How many terminal columns a character takes when it is drawn from a given
column on: a tab runs to the next multiple of four, any other blank is drawn as
one space, and everything else takes its own width.
-/
import TypeNaming.Text.Blank
import TypeNaming.Text.Width

namespace TypeNaming.Text

/-- The distance between two tab stops. -/
def tabStop : Nat := 4

/-- The columns taken by a character that starts at the given column. -/
def columns (c : Char) (column : Nat) : Nat :=
  if c = '\t' then (column / tabStop + 1) * tabStop - column
  else if isBlank c then 1
  else width c

/-- A tab always moves on, and never past the next stop. -/
theorem columns_tab (column : Nat) :
    1 ≤ columns '\t' column ∧ columns '\t' column ≤ tabStop := by
  have h := Nat.div_add_mod column tabStop
  have hlt := Nat.mod_lt column (show 0 < tabStop by decide)
  simp only [columns, if_true, tabStop] at *
  omega

end TypeNaming.Text
