/-
# Decimal numbers

The value of a row of ASCII digits, and the reading of a number that has to fit
into a machine word of 64 bits.  Leading zeros are allowed; a sign is not.
-/
namespace TypeNaming.Text

/-- One more than the largest number of a 64-bit word. -/
def wordBound : Nat := UInt64.size

/-- The value of one ASCII digit. -/
def digitValue (c : Char) : Nat :=
  c.toNat - '0'.toNat

/-- The value of a row of digits, the first one the most significant. -/
def decimalValue (digits : List Char) : Nat :=
  digits.foldl (fun value c => 10 * value + digitValue c) 0

/-- The number written by a non-empty row of ASCII digits, if a word holds it. -/
def word? (digits : List Char) : Option Nat :=
  if digits ≠ [] ∧ digits.all Char.isDigit ∧ decimalValue digits < wordBound then
    some (decimalValue digits)
  else
    none

end TypeNaming.Text
