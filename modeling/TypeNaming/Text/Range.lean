/-
# Ranges of code points

The Unicode properties this library asks about are kept as tables of closed
ranges.  A table is read by `covers`, and its meaning is `covers_iff`: a code
point is covered when some range of the table holds it.
-/
namespace TypeNaming.Text

/-- A table of closed ranges of code points. -/
abbrev RangeTable := List (Nat × Nat)

/-- Whether some range of the table holds the code point. -/
def RangeTable.covers (table : RangeTable) (code : Nat) : Bool :=
  table.any fun range => range.1 ≤ code && code ≤ range.2

theorem RangeTable.covers_iff {table : RangeTable} {code : Nat} :
    table.covers code = true ↔ ∃ range ∈ table, range.1 ≤ code ∧ code ≤ range.2 := by
  simp [RangeTable.covers]

theorem RangeTable.covers_of_lt {table : RangeTable} {bound code : Nat}
    (h : table.all (fun range => bound ≤ range.1) = true) (hc : code < bound) :
    table.covers code = false := by
  refine Bool.eq_false_iff.2 fun hcovers => ?_
  obtain ⟨range, hmem, hle, -⟩ := RangeTable.covers_iff.1 hcovers
  have := of_decide_eq_true (List.all_eq_true.1 h range hmem)
  omega

end TypeNaming.Text
