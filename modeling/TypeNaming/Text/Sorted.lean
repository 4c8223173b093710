/-
# Sorted lists of names

Names in the order of their code points, each one once.  This is also the order
of the UTF-8 bytes.  `Sorted.ofList` puts a list into that form; `mem_ofList`
says that it neither adds nor loses a name, `pairwise_ofList` that the result is
strictly increasing.
-/
namespace TypeNaming.Text.Sorted

/-- Put a name in its place, unless it is there already. -/
def insert (name : String) : List String → List String
  | [] => [name]
  | other :: others =>
    if name < other then name :: other :: others
    else if name = other then other :: others
    else other :: insert name others

/-- The names of a list, increasing and without repeats. -/
def ofList (names : List String) : List String :=
  names.foldr insert []

theorem mem_insert {name other : String} {names : List String} :
    other ∈ insert name names ↔ other = name ∨ other ∈ names := by
  induction names with
  | nil => simp [insert]
  | cons head tail ih =>
      simp only [insert]
      split
      · simp
      · split
        · next h => subst h; simp
        · simp only [List.mem_cons, ih]
          constructor
          · rintro (h | h | h)
            · exact .inr (.inl h)
            · exact .inl h
            · exact .inr (.inr h)
          · rintro (h | h | h)
            · exact .inr (.inl h)
            · exact .inl h
            · exact .inr (.inr h)

theorem mem_ofList {name : String} {names : List String} :
    name ∈ ofList names ↔ name ∈ names := by
  induction names with
  | nil => simp [ofList]
  | cons head tail ih =>
      rw [ofList, List.foldr_cons, mem_insert, ← ofList, ih, List.mem_cons]

theorem pairwise_insert {name : String} {names : List String}
    (h : names.Pairwise (· < ·)) : (insert name names).Pairwise (· < ·) := by
  induction names with
  | nil => simp [insert]
  | cons head tail ih =>
      have htail := List.pairwise_cons.1 h
      simp only [insert]
      split
      · next hlt =>
          refine List.pairwise_cons.2 ⟨?_, h⟩
          intro other hother
          rcases List.mem_cons.1 hother with rfl | hmem
          · exact hlt
          · exact String.lt_trans hlt (htail.1 other hmem)
      · split
        · exact h
        · next hlt hne =>
            refine List.pairwise_cons.2 ⟨?_, ih htail.2⟩
            intro other hother
            rcases mem_insert.1 hother with rfl | hmem
            · have hle : head ≤ other := String.not_lt.1 hlt
              refine Decidable.byContradiction fun hnot => hne ?_
              exact String.le_antisymm (String.not_lt.1 hnot) hle
            · exact htail.1 other hmem

theorem pairwise_ofList (names : List String) : (ofList names).Pairwise (· < ·) := by
  induction names with
  | nil => simp [ofList]
  | cons head tail ih => exact pairwise_insert ih

end TypeNaming.Text.Sorted
