/-
# A `?` after a text

A text that is read as a type without a `?` is read with one after it, as that type under
`?`.  The `?` ends no path early and starts none, so the text is cut as before, with one
lexeme more (`Cut.append_mark`), and that row is the row of the tree with its mark.
-/
import TypeNaming.Proofs.Grammar.Descent
import TypeNaming.Proofs.Grammar.Respelling
import TypeNaming.Proofs.RoundTrip.Nesting

namespace TypeNaming.Signature

theorem Stops.append_mark : ∀ {rest : List Char}, Stops rest → Stops (rest ++ ['?'])
  | [], _ => rfl
  | [c], h => by
      have h : goesOn c [] = false := h
      have hstart : isIdentStart '?' = false := rfl
      show goesOn c ['?'] = false
      simpa [goesOn, hstart] using h
  | _ :: _ :: _, h => h

/-- A `?` after the text is one lexeme after its lexemes. -/
theorem Cut.append_mark {text : List Char} {lexemes : List Lexeme} (h : Cut text lexemes) :
    Cut (text ++ ['?']) (lexemes ++ [.question]) := by
  induction h with
  | done => exact .mark .question .done
  | blank hspace _ ih => exact .blank hspace ih
  | mark hmark _ ih => exact .mark hmark ih
  | path hpath hlong _ ih =>
      rw [List.append_assoc]
      exact .path hpath (longest_of_stops hpath (stops_of_longest hpath hlong).append_mark) ih

theorem row_withMark {type : Written} (h : type.isMarked = false) :
    type.withMark.row = type.row ++ [.question] := by
  cases type with
  | named path args marked =>
      obtain rfl : marked = false := h
      cases args <;> simp [Written.withMark, Written.row, markLexemes]
  | tuple elements marked =>
      obtain rfl : marked = false := h
      cases elements <;> simp [Written.withMark, Written.row, markLexemes]

theorem annotated_denoteMark (type : TypeFacts Unit) :
    (denoteMark type).facts.annotated = true := by
  unfold denoteMark
  split <;> rfl

theorem annotated_of_isMarked {context : Context} {type : Written} (h : type.isMarked = true) :
    (denote context type).facts.annotated = true := by
  cases type with
  | named path args marked =>
      obtain rfl : marked = true := h
      rw [denote, if_pos rfl]
      exact annotated_denoteMark _
  | tuple elements marked =>
      obtain rfl : marked = true := h
      rw [denote, if_pos rfl]
      exact annotated_denoteMark _

theorem Written.nesting_withMark (type : Written) : type.withMark.nesting = type.nesting := by
  cases type with
  | named path args marked => cases args <;> rfl
  | tuple elements marked => rfl

/-- A type without a `?` is read under a `?` when that is written after it. -/
theorem read_append_mark {context : Context} {source : String} {signature : Signature}
    (h : read context source = .ok signature) (hannotated : signature.facts.annotated = false) :
    ∃ marked, read context (source ++ "?") = .ok marked ∧
      marked.bare = denoteMark signature.bare := by
  obtain ⟨hdepth, lexemes, written, hcut, hderives, hsound, hbare⟩ := denotes_of_read h
  obtain rfl := hderives.eq_row
  have hplain : (denote context written).facts.annotated = false := by
    rw [← hbare, TypeFacts.facts_bare, hannotated]
  have hunmarked : written.isMarked = false := by
    refine Bool.eq_false_iff.mpr fun hmarked => ?_
    rw [annotated_of_isMarked hmarked] at hplain
    cases hplain
  have hcut' : Cut (source ++ "?").toList written.withMark.row := by
    rw [row_withMark hunmarked, String.toList_append]
    exact hcut.append_mark
  have hdepth' : WithinDepth context.maxDepth (source ++ "?").toList := by
    rw [withinDepth_iff_nesting hcut', written.nesting_withMark,
      ← withinDepth_iff_nesting hcut]
    exact hdepth
  have hderives' := (derivable_withMark.mpr ⟨_, hderives⟩).row
  have hsound' := (violation_withMark hunmarked hplain).not.mpr hsound
  obtain ⟨marked, hread, hmarked⟩ := read_of_denotes hdepth' hcut' hderives' hsound'
  refine ⟨marked, hread, ?_⟩
  rw [hmarked, denote_withMark hunmarked, hbare]

end TypeNaming.Signature
