/-
# Leads and last parts

What `after?` and `lastPart` say about a text, as equations between texts.
-/
import Mathlib.Data.List.Basic
import TypeNaming.Text.Dotted

namespace TypeNaming.Text

theorem after?_eq_some_iff {lead text rest : String} :
    after? lead text = some rest ↔ text = lead ++ rest := by
  simp only [after?, Option.map_eq_some_iff, List.isPrefixOf?_eq_some_iff_append_eq]
  constructor
  · rintro ⟨cs, h, rfl⟩
    exact String.toList_inj.mp (by simpa using h.symm)
  · rintro rfl
    exact ⟨rest.toList, by simp, by simp⟩

theorem after?_eq_none_iff {lead text : String} :
    after? lead text = none ↔ ∀ rest, text ≠ lead ++ rest := by
  constructor
  · intro h rest htext
    rw [after?_eq_some_iff.mpr htext] at h
    cases h
  · intro h
    cases hafter : after? lead text with
    | none => rfl
    | some rest => exact absurd (after?_eq_some_iff.mp hafter) (h rest)

end TypeNaming.Text
