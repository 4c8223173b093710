/-
# Positional members are a codec

A name is a positional member exactly when it is the lead of an accessor, `T`, and a row of
decimal digits whose number a word holds (`ofText?_eq_some_iff`).  The leads begin with
different letters, so a name has at most one of them (`Spells.lead_unique`).

Writing a positional member and reading it gives it back.  The other way round the name
comes back without its redundant zeros, because those are all that the digits of a number
leave open (`Text.toDigits_decimalValue`).  Whether a word holds the number is a question
about its value; a row of digits can be as long as it likes when it begins with zeros.
-/
import TypeNaming.Proofs.Members.Numbered

namespace TypeNaming.Positional

/-- The name is written with the lead of the accessor and the digits, and the digits are
those of the index, perhaps with zeros in front. -/
structure Spells (name : String) (p : Positional) (digits : List Char) : Prop where
  text : name = p.accessor.lead ++ "T" ++ String.ofList digits
  nonempty : digits ≠ []
  ascii : ∀ d ∈ digits, d.isDigit = true
  value : Nat.ofDigits 10 (digits.reverse.map Text.digitValue) = p.index
  word : p.index < UInt64.size

theorem ofText?_leadT (accessor : Accessor) (digits : List Char) :
    ofText? (accessor.lead ++ "T" ++ String.ofList digits)
      = (Text.word? digits).map (Positional.mk accessor) := by
  have hcons : "T" ++ String.ofList digits = String.ofList ('T' :: digits) := by
    refine String.toList_inj.mp ?_
    simp
  rw [String.append_assoc, ofText?_lead, hcons, Text.numberAfterT?_cons]

theorem exists_of_ofText? {name : String} {p : Positional} (h : ofText? name = some p) :
    ∃ digits, name = p.accessor.lead ++ "T" ++ String.ofList digits ∧
      Text.word? digits = some p.index := by
  obtain ⟨accessor, -, hfound⟩ := List.exists_of_findSome?_eq_some h
  obtain ⟨index, hindex, rfl⟩ := Option.map_eq_some_iff.mp hfound
  obtain ⟨digits, hlead, hword⟩ := Option.bind_eq_some_iff.mp hindex
  refine ⟨digits.toList, ?_, hword⟩
  rw [String.ofList_toList]
  exact Text.after?_eq_some_iff.mp hlead

theorem spells_iff {name : String} {p : Positional} {digits : List Char} :
    Spells name p digits ↔ name = p.accessor.lead ++ "T" ++ String.ofList digits ∧
      Text.word? digits = some p.index := by
  rw [Text.word?_eq_some_iff, Text.decimalValue_eq_ofDigits]
  constructor
  · rintro ⟨htext, hne, hdigits, hvalue, hword⟩
    exact ⟨htext, hne, hdigits, hvalue, hword⟩
  · rintro ⟨htext, hne, hdigits, hvalue, hword⟩
    exact ⟨htext, hne, hdigits, hvalue, hword⟩

theorem ofText?_eq_some_iff {name : String} {p : Positional} :
    ofText? name = some p ↔ ∃ digits, Spells name p digits := by
  simp only [spells_iff]
  constructor
  · exact exists_of_ofText?
  · rintro ⟨digits, rfl, hword⟩
    rw [ofText?_leadT, hword]
    rfl

theorem toText_eq (p : Positional) :
    p.toText = p.accessor.lead ++ "T" ++ String.ofList (Nat.toDigits 10 p.index) := by
  rw [toText, Nat.toString_eq_repr, Nat.repr_eq_ofList_toDigits]

theorem spells_toText {p : Positional} (h : p.index < UInt64.size) :
    Spells p.toText p (Nat.toDigits 10 p.index) :=
  spells_iff.mpr ⟨toText_eq p, Text.word?_eq_some_iff.mpr ⟨Nat.toDigits_ne_nil,
    fun _ hd => Nat.isDigit_of_mem_toDigits (by decide) (by decide) hd,
    Text.decimalValue_toDigits _, h⟩⟩

namespace Spells

variable {name : String} {p : Positional} {digits : List Char}

/-- No other lead stands at the beginning of the name. -/
theorem lead_unique (h : Spells name p digits) {other : Accessor} {rest : String}
    (hname : name = other.lead ++ rest) : other = p.accessor := by
  have htext := h.text
  rw [hname, String.append_assoc] at htext
  exact (Accessor.lead_append_inj.mp htext).1

/-- What is written for the member has the same digits without the redundant zeros. -/
theorem exists_unpadded (h : Spells name p digits) :
    ∃ zeros rest, digits = List.replicate zeros '0' ++ rest ∧ Text.Unpadded rest ∧
      p.toText = p.accessor.lead ++ "T" ++ String.ofList rest := by
  obtain ⟨zeros, rest, rfl, hrest⟩ := Text.exists_unpadded h.nonempty
  refine ⟨zeros, rest, rfl, hrest, ?_⟩
  have hvalue : Text.decimalValue rest = p.index := by
    rw [← Text.decimalValue_zeros zeros rest, Text.decimalValue_eq_ofDigits, h.value]
  have hdigits : ∀ d ∈ rest, d.isDigit = true :=
    fun d hd => h.ascii d (List.mem_append_right _ hd)
  rw [toText_eq, ← hvalue, Text.toDigits_decimalValue hdigits hrest]

end Spells

/-- A positional member whose index a word holds is read back from what is written for it.
A name is read as a positional member exactly when it is the lead of the accessor, `T`, and
ASCII digits that have the value of the index; then no other lead stands at its beginning,
and what is written for the member is the name without the redundant zeros. -/
theorem ofText?_codec :
    (∀ p : Positional, p.index < UInt64.size → ofText? p.toText = some p) ∧
    (∀ name p, ofText? name = some p ↔ ∃ digits, Spells name p digits) ∧
    ∀ name p digits, Spells name p digits →
      (∀ other rest, name = Accessor.lead other ++ rest → other = p.accessor) ∧
      ∃ zeros rest, digits = List.replicate zeros '0' ++ rest ∧ Text.Unpadded rest ∧
        p.toText = p.accessor.lead ++ "T" ++ String.ofList rest := by
  refine ⟨fun p h => ?_, fun name p => ofText?_eq_some_iff, fun name p digits h => ?_⟩
  · exact ofText?_eq_some_iff.mpr ⟨_, spells_toText h⟩
  · exact ⟨fun other rest hname => h.lead_unique hname, h.exists_unpadded⟩

/-- The largest index, and the same one behind zeros, in a row that is longer than any
number of a word. -/
theorem ofText?_codec_largest :
    ofText? "TryPickT18446744073709551615" = some ⟨.tryPick, 18446744073709551615⟩ ∧
      ofText? "TryPickT00018446744073709551615" = some ⟨.tryPick, 18446744073709551615⟩ ∧
      ∃ zeros rest, "00018446744073709551615".toList = List.replicate zeros '0' ++ rest ∧
        Text.Unpadded rest ∧
        "TryPickT18446744073709551615" = "TryPick" ++ "T" ++ String.ofList rest := by
  let p : Positional := ⟨.tryPick, 18446744073709551615⟩
  obtain ⟨hwritten, hread, hpadded⟩ := ofText?_codec
  have htext : p.toText = "TryPickT18446744073709551615" := by decide +kernel
  have hspells : Spells "TryPickT00018446744073709551615" p "00018446744073709551615".toList :=
    ⟨by decide +kernel, by decide, List.all_eq_true.mp (by decide), by decide +kernel, by decide⟩
  refine ⟨htext ▸ hwritten p (by decide), (hread _ p).mpr ⟨_, hspells⟩, ?_⟩
  obtain ⟨-, hrest⟩ := hpadded _ p _ hspells
  rw [htext] at hrest
  exact hrest

end TypeNaming.Positional
