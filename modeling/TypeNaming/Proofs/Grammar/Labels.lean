/-
# Labels by position

A label that is not written is `Item1`, `Item2`, … by its position.  This module says
that writing such a label out changes nothing: it names its own position and no other
(`namesPosition_defaultLabel`), and whether some label of a tuple is rejected is a
question about the labels that the elements end up with, written or not
(`rejectsLabel_iff`).  Their types have no part in it (`rejectsLabel_congr`).

The check of a tuple goes from left to right, and looks at each label that is written with
those before it.  What it comes to is a rule about all the labels at once
(`tuple_accepted_iff`): a default label that is filled in later needs no check of its own,
because a written label that is equal to it names the later position, and is rejected for
that.

Positions that a label can name are machine words, so all this is about tuples whose
positions are.
-/
import TypeNaming.Proofs.Grammar.Denotation

namespace TypeNaming

namespace Signature

theorem defaultLabel_eq (index : Nat) :
    defaultLabel index = "Item" ++ String.ofList (Nat.toDigits 10 (index + 1)) := by
  rw [defaultLabel, Nat.toString_eq_repr, Nat.repr_eq_ofList_toDigits]

/-- A label that is not written names its own position, if it names one. -/
theorem namesPosition_defaultLabel {index position : Nat} :
    NamesPosition (defaultLabel index) position ↔
      position = index + 1 ∧ index + 1 < UInt64.size := by
  rw [defaultLabel_eq]
  constructor
  · rintro ⟨digits, heq, -, -, -, rfl, hbound⟩
    have heq : Nat.toDigits 10 (index + 1) = digits := by
      have := congrArg String.toList heq
      simpa using this
    subst heq
    rw [Text.decimalValue_toDigits] at hbound ⊢
    exact ⟨rfl, hbound⟩
  · rintro ⟨rfl, hbound⟩
    exact ⟨_, rfl, Nat.toDigits_ne_nil, Text.head?_toDigits _ (Nat.succ_pos index),
      fun d hd => Nat.isDigit_of_mem_toDigits (by decide) (by decide) hd,
      Text.decimalValue_toDigits _, hbound⟩

theorem defaultLabel_inj {index other : Nat} (h : defaultLabel index = defaultLabel other) :
    index = other := by
  rw [defaultLabel_eq, defaultLabel_eq] at h
  have hdigits : Nat.toDigits 10 (index + 1) = Nat.toDigits 10 (other + 1) := by
    have := congrArg String.toList h
    simpa using this
  have hvalues := congrArg Text.decimalValue hdigits
  rw [Text.decimalValue_toDigits, Text.decimalValue_toDigits] at hvalues
  omega

/-- A label that is not written is made of letters and digits. -/
theorem isAlphanum_of_mem_defaultLabel {index : Nat} {c : Char}
    (h : c ∈ (defaultLabel index).toList) : c.isAlphanum = true := by
  rw [defaultLabel_eq, String.toList_append] at h
  rcases List.mem_append.mp h with h | h
  · have hletters : "Item".toList.all Char.isAlphanum = true := by decide
    exact List.all_eq_true.mp hletters c h
  · rw [String.toList_ofList] at h
    have hdigit : c.isDigit = true :=
      Nat.isDigit_of_mem_toDigits (Nat.succ_pos 9) (Nat.le_refl 10) h
    rw [Char.isAlphanum, hdigit, Bool.or_true]

theorem dot_not_mem_defaultLabel (index : Nat) : '.' ∉ (defaultLabel index).toList := by
  intro hmem
  exact absurd (isAlphanum_of_mem_defaultLabel hmem) (by decide)

/-! ## The labels that the elements end up with -/

theorem getElem?_labelsOf (elements : List WrittenElement) (index : Nat) :
    (labelsOf elements)[index]? =
      elements[index]?.map fun element => element.label.getD (defaultLabel index) := by
  rw [labelsOf, List.getElem?_mapIdx]

theorem mem_labelsOf_take_iff {elements : List WrittenElement} {index : Nat} {label : String} :
    label ∈ labelsOf (elements.take index) ↔
      ∃ earlier < index, (labelsOf elements)[earlier]? = some label := by
  simp only [List.mem_iff_getElem?, getElem?_labelsOf, List.getElem?_take]
  refine exists_congr fun earlier => ?_
  by_cases h : earlier < index <;> simp [h]

/-- The label at the position is one that an earlier element has, or it names another
position. -/
def MisplacedAt (labels : List String) (index : Nat) : Prop :=
  ∃ label, labels[index]? = some label ∧
    ((∃ earlier < index, labels[earlier]? = some label) ∨
      ∃ position, NamesPosition label position ∧ position ≠ index + 1)

/-- The label of the element at the position is written, and it is the label. -/
def WrittenAt (elements : List WrittenElement) (index : Nat) (label : String) : Prop :=
  (elements.map WrittenElement.label)[index]? = some (some label)

theorem labelsOf_of_writtenAt {elements : List WrittenElement} {index : Nat} {label : String}
    (h : WrittenAt elements index label) : (labelsOf elements)[index]? = some label := by
  obtain ⟨element, helement, hlabel⟩ : ∃ element, elements[index]? = some element ∧
      element.label = some label := by
    simpa [WrittenAt] using h
  rw [getElem?_labelsOf, helement, Option.map_some, hlabel, Option.getD_some]

theorem writtenAt_of_labelsOf {elements : List WrittenElement} {index : Nat} {label : String}
    (h : (labelsOf elements)[index]? = some label) (hlabel : label ≠ defaultLabel index) :
    WrittenAt elements index label := by
  obtain ⟨⟨type, own⟩, helement, hown⟩ : ∃ element, elements[index]? = some element ∧
      element.label.getD (defaultLabel index) = label := by
    simpa [getElem?_labelsOf] using h
  cases own with
  | none => exact absurd hown.symm hlabel
  | some own =>
      obtain rfl : own = label := hown
      simp [WrittenAt, helement, WrittenElement.label]

/-- The labels that are rejected are the written ones that are misplaced. -/
theorem rejectsLabel_iff_written {elements : List WrittenElement} :
    RejectsLabel [] elements ↔
      ∃ index, (∃ label, WrittenAt elements index label) ∧
        MisplacedAt (labelsOf elements) index := by
  constructor
  · rintro ⟨front, type, label, back, rfl, hrejected⟩
    have hwritten : WrittenAt (front ++ .mk type (some label) :: back) front.length label := by
      simp [WrittenAt, WrittenElement.label]
    refine ⟨front.length, ⟨label, hwritten⟩, label, labelsOf_of_writtenAt hwritten, ?_⟩
    rcases hrejected with hmem | hposition
    · refine Or.inl (mem_labelsOf_take_iff.mp ?_)
      simpa using hmem
    · exact Or.inr hposition
  · rintro ⟨index, ⟨label, hwritten⟩, own, hown, hmisplaced⟩
    obtain rfl : label = own :=
      Option.some.inj ((labelsOf_of_writtenAt hwritten).symm.trans hown)
    obtain ⟨⟨type, _⟩, helement, rfl⟩ : ∃ element, elements[index]? = some element ∧
        element.label = some label := by
      simpa [WrittenAt] using hwritten
    obtain ⟨hindex, heq⟩ := List.getElem?_eq_some_iff.mp helement
    refine ⟨elements.take index, type, label, elements.drop (index + 1), ?_, ?_⟩
    · rw [← heq, List.getElem_cons_drop, List.take_append_drop]
    · rcases hmisplaced with hearlier | ⟨position, hnames, hposition⟩
      · exact Or.inl (mem_labelsOf_take_iff.mpr hearlier)
      · refine Or.inr ⟨position, hnames, ?_⟩
        rwa [List.nil_append, List.length_take_of_le (Nat.le_of_lt hindex)]

theorem labelsOf_congr {elements others : List WrittenElement}
    (h : elements.map WrittenElement.label = others.map WrittenElement.label) :
    labelsOf elements = labelsOf others := by
  refine List.ext_getElem? fun index => ?_
  have hlabel : elements[index]?.map WrittenElement.label
      = others[index]?.map WrittenElement.label := by
    rw [← List.getElem?_map, h, List.getElem?_map]
  have hown (element : Option WrittenElement) :
      (element.map fun element => element.label.getD (defaultLabel index))
        = (element.map WrittenElement.label).map (·.getD (defaultLabel index)) := by
    rw [Option.map_map]
    rfl
  rw [getElem?_labelsOf, getElem?_labelsOf, hown, hown, hlabel]

/-- The types of the elements have no part in it. -/
theorem rejectsLabel_congr {elements others : List WrittenElement}
    (h : elements.map WrittenElement.label = others.map WrittenElement.label) :
    RejectsLabel [] elements ↔ RejectsLabel [] others := by
  simp only [rejectsLabel_iff_written, WrittenAt, labelsOf_congr h, h]

/-- Whether some label is rejected is a question about the labels that the elements end
up with.  One that is not written can only clash with one that is, before it; that one
names the later position then, and is rejected where it stands. -/
theorem rejectsLabel_iff {elements : List WrittenElement}
    (hbound : elements.length < UInt64.size) :
    RejectsLabel [] elements ↔ ∃ index, MisplacedAt (labelsOf elements) index := by
  rw [rejectsLabel_iff_written]
  constructor
  · rintro ⟨index, -, hmisplaced⟩
    exact ⟨index, hmisplaced⟩
  · rintro ⟨index, label, hlabel, hmisplaced⟩
    by_cases hown : label = defaultLabel index
    · subst hown
      have hindex : index < elements.length := by
        simpa using (List.getElem?_eq_some_iff.mp hlabel).1
      rcases hmisplaced with ⟨earlier, hearlier, hsame⟩ | ⟨position, hnames, hposition⟩
      · have hne : defaultLabel index ≠ defaultLabel earlier := by
          intro heq
          have := defaultLabel_inj heq
          omega
        have hnames : NamesPosition (defaultLabel index) (index + 1) :=
          namesPosition_defaultLabel.mpr ⟨rfl, by omega⟩
        exact ⟨earlier, ⟨_, writtenAt_of_labelsOf hsame hne⟩, _, hsame,
          Or.inr ⟨index + 1, hnames, by omega⟩⟩
      · exact absurd (namesPosition_defaultLabel.mp hnames).1 hposition
    · exact ⟨index, ⟨label, writtenAt_of_labelsOf hlabel hown⟩, label, hlabel, hmisplaced⟩

/-! ## Tuples with labels of their own -/

/-- The labels of a tuple, in the order of its elements: no two are the same, and one that
names a position has that position. -/
structure WellLabelled (labels : List String) : Prop where
  distinct : labels.Nodup
  placed : ∀ index label position, labels[index]? = some label → NamesPosition label position →
    position = index + 1

theorem wellLabelled_iff {labels : List String} :
    WellLabelled labels ↔ ¬ ∃ index, MisplacedAt labels index := by
  constructor
  · rintro ⟨hdistinct, hplaced⟩ ⟨index, label, hlabel, ⟨earlier, hlt, hsame⟩ | ⟨position, hnames,
      hposition⟩⟩
    · have hindex : earlier < labels.length := (List.getElem?_eq_some_iff.mp hsame).1
      have heq : earlier = index :=
        (List.getElem?_inj hindex hdistinct).mp (hsame.trans hlabel.symm)
      exact absurd heq (Nat.ne_of_lt hlt)
    · exact hposition (hplaced index label position hlabel hnames)
  · intro h
    refine ⟨?_, fun index label position hlabel hnames => ?_⟩
    · rw [List.Nodup, List.pairwise_iff_getElem]
      intro earlier index hearlier hindex hlt heq
      have hlabel : labels[index]? = some labels[earlier] := by
        rw [List.getElem?_eq_getElem hindex, heq]
      exact h ⟨index, _, hlabel, Or.inl ⟨earlier, hlt, List.getElem?_eq_getElem hearlier⟩⟩
    · by_contra hposition
      exact h ⟨index, label, hlabel, Or.inr ⟨position, hnames, hposition⟩⟩

section

variable {context : Context} {source : List Char} {elements : List Element}

/-- A tuple of types that have a meaning has one unless a label is rejected. -/
theorem meaning_tuple_iff (span : Span) (mark : Option Span)
    (htypes : ∀ element ∈ elements, ∃ type, meaning context source element.type = .ok type) :
    (∃ type, meaning context source (.tuple elements span mark) = .ok type) ↔
      ¬ RejectsLabel [] (elements.map Element.written) := by
  have hsound : ¬ ∃ element ∈ elements.map Element.written, Violation context element.type := by
    rintro ⟨_, hmem, hviolation⟩
    obtain ⟨⟨expr, label⟩, helement, rfl⟩ := List.mem_map.mp hmem
    obtain ⟨type, htype⟩ := htypes _ helement
    exact ((meaning_eq_ok_iff context source expr type.bare).mp ⟨type, htype, rfl⟩).1 hviolation
  have hiff := meaning_eq_ok_iff context source (.tuple elements span mark)
  have htuple : Violation context (TypeExpr.tuple elements span mark).written ↔
      RejectsLabel [] (elements.map Element.written) := by
    rw [TypeExpr.written, Element.writtenAll_eq_map, violation_tuple_iff]
    exact or_iff_right hsound
  rw [← htuple]
  constructor
  · rintro ⟨type, htype⟩
    exact ((hiff type.bare).mp ⟨type, htype, rfl⟩).1
  · intro h
    obtain ⟨type, htype, -⟩ := (hiff _).mpr ⟨h, rfl⟩
    exact ⟨type, htype⟩

theorem labels_of_meaning {span : Span} {type : Signature}
    (h : meaning context source (.tuple elements span none) = .ok type) :
    type.facts.labels = labelsOf (elements.map Element.written) := by
  have hbare := ((meaning_eq_ok_iff context source _ type.bare).mp ⟨type, h, rfl⟩).2
  rw [← TypeFacts.facts_bare, hbare, TypeExpr.written, Element.writtenAll_eq_map]
  rfl

end

/-- A tuple of types that have a meaning has one exactly when its labels, with `Item1`,
`Item2`, … for those that are not written, are different from each other and no label names
another position than its own; and these are its labels then.  A label that is written is not
the one that a later element gets. -/
theorem tuple_accepted_iff (context : Context) (source : List Char) (elements : List Element)
    (span : Span) (mark : Option Span) (hbound : elements.length < UInt64.size)
    (htypes : ∀ element ∈ elements, ∃ type, meaning context source element.type = .ok type) :
    let written := elements.map Element.written
    ((∃ type, meaning context source (.tuple elements span mark) = .ok type) ↔
      WellLabelled (labelsOf written)) ∧
    (∀ type, meaning context source (.tuple elements span none) = .ok type →
      type.facts.labels = labelsOf written) ∧
    (WellLabelled (labelsOf written) → ∀ index later label, WrittenAt written index label →
      (written.map WrittenElement.label)[later]? = some none → label ≠ defaultLabel later) := by
  intro written
  have hlength : written.length < UInt64.size := by simpa [written] using hbound
  refine ⟨?_, fun type => labels_of_meaning, ?_⟩
  · rw [meaning_tuple_iff span mark htypes, rejectsLabel_iff hlength, wellLabelled_iff]
  · rintro hwell index later label hwritten hlater rfl
    obtain ⟨element, helement, hnone⟩ : ∃ element, written[later]? = some element ∧
        element.label = none := by
      simpa using hlater
    have hown : (labelsOf written)[later]? = some (defaultLabel later) := by
      rw [getElem?_labelsOf, helement, Option.map_some, hnone, Option.getD_none]
    have hindex : index < (labelsOf written).length :=
      (List.getElem?_eq_some_iff.mp (labelsOf_of_writtenAt hwritten)).1
    have hsame : index = later :=
      (List.getElem?_inj hindex hwell.distinct).mp
        ((labelsOf_of_writtenAt hwritten).trans hown.symm)
    subst hsame
    rw [WrittenAt, hlater] at hwritten
    cases hwritten

/-- Labels that look like positions and name none: `Item` with a leading zero, without a
number, and with one that no word holds; the third element has no label. -/
theorem tuple_accepted_iff_overflow :
    let type : TypeExpr := .named "int" [] ⟨0, 3⟩ none
    let label (text : String) : Option Label := some ⟨text, ⟨4, 10⟩⟩
    let elements : List Element := [.mk type (label "Item02"),
      .mk type (label "Item18446744073709551616"), .mk type none, .mk type (label "Item")]
    elements.length < UInt64.size ∧
      (∀ element ∈ elements, ∃ type, meaning {} [] element.type = .ok type) ∧
      WellLabelled ["Item02", "Item18446744073709551616", "Item3", "Item"] := by
  intro type label elements
  have hbound : elements.length < UInt64.size := by decide
  have htypes : ∀ element ∈ elements, ∃ type, meaning {} [] element.type = .ok type := by
    simp only [elements, List.forall_mem_cons, List.not_mem_nil, false_imp_iff, implies_true,
      and_true]
    exact ⟨⟨_, rfl⟩, ⟨_, rfl⟩, ⟨_, rfl⟩, ⟨_, rfl⟩⟩
  obtain ⟨haccepted, -, -⟩ := tuple_accepted_iff {} [] elements ⟨0, 9⟩ none hbound htypes
  obtain ⟨type, htype⟩ : ∃ type, meaning {} [] (.tuple elements ⟨0, 9⟩ none) = .ok type :=
    ⟨_, rfl⟩
  have hown : labelsOf (elements.map Element.written)
      = ["Item02", "Item18446744073709551616", "Item3", "Item"] := by decide +kernel
  exact ⟨hbound, htypes, hown ▸ haccepted.mp ⟨type, htype⟩⟩

end Signature

end TypeNaming
