/-
# Properties of what is accepted

`Kept` asks each way of denoting to keep a property, whatever the parts are.  Some properties
only hold of what is accepted: that a wrapper has one argument, that a `?` stands on a type
without one.  `Preserved` lists the three ways of denoting again, each with what the absence
of a violation says of it, and `Preserved.denote` is the induction over the tree that was
written.
-/
import TypeNaming.Proofs.RoundTrip.Writing

namespace TypeNaming.Signature

/-- Each way of denoting without a violation keeps the property, when paths and labels are
such names. -/
structure Preserved (context : Context) (Name : String → Prop) (P : TypeFacts Unit → Prop) :
    Prop where
  path : ∀ {path : String} {args : List (TypeFacts Unit)}, Name path →
    ¬ Misapplied context path args → (∀ arg ∈ args, P arg) → P (denotePath context path args)
  mark : ∀ {type : TypeFacts Unit}, P type → type.facts.annotated = false → P (denoteMark type)
  tuple : ∀ {elements : List WrittenElement} {types : List (TypeFacts Unit)},
    2 ≤ types.length → elements.length = types.length → ¬ RejectsLabel [] elements →
    (∀ element ∈ elements, ∀ label, element.label = some label →
      Name label ∧ '.' ∉ label.toList) →
    (∀ type ∈ types, P type) → P (labelledTuple (labelsOf elements) types)

section

variable {context : Context} {Name : String → Prop} {P : TypeFacts Unit → Prop}

theorem Preserved.marked (h : Preserved context Name P) {type : TypeFacts Unit} (htype : P type)
    {marked : Bool} (hmarked : marked = true → type.facts.annotated ≠ true) :
    P (if marked then denoteMark type else type) := by
  cases marked with
  | false => exact htype
  | true => exact h.mark htype (Bool.eq_false_iff.mpr (hmarked rfl))

/-- What is accepted has a property that each way of denoting without a violation keeps. -/
theorem Preserved.denote (h : Preserved context Name P) {type : Written}
    (hderivable : Derivable type) (hcalled : Called Name type.row)
    (hsound : ¬ Violation context type) : P (denote context type) := by
  induction type using Written.induct with
  | named path args marked ih =>
      rw [derivable_named_iff] at hderivable
      obtain ⟨hpath, hcalled⟩ := called_named_iff.mp hcalled
      simp only [violation_named_iff, not_or, not_exists, not_and] at hsound
      obtain ⟨hargs, happlied, hmarked⟩ := hsound
      have htypes : ∀ type ∈ args.map (Signature.denote context), P type :=
        List.forall_mem_map.mpr fun arg hmem =>
          ih arg hmem (hderivable arg hmem) (hcalled arg hmem) (hargs arg hmem)
      rw [Signature.denote, denoteAll_eq_map]
      exact h.marked (h.path hpath happlied htypes) hmarked
  | tuple elements marked ih =>
      obtain ⟨htwo, hderivable⟩ := derivable_tuple_iff.mp hderivable
      rw [called_tuple_iff] at hcalled
      simp only [violation_tuple_iff, not_or, not_exists, not_and] at hsound
      obtain ⟨hsound, hlabels⟩ := hsound
      have htypes : ∀ type ∈ elements.map (Signature.denote context ·.type), P type :=
        List.forall_mem_map.mpr fun element hmem =>
          ih element hmem (hderivable element hmem).1
            (called_element_iff.mp (hcalled element hmem)).1 (hsound element hmem)
      have hnames : ∀ element ∈ elements, ∀ label, element.label = some label →
          Name label ∧ '.' ∉ label.toList := fun element hmem label hlabel =>
        ⟨(called_element_iff.mp (hcalled element hmem)).2 label hlabel,
          (hderivable element hmem).2 label hlabel⟩
      rw [Signature.denote, denoteElements_eq_map]
      refine h.marked (h.tuple (by simpa using htwo) (by simp) hlabels hnames htypes) ?_
      intro _ hannotated
      cases hannotated

/-- The same for what is read. -/
theorem Preserved.read (h : Preserved context (fun name => IsPath name.toList) P)
    {source : String} {signature : Signature} (hread : read context source = .ok signature) :
    P signature.bare := by
  obtain ⟨-, lexemes, written, hcut, hderives, hsound, htype⟩ := denotes_of_read hread
  have hcalled := hcut.called_isPath
  rw [hderives.eq_row] at hcalled
  rw [htype]
  exact h.denote ⟨lexemes, hderives⟩ hcalled hsound

end

end TypeNaming.Signature
