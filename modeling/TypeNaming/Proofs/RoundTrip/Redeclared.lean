/-
# The tree of a declaration stands for itself

`declared` makes a tree of a type, and `denote` a type of a tree.  The type that comes back
need not be the type that was declared: a value type loses its namespace, and is then a
reference under `?`; the arguments of a nullable value and the `?` of a type with arguments
are gone.  But the declaration does not show the difference: what `declared type` denotes is
declared by `declared type` (`readable_declared`).  And that tree is `Readable`: it has a
derivation, its names are paths, and it has no violation.

Two kinds of type are left out, because their short forms mean something else: a name whose
short form is the wrapper, and a type with arguments whose short form is a keyword.  And a
tuple has no more elements than a word counts, because the position that a label names is a
word (`Declarable`).
-/
import TypeNaming.Proofs.RoundTrip.Declared

namespace TypeNaming.Signature

open Text (lastPart)

/-! ## Trees that can be read -/

/-- The tree can be read from its text, brackets apart. -/
structure Readable (type : Written) : Prop where
  derivable : Derivable type
  called : Called (fun name => IsPath name.toList) type.row
  sound : ¬ Violation {} type

theorem Readable.lawful {type : Written} (h : Readable type) : Lawful (denote {} type) :=
  lawful_denote h.derivable h.called h.sound

/-- Without the wrapper, a path with its arguments is not annotated. -/
theorem annotated_denotePath {path : String} (hwrapper : ¬ IsWrapper path)
    (args : List (TypeFacts Unit)) : (denotePath {} path args).facts.annotated = false := by
  unfold denotePath
  rw [if_neg List.not_mem_nil]
  split
  · rfl
  · rw [if_neg hwrapper]
    rfl
  · rfl

theorem readable_named {path : String} {args : List Written} (hpath : IsPath path.toList)
    (hwrapper : ¬ IsWrapper path) (hkeyword : args ≠ [] → ShortName.ofKeyword? path = none)
    (hargs : ∀ arg ∈ args, Readable arg) (marked : Bool) :
    Readable (.named path args marked) := by
  refine ⟨derivable_named_iff.mpr fun arg hmem => (hargs arg hmem).derivable,
    called_named_iff.mpr ⟨hpath, fun arg hmem => (hargs arg hmem).called⟩, fun h => ?_⟩
  rcases violation_named_iff.mp h with ⟨arg, hmem, h⟩ | h | ⟨-, h⟩
  · exact (hargs arg hmem).sound h
  · by_cases hne : args = []
    · subst hne
      exact hwrapper (misapplied_nil_iff.mp h).2
    · exact not_misapplied_name List.not_mem_nil (hkeyword hne) hwrapper h
  · rw [annotated_denotePath hwrapper] at h
    cases h

theorem readable_tuple {elements : List WrittenElement} (htwo : 2 ≤ elements.length)
    (hrejects : ¬ RejectsLabel [] elements)
    (hlabels : ∀ element ∈ elements, ∀ label, element.label = some label →
      IsPath label.toList ∧ '.' ∉ label.toList)
    (htypes : ∀ element ∈ elements, Readable element.type) (marked : Bool) :
    Readable (.tuple elements marked) := by
  refine ⟨derivable_tuple_iff.mpr ⟨htwo, fun element hmem => ?_⟩,
    called_tuple_iff.mpr fun element hmem => ?_, fun h => ?_⟩
  · exact ⟨(htypes element hmem).derivable,
      fun label hlabel => (hlabels element hmem label hlabel).2⟩
  · exact called_element_iff.mpr
      ⟨(htypes element hmem).called, fun label hlabel => (hlabels element hmem label hlabel).1⟩
  · rcases violation_tuple_iff.mp h with ⟨element, hmem, h⟩ | h
    · exact (htypes element hmem).sound h
    · exact hrejects h

theorem Readable.withMark {type : Written} (h : Readable type) (hmarked : type.isMarked = false)
    (hannotated : (denote {} type).facts.annotated = false) : Readable type.withMark :=
  ⟨derivable_withMark.mpr h.derivable, called_withMark.mpr h.called,
    fun hviolation => h.sound ((violation_withMark hmarked hannotated).mp hviolation)⟩

theorem not_rejectsLabel_of_unlabelled {elements : List WrittenElement}
    (h : ∀ element ∈ elements, element.label = none) : ¬ RejectsLabel [] elements := by
  rintro ⟨front, type, label, back, rfl, -⟩
  have hlabel : some label = none := h (.mk type (some label)) (by simp)
  cases hlabel

/-! ## The tree of a qualified name -/

theorem denotePath_own {path : String} (hkeyword : ShortName.ofKeyword? path = none)
    (hwrapper : ¬ IsWrapper path) (args : List (TypeFacts Unit)) :
    denotePath {} path args = .mk (ownFacts path false) args () := by
  simp only [denotePath, if_neg (List.not_mem_nil), hkeyword]
  split <;> simp_all [nominal, ownFacts]

theorem denotePath_builtIn {type : ShortName.BuiltIn} (h : type ∈ ShortName.builtIns) :
    denotePath {} type.keyword [] = .mk (ownFacts ("System." ++ type.name) false) [] () := by
  rw [denotePath_keyword plain_default h, ownFacts, ShortName.builtIn_lastPart type h,
    namesValue_system plain_default h]
  rfl

theorem denote_qualifiedForm_own {path : String} {args : List (TypeFacts Unit)} {annotated : Bool}
    (hkeyword : ShortName.ofKeyword? path = none) (hwrapper : ¬ IsWrapper path)
    (hvalue : annotated = true → namesValue {} path = false) :
    denote {} (qualifiedForm (.mk (ownFacts path annotated) args ()))
      = .mk (ownFacts path false) [] () := by
  rw [qualifiedForm_own hvalue]
  exact denotePath_own hkeyword hwrapper []

theorem denote_qualifiedForm_tuple (labels : List String) (types : List (TypeFacts Unit)) :
    denote {} (qualifiedForm (labelledTuple labels types))
      = labelledTuple (labelsOf (types.map fun type => .mk (qualifiedForm type) none))
          (types.map fun type => denote {} (qualifiedForm type)) := by
  rw [qualifiedForm_tuple, denote, denoteElements_eq_map, List.map_map]
  rfl

/-- What the qualified name of a value type writes is a value type, and the one is a tuple
when the other is. -/
theorem facts_denote_qualifiedForm {inner : TypeFacts Unit} (h : Lawful inner)
    (hvalue : inner.facts.value = true) (hannotated : inner.facts.annotated = false) :
    (denote {} (qualifiedForm inner)).facts.value = true ∧
      (denote {} (qualifiedForm inner)).facts.annotated = false := by
  cases h with
  | named _ hkeyword hwrapper hplain _ =>
      rw [denote_qualifiedForm_own hkeyword hwrapper hplain]
      exact ⟨hvalue, rfl⟩
  | nullable => cases hannotated
  | tuple =>
      rw [denote_qualifiedForm_tuple]
      exact ⟨rfl, rfl⟩

theorem denote_qualifiedForm_nullable {inner : TypeFacts Unit} (h : Lawful inner)
    (hvalue : inner.facts.value = true) (hannotated : inner.facts.annotated = false) :
    denote {} (qualifiedForm (nullable inner)) = nullable (denote {} (qualifiedForm inner)) := by
  have hmarked := isMarked_qualifiedForm h.coherent.own hannotated
  rw [qualifiedForm_nullable, denote_withMark hmarked, denoteMark,
    if_pos (facts_denote_qualifiedForm h hvalue hannotated).1]

theorem readable_qualifiedForm {type : TypeFacts Unit} (h : Lawful type) :
    Readable (qualifiedForm type) := by
  induction h with
  | named hpath hkeyword hwrapper hplain _ _ =>
      rw [qualifiedForm_own hplain]
      exact readable_named hpath hwrapper (fun _ => hkeyword) (List.forall_mem_nil _) false
  | nullable hvalue hannotated hinner ih =>
      rw [qualifiedForm_nullable]
      exact ih.withMark (isMarked_qualifiedForm hinner.coherent.own hannotated)
        (facts_denote_qualifiedForm hinner hvalue hannotated).2
  | @tuple elements types htwo _ _ _ _ ih =>
      have hunlabelled : ∀ element ∈ types.map fun type => .mk (qualifiedForm type) none,
          WrittenElement.label element = none := List.forall_mem_map.mpr fun _ _ => rfl
      rw [qualifiedForm_tuple]
      refine readable_tuple (by simpa using htwo) (not_rejectsLabel_of_unlabelled hunlabelled)
        (fun element hmem label hlabel => ?_) (List.forall_mem_map.mpr ih) false
      rw [hunlabelled element hmem] at hlabel
      cases hlabel

/-- What a qualified name writes has that name again. -/
theorem qualifiedForm_denote {type : TypeFacts Unit} (h : Lawful type) :
    qualifiedForm (denote {} (qualifiedForm type)) = qualifiedForm type := by
  induction h with
  | @named path args annotated _ hkeyword hwrapper hplain _ _ =>
      have hvalue : false = true → namesValue {} path = false := by simp
      rw [denote_qualifiedForm_own hkeyword hwrapper hplain, qualifiedForm_own hvalue,
        qualifiedForm_own hplain]
  | nullable hvalue hannotated hinner ih =>
      rw [denote_qualifiedForm_nullable hinner hvalue hannotated, qualifiedForm_nullable, ih,
        qualifiedForm_nullable]
  | tuple _ _ _ _ _ ih =>
      rw [denote_qualifiedForm_tuple, qualifiedForm_tuple, qualifiedForm_tuple, List.map_map]
      congr 1
      exact List.map_congr_left fun type hmem => by rw [Function.comp_apply, ih type hmem]

/-! ## The tree of a declaration -/

theorem denoteMark_own (path : String) (args : List (TypeFacts Unit)) :
    denoteMark (.mk (ownFacts path false) args ()) =
      if namesValue {} path then nullable (.mk (ownFacts path false) args ())
      else .mk (ownFacts path true) args () := rfl

/-- A name under `?` is declared by its short form, whether it is a value type or not. -/
theorem declared_denoteMark_own (path : String) :
    declared (denoteMark (.mk (ownFacts path false) [] ()))
      = .named (ShortName.qualified path) [] true := by
  rw [denoteMark_own]
  split
  · rw [declared_nullable, nullableForm_own]
  · next hvalue =>
      rw [declared_own fun _ => Bool.eq_false_iff.mpr hvalue]
      rfl

/-- What a short form stands for, with arguments or without. -/
theorem Short.denotePath {name : String} (h : Short name) {args : List (TypeFacts Unit)}
    (hkeyword : args ≠ [] → ShortName.ofKeyword? name = none) :
    ∃ path, denotePath {} name args = .mk (ownFacts path false) args () ∧
      ShortName.qualified path = name := by
  cases h with
  | @keyword type hmem =>
      have hnone : args = [] := by
        by_contra hne
        rw [ShortName.builtIn_ofKeyword type hmem] at hkeyword
        cases hkeyword hne
      subst hnone
      exact ⟨_, denotePath_builtIn hmem, ShortName.qualified_builtIn type hmem⟩
  | own _ hown hwrapper hshort _ => exact ⟨name, denotePath_own hown hwrapper args, hshort⟩

/-- A short form that is written is declared as it is written; with arguments, it has no
`?`. -/
theorem declared_denote_short {name : String} (h : Short name) {args : List Written}
    {marked : Bool} (hkeyword : args ≠ [] → ShortName.ofKeyword? name = none)
    (hmarked : marked = true → args = [])
    (hargs : ∀ arg ∈ args, declared (denote {} arg) = arg) :
    declared (denote {} (.named name args marked)) = .named name args marked := by
  have htypes : args.map (denote {}) ≠ [] → ShortName.ofKeyword? name = none :=
    fun hne => hkeyword fun hnil => hne (by rw [hnil, List.map_nil])
  obtain ⟨path, hpath, hshort⟩ := h.denotePath htypes
  rw [denote, denoteAll_eq_map, hpath]
  cases marked with
  | true =>
      -- Without arguments a nullable value and a marked reference are declared alike.
      obtain rfl := hmarked rfl
      rw [← hshort]
      exact declared_denoteMark_own path
  | false =>
      have hvalue : false = true → namesValue {} path = false := by simp
      have hback : (args.map (denote {})).map declared = args := by
        rw [List.map_map]
        exact (List.map_congr_left (g := id) hargs).trans (List.map_id args)
      show declared (.mk (ownFacts path false) (args.map (denote {})) ()) = _
      rw [declared_own hvalue, hback, hshort, Bool.false_and]

/-! ## Labels that are shown -/

theorem length_shownLabels {facts : Facts} {args : List (TypeFacts Unit)}
    (h : facts.labels.length = args.length) : (shownLabels facts args).length = args.length := by
  unfold shownLabels
  split
  · rw [List.length_map, h]
  · rw [List.length_map]

/-- Whether the labels are shown is a question about the labels. -/
theorem hasOwnLabels_eq {facts : Facts} {args : List (TypeFacts Unit)}
    (h : facts.labels.length = args.length) : TypeFacts.hasOwnLabels facts args
      = facts.labels.any fun label => !ShortName.isDefaultLabel label := by
  have hlabels : (facts.labels.zip args).map Prod.fst = facts.labels :=
    List.map_fst_zip (Nat.le_of_eq h)
  conv_rhs => rw [← hlabels]
  rw [TypeFacts.hasOwnLabels, List.any_map]
  rfl

theorem isDefaultLabel_defaultLabel (index : Nat) :
    ShortName.isDefaultLabel (defaultLabel index) = true := by
  obtain ⟨d, hlast⟩ : ∃ d, (Nat.toDigits 10 (index + 1)).getLast? = some d :=
    ⟨_, List.getLast?_eq_some_getLast Nat.toDigits_ne_nil⟩
  have hdigit : d.isDigit = true :=
    Nat.isDigit_of_mem_toDigits (Nat.succ_pos 9) (Nat.le_refl 10) (List.mem_of_getLast? hlast)
  have hafter := Text.after?_eq_some_iff.mpr (defaultLabel_eq index)
  have hend : (defaultLabel index).toList.getLast? = some d := by
    rw [defaultLabel_eq, String.toList_append, List.getLast?_append, String.toList_ofList, hlast,
      Option.some_or]
  rw [ShortName.isDefaultLabel, hafter, hend]
  exact Text.isNumeric_of_isDigit hdigit

theorem map_label_elementsOf : ∀ {labels : List (Option String)} {types : List Written},
    labels.length = types.length → (elementsOf labels types).map WrittenElement.label = labels
  | [], [], _ => rfl
  | label :: _, _ :: _, h => congrArg (label :: ·) (map_label_elementsOf (Nat.succ.inj h))

theorem map_type_elementsOf : ∀ {labels : List (Option String)} {types : List Written},
    labels.length = types.length → (elementsOf labels types).map WrittenElement.type = types
  | [], [], _ => rfl
  | _ :: _, type :: _, h => congrArg (type :: ·) (map_type_elementsOf (Nat.succ.inj h))

/-- Elements whose labels are written end up with them. -/
theorem labelsOf_of_written {elements : List WrittenElement} {labels : List String}
    (h : elements.map WrittenElement.label = labels.map some) : labelsOf elements = labels := by
  refine List.ext_getElem? fun index => ?_
  have hlabel := congrArg (·[index]?) h
  simp only [List.getElem?_map] at hlabel
  rw [getElem?_labelsOf]
  cases helement : elements[index]? with
  | none =>
      rw [helement] at hlabel
      exact (Option.map_eq_none_iff.mp hlabel.symm).symm
  | some element =>
      rw [helement] at hlabel
      obtain ⟨label, hget, hown⟩ := Option.map_eq_some_iff.mp hlabel.symm
      rw [hget, Option.map_some, ← hown, Option.getD_some]

theorem labelsOf_of_unlabelled {elements : List WrittenElement}
    (h : ∀ element ∈ elements, element.label = none) :
    ∀ label ∈ labelsOf elements, ShortName.isDefaultLabel label = true := by
  intro label hmem
  obtain ⟨index, hindex, rfl⟩ := List.mem_mapIdx.mp hmem
  rw [h _ (List.getElem_mem hindex), Option.getD_none]
  exact isDefaultLabel_defaultLabel index

/-! ## Tuples -/

/-- Some label of the tuple is one that was written. -/
def ownLabels (labels : List String) : Bool :=
  labels.any fun label => !ShortName.isDefaultLabel label

/-- The elements that the declaration of a tuple writes. -/
def shownElements (labels : List String) (types : List (TypeFacts Unit)) : List WrittenElement :=
  elementsOf (shownLabels (labelledTuple labels types).facts types) (types.map declared)

section

variable {labels : List String} {types : List (TypeFacts Unit)} (h : labels.length = types.length)

include h

theorem shownLabels_eq : shownLabels (labelledTuple labels types).facts types
    = if ownLabels labels then labels.map some else List.replicate types.length none := by
  have hown := @hasOwnLabels_eq (labelledTuple labels types).facts types h
  rw [shownLabels, hown, List.map_const']
  rfl

theorem map_label_shownElements : (shownElements labels types).map WrittenElement.label
    = if ownLabels labels then labels.map some else List.replicate types.length none := by
  rw [← shownLabels_eq h]
  exact map_label_elementsOf (by rw [length_shownLabels h, List.length_map])

theorem map_type_shownElements :
    (shownElements labels types).map WrittenElement.type = types.map declared :=
  map_type_elementsOf (by rw [length_shownLabels h, List.length_map])

theorem length_shownElements : (shownElements labels types).length = types.length := by
  rw [← List.length_map (f := WrittenElement.type), map_type_shownElements h, List.length_map]

theorem mem_shownElements {element : WrittenElement} (hmem : element ∈ shownElements labels types) :
    ∃ type ∈ types, element.type = declared type := by
  have htype := List.mem_map_of_mem (f := WrittenElement.type) hmem
  rw [map_type_shownElements h] at htype
  obtain ⟨type, hmem, heq⟩ := List.mem_map.mp htype
  exact ⟨type, hmem, heq.symm⟩

/-- Where no label is shown, none is written. -/
theorem unlabelled_shownElements (hown : ownLabels labels = false) :
    ∀ element ∈ shownElements labels types, element.label = none := by
  intro element hmem
  have hlabel := List.mem_map_of_mem (f := WrittenElement.label) hmem
  rw [map_label_shownElements h, hown] at hlabel
  exact List.eq_of_mem_replicate hlabel

/-- The declaration of a tuple shows the labels that were shown before. -/
theorem ownLabels_shownElements :
    (if ownLabels (labelsOf (shownElements labels types)) then
        (labelsOf (shownElements labels types)).map some
      else List.replicate types.length none)
    = if ownLabels labels then labels.map some else List.replicate types.length none := by
  cases hown : ownLabels labels with
  | true =>
      have hlabels := map_label_shownElements h
      rw [hown, if_pos rfl] at hlabels
      rw [labelsOf_of_written hlabels, hown]
  | false =>
      have hdefault : ownLabels (labelsOf (shownElements labels types)) = false := by
        refine List.any_eq_false.mpr fun label hmem => ?_
        rw [labelsOf_of_unlabelled (unlabelled_shownElements h hown) label hmem]
        decide
      rw [hdefault]
      rfl

/-- The tree that a tuple is declared by stands for itself, when those of its elements do. -/
theorem declared_denote_tuple (htypes : ∀ type ∈ types,
    declared (denote {} (declared type)) = declared type) :
    declared (denote {} (.tuple (shownElements labels types) false))
      = .tuple (shownElements labels types) false := by
  have hdenotes : denote {} (.tuple (shownElements labels types) false)
      = labelledTuple (labelsOf (shownElements labels types))
          (types.map fun type => denote {} (declared type)) := by
    have hmap : (shownElements labels types).map (fun element => denote {} element.type)
        = (types.map declared).map (denote {}) := by
      rw [← map_type_shownElements h, List.map_map]
      rfl
    rw [denote, denoteElements_eq_map, hmap, List.map_map]
    rfl
  have hlength : (labelsOf (shownElements labels types)).length
      = (types.map fun type => denote {} (declared type)).length := by
    rw [length_labelsOf, length_shownElements h, List.length_map]
  have hback : (types.map fun type => denote {} (declared type)).map declared
      = types.map declared := by
    rw [List.map_map]
    exact List.map_congr_left htypes
  rw [hdenotes, declared_tuple, shownLabels_eq hlength, List.length_map,
    ownLabels_shownElements h, ← shownLabels_eq h, hback]
  rfl

end

theorem isWord_defaultLabel (index : Nat) : isWord (defaultLabel index).toList = true := by
  have hdigits : (Nat.toDigits 10 (index + 1)).all Char.isAlphanum = true :=
    List.all_eq_true.mpr fun c hc => by
      simp [Char.isAlphanum, Nat.isDigit_of_mem_toDigits (Nat.succ_pos 9) (Nat.le_refl 10) hc]
  rw [defaultLabel_eq, String.toList_append, String.toList_ofList]
  simp [isWord, hdigits]

/-- The labels of a tuple are identifiers when the written ones are. -/
theorem identifier_of_mem_labelsOf {elements : List WrittenElement}
    (h : ∀ element ∈ elements, ∀ label, element.label = some label →
      IsPath label.toList ∧ '.' ∉ label.toList) :
    ∀ label ∈ labelsOf elements, IsPath label.toList ∧ '.' ∉ label.toList := by
  intro label hmem
  obtain ⟨index, hindex, rfl⟩ := List.mem_mapIdx.mp hmem
  cases hlabel : elements[index].label with
  | some label => exact h _ (List.getElem_mem hindex) label hlabel
  | none =>
      have hword := identifier_of_isWord (isWord_defaultLabel index)
      exact ⟨.ident hword, dot_not_mem_defaultLabel index⟩

/-- A declaration of a tuple can be read when the tuple could, and those of its elements
can. -/
theorem readable_shownElements {elements : List WrittenElement} {types : List (TypeFacts Unit)}
    (htwo : 2 ≤ types.length) (hlength : elements.length = types.length)
    (hrejects : ¬ RejectsLabel [] elements)
    (hlabels : ∀ element ∈ elements, ∀ label, element.label = some label →
      IsPath label.toList ∧ '.' ∉ label.toList)
    (hbound : types.length < UInt64.size) (htypes : ∀ type ∈ types, Readable (declared type)) :
    Readable (.tuple (shownElements (labelsOf elements) types) false) := by
  have h : (labelsOf elements).length = types.length := by rw [length_labelsOf, hlength]
  have hshown := length_shownElements h
  have hreadable : ∀ element ∈ shownElements (labelsOf elements) types, Readable element.type := by
    intro element hmem
    obtain ⟨type, hmem, heq⟩ := mem_shownElements h hmem
    rw [heq]
    exact htypes type hmem
  cases hown : ownLabels (labelsOf elements) with
  | true =>
      -- All labels are written now, also those that were put in by position.
      have hwritten := map_label_shownElements h
      rw [hown, if_pos rfl] at hwritten
      have hsame := labelsOf_of_written hwritten
      refine readable_tuple (by omega) ?_ (fun element hmem label hlabel => ?_) hreadable false
      · rw [rejectsLabel_iff (by omega), hsame, ← rejectsLabel_iff (by omega)]
        exact hrejects
      · refine identifier_of_mem_labelsOf hlabels label ?_
        have hmem := List.mem_map_of_mem (f := WrittenElement.label) hmem
        rw [hwritten, hlabel] at hmem
        obtain ⟨own, hown, heq⟩ := List.mem_map.mp hmem
        exact Option.some.inj heq ▸ hown
  | false =>
      have hnone := unlabelled_shownElements h hown
      refine readable_tuple (by omega) (not_rejectsLabel_of_unlabelled hnone)
        (fun element hmem label hlabel => ?_) hreadable false
      rw [hnone element hmem] at hlabel
      cases hlabel

/-! ## Every declaration -/

/-- The short form of the type means the type, and its positions are words. -/
def Declarable (facts : Facts) (args : List (TypeFacts Unit)) : Prop :=
  ShortName.qualified facts.qualified ≠ "Nullable" ∧
    (args ≠ [] → ShortName.ofKeyword? (ShortName.qualified facts.qualified) = none) ∧
    (facts.tuple = true → args.length < UInt64.size)

theorem readable_nullableForm {inner : TypeFacts Unit} (h : Lawful inner)
    (hdeclarable : inner.Everywhere Declarable) (hvalue : inner.facts.value = true)
    (hannotated : inner.facts.annotated = false) : Readable (nullableForm inner) := by
  have hreadable := readable_qualifiedForm h
  have hmarked := isMarked_qualifiedForm h.coherent.own hannotated
  have hfacts := facts_denote_qualifiedForm h hvalue hannotated
  cases h with
  | named hpath hkeyword _ _ _ =>
      cases hdeclarable with
      | mk hown _ =>
          have hshort := short_qualified hpath hkeyword hown.1
          rw [nullableForm_own]
          exact readable_named hshort.isPath hshort.notWrapper (by simp)
            (List.forall_mem_nil _) true
  | nullable => cases hannotated
  | tuple =>
      rw [nullableForm_tuple]
      exact hreadable.withMark hmarked hfacts.2

theorem declared_denote_nullableForm {inner : TypeFacts Unit} (h : Lawful inner)
    (hdeclarable : inner.Everywhere Declarable) (hvalue : inner.facts.value = true)
    (hannotated : inner.facts.annotated = false) :
    declared (denote {} (nullableForm inner)) = nullableForm inner := by
  have hback := qualifiedForm_denote h
  have hmarked := isMarked_qualifiedForm h.coherent.own hannotated
  have hfacts := facts_denote_qualifiedForm h hvalue hannotated
  cases h with
  | named hpath hkeyword _ _ _ =>
      cases hdeclarable with
      | mk hown _ =>
          have hshort := short_qualified hpath hkeyword hown.1
          rw [nullableForm_own]
          exact declared_denote_short hshort (by simp) (fun _ => rfl) (List.forall_mem_nil _)
  | nullable => cases hannotated
  | tuple =>
      rw [nullableForm_tuple, denote_withMark hmarked, denoteMark, if_pos hfacts.1,
        declared_nullable]
      rw [denote_qualifiedForm_tuple] at hback ⊢
      rw [nullableForm_tuple, hback]

/-- The tree that a declaration writes can be read, and stands for itself. -/
theorem readable_declared {type : TypeFacts Unit} (h : Lawful type)
    (hdeclarable : type.Everywhere Declarable) :
    Readable (declared type) ∧ declared (denote {} (declared type)) = declared type := by
  induction h with
  | @named path args annotated hpath hkeyword _ hvalue _ ih =>
      cases hdeclarable with
      | mk hown hargs =>
          have ih := fun arg hmem => ih arg hmem (hargs arg hmem)
          have hshort := short_qualified hpath hkeyword hown.1
          have happlied : args.map declared ≠ [] →
              ShortName.ofKeyword? (ShortName.qualified path) = none :=
            fun hne => hown.2.1 fun hnil => hne (by rw [hnil, List.map_nil])
          have hmarked : (annotated && args.isEmpty) = true → args.map declared = [] := by
            intro hmarked
            have hnil := List.isEmpty_iff.mp (Bool.and_eq_true_iff.mp hmarked).2
            rw [hnil, List.map_nil]
          rw [declared_own hvalue]
          exact ⟨readable_named hshort.isPath hshort.notWrapper happlied
              (List.forall_mem_map.mpr fun arg hmem => (ih arg hmem).1) _,
            declared_denote_short hshort happlied hmarked
              (List.forall_mem_map.mpr fun arg hmem => (ih arg hmem).2)⟩
  | @nullable inner hvalue hannotated hinner _ =>
      cases hdeclarable with
      | mk _ hargs =>
          have hdeclarable := hargs inner List.mem_cons_self
          rw [declared_nullable]
          exact ⟨readable_nullableForm hinner hdeclarable hvalue hannotated,
            declared_denote_nullableForm hinner hdeclarable hvalue hannotated⟩
  | @tuple elements types htwo hlength hrejects hlabels _ ih =>
      cases hdeclarable with
      | mk hown hargs =>
          have ih := fun type hmem => ih type hmem (hargs type hmem)
          have hsame : (labelsOf elements).length = types.length := by
            rw [length_labelsOf, hlength]
          rw [declared_tuple]
          exact ⟨readable_shownElements htwo hlength hrejects hlabels (hown.2.2 rfl)
              fun type hmem => (ih type hmem).1,
            declared_denote_tuple hsame fun type hmem => (ih type hmem).2⟩

end TypeNaming.Signature
