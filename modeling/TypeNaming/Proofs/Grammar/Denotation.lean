/-
# What a derivation denotes

Two definitions over the trees of the grammar, neither of which runs anything:

  * `denote context type` is what is known of the type that is written, for every
    tree, also one that is refused;
  * `Violation context type` holds when the tree is refused.  There are four ways:
    type arguments that the path cannot take (`Misapplied`), a `?` on a type that is
    annotated already, and a label that is used twice or names another position
    (`RejectedLabel`), each of them anywhere in the tree.

`meaning_agrees` ties the reader to them: it answers with the denotation of a tree
without violation, and with a fault for every other tree.
-/
import TypeNaming.Signature.Meaning
import TypeNaming.Proofs.Grammar.Derivation
import TypeNaming.Proofs.Text.Decimal
import TypeNaming.Proofs.Text.Dotted

namespace TypeNaming

/-! ## Types without notes -/

namespace TypeFacts

variable {α : Type}

mutual

/-- The type without its notes. -/
def bare : TypeFacts α → TypeFacts Unit
  | .mk facts args _ => .mk facts (bareAll args) ()

/-- The types without their notes. -/
def bareAll : List (TypeFacts α) → List (TypeFacts Unit)
  | [] => []
  | type :: types => bare type :: bareAll types

end

@[simp] theorem bareAll_eq_map (types : List (TypeFacts α)) : bareAll types = types.map bare := by
  induction types with
  | nil => rfl
  | cons type types ih => simp [bareAll, ih]

@[simp] theorem bare_mk (facts : Facts) (args : List (TypeFacts α)) (note : α) :
    (TypeFacts.mk facts args note).bare = .mk facts (args.map bare) () := by
  simp [bare]

@[simp] theorem facts_bare (type : TypeFacts α) : type.bare.facts = type.facts := by
  cases type
  simp [facts]

@[simp] theorem args_bare (type : TypeFacts α) : type.bare.args = type.args.map bare := by
  cases type
  simp [args]

end TypeFacts

namespace Signature

open Text (lastPart)

/-! ## Denotations -/

/-- A type with a name of its own. -/
def nominal (name qualified : String) (value : Bool) (args : List (TypeFacts Unit)) :
    TypeFacts Unit :=
  .mk { name := name, qualified := qualified, named := true, value := value,
        annotated := false, tuple := false, labels := [] } args ()

/-- An open type parameter. -/
def parameter (context : Context) (name : String) : TypeFacts Unit :=
  .mk { name := name, qualified := name, named := false,
        value := decide (name ∈ context.valueTypes),
        annotated := false, tuple := false, labels := [] } [] ()

/-- The wrapper of a nullable value. -/
def nullable (inner : TypeFacts Unit) : TypeFacts Unit :=
  .mk { name := "Nullable", qualified := inner.facts.qualified ++ "?", named := true,
        value := true, annotated := true, tuple := false, labels := [] } [inner] ()

/-- A tuple with a label for every element. -/
def labelledTuple (labels : List String) (elements : List (TypeFacts Unit)) : TypeFacts Unit :=
  .mk { name := "ValueTuple",
        qualified := "(" ++ ", ".intercalate (elements.map (·.facts.qualified)) ++ ")",
        named := true, value := true, annotated := false, tuple := true, labels := labels }
    elements ()

theorem namesValue_iff {context : Context} {path : String} :
    namesValue context path = true ↔ path ∈ context.valueTypes ∨
      ∃ simple, path = "System." ++ simple ∧ ShortName.isSystemValue simple = true := by
  simp only [namesValue, Bool.or_eq_true, List.contains_iff_mem]
  refine or_congr Iff.rfl ?_
  cases h : Text.after? ShortName.rootLead path with
  | none =>
      refine ⟨by simp, ?_⟩
      rintro ⟨simple, hpath, -⟩
      have : Text.after? ShortName.rootLead path = some simple :=
        Text.after?_eq_some_iff.mpr hpath
      rw [h] at this
      cases this
  | some rest =>
      obtain rfl := Text.after?_eq_some_iff.mp h
      simp [ShortName.rootLead]

/-- The path is a spelling of the wrapper. -/
def IsWrapper (path : String) : Prop :=
  path = "Nullable" ∨ path = "System.Nullable"

instance (path : String) : Decidable (IsWrapper path) :=
  inferInstanceAs (Decidable (_ ∨ _))

theorem mem_wrapperPaths {path : String} : path ∈ wrapperPaths ↔ IsWrapper path := by
  simp [wrapperPaths, IsWrapper]

/-- What a path denotes with its type arguments: an open type parameter, else the type
of a keyword, else the wrapper, else a type with the path as its qualified name. -/
def denotePath (context : Context) (path : String) (args : List (TypeFacts Unit)) :
    TypeFacts Unit :=
  if path ∈ context.typeParams then parameter context path
  else
    match ShortName.ofKeyword? path, args with
    | some type, _ => nominal type.name ("System." ++ type.name) type.isValue []
    | none, [inner] =>
      if IsWrapper path then nullable inner
      else nominal (lastPart path) path (namesValue context path) [inner]
    | none, args => nominal (lastPart path) path (namesValue context path) args

/-- What a type denotes with a `?` after it. -/
def denoteMark (type : TypeFacts Unit) : TypeFacts Unit :=
  if type.facts.value then nullable type
  else .mk { type.facts with annotated := true } type.args ()

/-- Whether the type ends in `?`. -/
def Written.isMarked : Written → Bool
  | .named _ _ marked => marked
  | .tuple _ marked => marked

/-- The type before its `?`. -/
def Written.base : Written → Written
  | .named path args _ => .named path args false
  | .tuple elements _ => .tuple elements false

/-- The type of the element. -/
def WrittenElement.type : WrittenElement → Written
  | .mk type _ => type

/-- The label of the element, if it is written. -/
def WrittenElement.label : WrittenElement → Option String
  | .mk _ label => label

/-- The labels of the elements; a label that is not written is `Item1`, `Item2`, … by
its position. -/
def labelsOf (elements : List WrittenElement) : List String :=
  elements.mapIdx fun index element => element.label.getD (defaultLabel index)

mutual

/-- What a type denotes. -/
def denote (context : Context) : Written → TypeFacts Unit
  | .named path args marked =>
    let type := denotePath context path (denoteAll context args)
    if marked then denoteMark type else type
  | .tuple elements marked =>
    let type := labelledTuple (labelsOf elements) (denoteElements context elements)
    if marked then denoteMark type else type

/-- What each of the types denotes. -/
def denoteAll (context : Context) : List Written → List (TypeFacts Unit)
  | [] => []
  | type :: types => denote context type :: denoteAll context types

/-- What the type of each of the elements denotes. -/
def denoteElements (context : Context) : List WrittenElement → List (TypeFacts Unit)
  | [] => []
  | .mk type _ :: elements => denote context type :: denoteElements context elements

end

@[simp] theorem denoteAll_eq_map (context : Context) (types : List Written) :
    denoteAll context types = types.map (denote context) := by
  induction types with
  | nil => rfl
  | cons type types ih => simp [denoteAll, ih]

@[simp] theorem denoteElements_eq_map (context : Context) (elements : List WrittenElement) :
    denoteElements context elements = elements.map fun element => denote context element.type := by
  induction elements with
  | nil => rfl
  | cons element elements ih =>
      cases element
      simp [denoteElements, WrittenElement.type, ih]

/-! ## Violations -/

/-- Type arguments that the path cannot take. -/
inductive Misapplied (context : Context) (path : String) (args : List (TypeFacts Unit)) : Prop
  | parameter : path ∈ context.typeParams → args ≠ [] → Misapplied context path args
  | keyword {type : ShortName.BuiltIn} : ShortName.ofKeyword? path = some type → args ≠ [] →
      Misapplied context path args
  | nullable : path ∉ context.typeParams → IsWrapper path →
      (¬ ∃ inner, args = [inner] ∧ inner.facts.value = true ∧ inner.facts.annotated = false) →
      Misapplied context path args

/-- The label names a position: `Item` and the position in decimal digits, without a
leading zero and within a word. -/
def NamesPosition (label : String) (position : Nat) : Prop :=
  ∃ digits : List Char, label = "Item" ++ String.ofList digits ∧ digits ≠ [] ∧
    digits.head? ≠ some '0' ∧ (∀ d ∈ digits, d.isDigit = true) ∧
    Text.decimalValue digits = position ∧ position < UInt64.size

/-- The label cannot stand after the elements: one of them has it, or it names another
position. -/
def RejectedLabel (before : List WrittenElement) (label : String) : Prop :=
  label ∈ labelsOf before ∨
    ∃ position, NamesPosition label position ∧ position ≠ before.length + 1

/-- Some label cannot stand where it is, in elements that come after others. -/
def RejectsLabel (before elements : List WrittenElement) : Prop :=
  ∃ front type label back, elements = front ++ .mk type (some label) :: back ∧
    RejectedLabel (before ++ front) label

/-- The tree is refused. -/
inductive Violation (context : Context) : Written → Prop
  | argument {path : String} {args : List Written} {marked : Bool} {arg : Written} :
      arg ∈ args → Violation context arg → Violation context (.named path args marked)
  | misapplied {path : String} {args : List Written} {marked : Bool} :
      Misapplied context path (args.map (denote context)) →
      Violation context (.named path args marked)
  | marked {type : Written} : type.isMarked = true →
      (denote context type.base).facts.annotated = true → Violation context type
  | element {elements : List WrittenElement} {marked : Bool} {element : WrittenElement} :
      element ∈ elements → Violation context element.type →
      Violation context (.tuple elements marked)
  | label {elements : List WrittenElement} {marked : Bool} :
      RejectsLabel [] elements → Violation context (.tuple elements marked)

/-! ## Labels -/

theorem labelPosition?_eq_some_iff {label : String} {position : Nat} :
    labelPosition? label = some position ↔ NamesPosition label position := by
  constructor
  · intro h
    unfold labelPosition? at h
    split at h
    · cases h
    · next digits hlead =>
        split at h
        · cases h
        · next hzero =>
            obtain ⟨hne, hdigits, hvalue, hbound⟩ := Text.word?_eq_some_iff.mp h
            refine ⟨digits.toList, ?_, hne, hzero, hdigits, hvalue, hbound⟩
            simpa using Text.after?_eq_some_iff.mp hlead
  · rintro ⟨digits, rfl, hne, hzero, hdigits, hvalue, hbound⟩
    have hlead : Text.after? "Item" ("Item" ++ String.ofList digits)
        = some (String.ofList digits) := Text.after?_eq_some_iff.mpr rfl
    have hword : Text.word? digits = some position :=
      Text.word?_eq_some_iff.mpr ⟨hne, hdigits, hvalue, hbound⟩
    simp [labelPosition?, hlead, hzero, hword]

theorem labelsOf_snoc (before : List WrittenElement) (element : WrittenElement) :
    labelsOf (before ++ [element])
      = labelsOf before ++ [element.label.getD (defaultLabel before.length)] := by
  simp [labelsOf]

@[simp] theorem length_labelsOf (elements : List WrittenElement) :
    (labelsOf elements).length = elements.length := by
  simp [labelsOf]

theorem rejectsLabel_cons_iff {before elements : List WrittenElement} {type : Written}
    {label : Option String} :
    RejectsLabel before (.mk type label :: elements) ↔
      (∃ text, label = some text ∧ RejectedLabel before text) ∨
        RejectsLabel (before ++ [.mk type label]) elements := by
  constructor
  · rintro ⟨front, other, text, back, heq, hrejected⟩
    cases front with
    | nil =>
        obtain ⟨hhead, rfl⟩ := List.cons.inj heq
        obtain ⟨rfl, rfl⟩ := WrittenElement.mk.inj hhead
        exact Or.inl ⟨text, rfl, by simpa using hrejected⟩
    | cons first front =>
        obtain ⟨rfl, rfl⟩ := List.cons.inj heq
        exact Or.inr ⟨front, other, text, back, rfl, by simpa using hrejected⟩
  · rintro (⟨text, rfl, hrejected⟩ | ⟨front, other, text, back, rfl, hrejected⟩)
    · exact ⟨[], type, text, elements, rfl, by simpa using hrejected⟩
    · exact ⟨.mk type label :: front, other, text, back, rfl, by simpa using hrejected⟩

theorem rejectedLabel_iff {before : List WrittenElement} {label : String} :
    RejectedLabel before label ↔
      label ∈ labelsOf before ∨
        ∃ position, labelPosition? label = some position ∧ position ≠ before.length + 1 := by
  simp only [RejectedLabel, labelPosition?_eq_some_iff]

/-- The outcome is the one that the label calls for, after the elements before it. -/
def AgreesLabel (before : List WrittenElement) (label : Option String) :
    Except Fault String → Prop
  | .ok text =>
      (∀ own, label = some own → ¬ RejectedLabel before own) ∧
        text = label.getD (defaultLabel before.length)
  | .error _ => ∃ own, label = some own ∧ RejectedLabel before own

theorem agreesLabel_ok {before : List WrittenElement} {text : String}
    (h : ¬ RejectedLabel before text) : AgreesLabel before (some text) (.ok text) :=
  ⟨fun _ heq => Option.some.inj heq ▸ h, rfl⟩

theorem labelOf_agrees (before : List WrittenElement) (label : Option Label) :
    AgreesLabel before (label.map (·.text)) (labelOf (labelsOf before) label) := by
  cases label with
  | none => simp [labelOf, AgreesLabel]
  | some label =>
      have hrejected := @rejectedLabel_iff before label.text
      simp only [labelOf, List.contains_iff_mem, length_labelsOf]
      split
      · next hmem => exact ⟨label.text, rfl, hrejected.mpr (Or.inl hmem)⟩
      · next hmem =>
          cases hposition : labelPosition? label.text with
          | none =>
              refine agreesLabel_ok fun h => ?_
              rcases hrejected.mp h with h | ⟨position, h, -⟩
              · exact hmem h
              · rw [hposition] at h
                cases h
          | some position =>
              show AgreesLabel _ _ (if position = before.length + 1 then _ else _)
              split
              · next hhere =>
                  refine agreesLabel_ok fun h => ?_
                  rcases hrejected.mp h with h | ⟨other, h, hother⟩
                  · exact hmem h
                  · exact hother (Option.some.inj (hposition.symm.trans h) ▸ hhere)
              · next hhere =>
                  exact ⟨label.text, rfl, hrejected.mpr (Or.inr ⟨position, hposition, hhere⟩)⟩

/-! ## Paths and marks -/

theorem ofKeyword?_wrapper {path : String} (h : IsWrapper path) :
    ShortName.ofKeyword? path = none := by
  rcases h with rfl | rfl <;> decide

theorem misapplied_nil_iff {context : Context} {path : String} :
    Misapplied context path [] ↔ path ∉ context.typeParams ∧ IsWrapper path := by
  constructor
  · intro h
    cases h with
    | parameter _ h => exact absurd rfl h
    | keyword _ h => exact absurd rfl h
    | nullable hparam hpath _ => exact ⟨hparam, hpath⟩
  · rintro ⟨hparam, hpath⟩
    exact .nullable hparam hpath (by simp)

theorem misapplied_wrapper_iff {context : Context} {path : String} {args : List (TypeFacts Unit)}
    (hparam : path ∉ context.typeParams) (hpath : IsWrapper path) :
    Misapplied context path args ↔
      ¬ ∃ inner, args = [inner] ∧ inner.facts.value = true ∧ inner.facts.annotated = false := by
  constructor
  · intro h
    cases h with
    | parameter h _ => exact absurd h hparam
    | keyword h _ =>
        rw [ofKeyword?_wrapper hpath] at h
        cases h
    | nullable _ _ h => exact h
  · exact .nullable hparam hpath

theorem not_misapplied_name {context : Context} {path : String} {args : List (TypeFacts Unit)}
    (hparam : path ∉ context.typeParams) (hkeyword : ShortName.ofKeyword? path = none)
    (hpath : ¬ IsWrapper path) : ¬ Misapplied context path args := by
  intro h
  cases h with
  | parameter h _ => exact hparam h
  | keyword h _ =>
      rw [hkeyword] at h
      cases h
  | nullable _ h _ => exact hpath h

/-- The outcome is the one that the path calls for with its type arguments. -/
def AgreesPath (context : Context) (path : String) (args : List (TypeFacts Unit)) :
    Except Fault Signature → Prop
  | .ok signature =>
      ¬ Misapplied context path args ∧ signature.bare = denotePath context path args
  | .error _ => Misapplied context path args

section Paths

variable {context : Context} {path : String} (source : List Char) (args : List Signature)
  (span : Span)

theorem namedOf_parameter (hparam : path ∈ context.typeParams) :
    AgreesPath context path (args.map TypeFacts.bare) (namedOf context source path args span) := by
  rw [namedOf, if_pos (by simpa using hparam)]
  cases args with
  | nil =>
      refine ⟨fun h => (misapplied_nil_iff.mp h).1 hparam, ?_⟩
      simp [denotePath, hparam, parameter, openParameter]
  | cons first others => exact .parameter hparam (by simp)

theorem namedOf_keyword {type : ShortName.BuiltIn} (hparam : path ∉ context.typeParams)
    (hkeyword : ShortName.ofKeyword? path = some type) :
    AgreesPath context path (args.map TypeFacts.bare) (namedOf context source path args span) := by
  rw [namedOf, if_neg (by simpa using hparam), hkeyword]
  cases args with
  | nil =>
      refine ⟨fun h => ?_, ?_⟩
      · rw [ofKeyword?_wrapper (misapplied_nil_iff.mp h).2] at hkeyword
        cases hkeyword
      · simp [denotePath, hparam, hkeyword, nominal, ownType, ShortName.rootLead]
  | cons first others => exact .keyword hkeyword (by simp)

theorem nullableOf_agrees (hparam : path ∉ context.typeParams) (hpath : IsWrapper path) :
    AgreesPath context path (args.map TypeFacts.bare) (nullableOf source args span) := by
  have hmisapplied : Misapplied context path (args.map TypeFacts.bare) ↔ _ :=
    misapplied_wrapper_iff hparam hpath
  unfold nullableOf
  split
  · next inner =>
      split
      · next hfacts =>
          rw [Bool.and_eq_true, Bool.not_eq_true'] at hfacts
          refine ⟨fun h => hmisapplied.mp h ⟨inner.bare, rfl, by simp [hfacts]⟩, ?_⟩
          simp [denotePath, hparam, ofKeyword?_wrapper hpath, hpath, nullable, wrapNullable]
      · next hfacts =>
          refine hmisapplied.mpr ?_
          rintro ⟨_, heq, hvalue, hannotated⟩
          obtain rfl : inner.bare = _ := by simpa using heq
          rw [TypeFacts.facts_bare] at hvalue hannotated
          exact hfacts (by simp [hvalue, hannotated])
  · next hone =>
      refine hmisapplied.mpr ?_
      rintro ⟨_, heq, -⟩
      obtain ⟨inner, rfl, -⟩ := List.map_eq_singleton_iff.mp heq
      exact hone inner rfl

theorem namedOf_name (hparam : path ∉ context.typeParams)
    (hkeyword : ShortName.ofKeyword? path = none) (hpath : ¬ IsWrapper path) :
    AgreesPath context path (args.map TypeFacts.bare) (namedOf context source path args span) := by
  have hnamed : namedOf context source path args span
      = .ok (ownType (lastPart path) path (namesValue context path) args span) := by
    simp [namedOf, mem_wrapperPaths, hparam, hkeyword, hpath]
  rw [hnamed]
  refine ⟨not_misapplied_name hparam hkeyword hpath, ?_⟩
  simp only [denotePath, hparam, hkeyword, if_false]
  split <;> simp_all [nominal, ownType]

theorem namedOf_agrees (context : Context) (path : String) :
    AgreesPath context path (args.map TypeFacts.bare) (namedOf context source path args span) := by
  by_cases hparam : path ∈ context.typeParams
  · exact namedOf_parameter source args span hparam
  cases hkeyword : ShortName.ofKeyword? path with
  | some type => exact namedOf_keyword source args span hparam hkeyword
  | none =>
      by_cases hpath : IsWrapper path
      · have hnamed : namedOf context source path args span = nullableOf source args span := by
          simp [namedOf, mem_wrapperPaths, hparam, hkeyword, hpath]
        rw [hnamed]
        exact nullableOf_agrees source args span hparam hpath
      · exact namedOf_name source args span hparam hkeyword hpath

end Paths

theorem underMark_agrees (type : Signature) (start : Nat) (mark : Option Span) :
    match underMark type start mark with
    | .ok signature =>
        (mark.isSome = true → type.facts.annotated = false) ∧
          signature.bare = if mark.isSome then denoteMark type.bare else type.bare
    | .error _ => mark.isSome = true ∧ type.facts.annotated = true := by
  cases mark with
  | none => simp [underMark]
  | some mark =>
      cases hannotated : type.facts.annotated with
      | true => simp [underMark, hannotated]
      | false =>
          cases hvalue : type.facts.value with
          | true =>
              simp [underMark, hannotated, hvalue, denoteMark, nullable, wrapNullable]
          | false =>
              simp [underMark, hannotated, hvalue, denoteMark, annotate]

/-! ## Trees -/

theorem violation_named_iff {context : Context} {path : String} {args : List Written}
    {marked : Bool} :
    Violation context (.named path args marked) ↔
      (∃ arg ∈ args, Violation context arg) ∨
        Misapplied context path (args.map (denote context)) ∨
        (marked = true ∧
          (denotePath context path (args.map (denote context))).facts.annotated = true) := by
  constructor
  · intro h
    cases h with
    | argument hmem h => exact Or.inl ⟨_, hmem, h⟩
    | misapplied h => exact Or.inr (Or.inl h)
    | marked hmarked h =>
        exact Or.inr (Or.inr ⟨hmarked, by simpa [Written.base, denote] using h⟩)
  · rintro (⟨arg, hmem, h⟩ | h | ⟨hmarked, h⟩)
    · exact .argument hmem h
    · exact .misapplied h
    · exact .marked hmarked (by simpa [denote, Written.base] using h)

theorem violation_tuple_iff {context : Context} {elements : List WrittenElement}
    {marked : Bool} :
    Violation context (.tuple elements marked) ↔
      (∃ element ∈ elements, Violation context element.type) ∨ RejectsLabel [] elements := by
  constructor
  · intro h
    cases h with
    | element hmem h => exact Or.inl ⟨_, hmem, h⟩
    | label h => exact Or.inr h
    | marked _ h => simp [Written.base, denote, labelledTuple, TypeFacts.facts] at h
  · rintro (⟨element, hmem, h⟩ | h)
    · exact .element hmem h
    · exact .label h

/-- The outcome is the one that the tree calls for. -/
def Agrees (context : Context) (type : Written) : Except Fault Signature → Prop
  | .ok signature => ¬ Violation context type ∧ signature.bare = denote context type
  | .error _ => Violation context type

/-- The outcome is the one that the trees call for. -/
def AgreeAll (context : Context) (types : List Written) : Except Fault (List Signature) → Prop
  | .ok signatures =>
      (∀ type ∈ types, ¬ Violation context type) ∧
        signatures.map TypeFacts.bare = types.map (denote context)
  | .error _ => ∃ type ∈ types, Violation context type

/-- The outcome is the one that the elements call for, after those that were looked at
before. -/
def AgreeElements (context : Context) (before elements : List WrittenElement) :
    Except Fault (List (Signature × String)) → Prop
  | .ok pairs =>
      (∀ element ∈ elements, ¬ Violation context element.type) ∧
        ¬ RejectsLabel before elements ∧
        pairs.map (·.1.bare) = elements.map (denote context ·.type) ∧
        labelsOf before ++ pairs.map (·.2) = labelsOf (before ++ elements)
  | .error _ =>
      (∃ element ∈ elements, Violation context element.type) ∨ RejectsLabel before elements

theorem agreeElements_cons {context : Context} {before elements : List WrittenElement}
    {type : Written} {label : Option String} {signature : Signature} {text : String}
    {pairs : List (Signature × String)} (htype : Agrees context type (.ok signature))
    (hlabel : AgreesLabel before label (.ok text))
    (hothers : AgreeElements context (before ++ [.mk type label]) elements (.ok pairs)) :
    AgreeElements context before (.mk type label :: elements)
      (.ok ((signature, text) :: pairs)) := by
  obtain ⟨hviolation, hrejects, htypes, hlabels⟩ := hothers
  refine ⟨List.forall_mem_cons.mpr ⟨htype.1, hviolation⟩, ?_, ?_, ?_⟩
  · intro h
    rcases rejectsLabel_cons_iff.mp h with ⟨own, hown, h⟩ | h
    · exact hlabel.1 own hown h
    · exact hrejects h
  · exact congrArg₂ List.cons htype.2 htypes
  · have htext : text = label.getD (defaultLabel before.length) := hlabel.2
    simpa [labelsOf_snoc, WrittenElement.label, htext] using hlabels

theorem agreeElements_cons_error {context : Context} {before elements : List WrittenElement}
    {element : WrittenElement} {fault : Fault}
    (h : AgreeElements context (before ++ [element]) elements (.error fault)) :
    AgreeElements context before (element :: elements) (.error fault) := by
  rcases h with ⟨other, hmem, h⟩ | h
  · exact Or.inl ⟨other, List.mem_cons_of_mem _ hmem, h⟩
  · cases element
    exact Or.inr (rejectsLabel_cons_iff.mpr (Or.inr h))

theorem underMark_named {context : Context} {path : String} {args : List Written}
    {type : Signature} (hargs : ∀ arg ∈ args, ¬ Violation context arg)
    (happlied : ¬ Misapplied context path (args.map (denote context)))
    (htype : type.bare = denotePath context path (args.map (denote context)))
    (start : Nat) (mark : Option Span) :
    Agrees context (.named path args mark.isSome) (underMark type start mark) := by
  have hmark := underMark_agrees type start mark
  have hannotated : type.facts.annotated
      = (denotePath context path (args.map (denote context))).facts.annotated := by
    rw [← htype, TypeFacts.facts_bare]
  cases hu : underMark type start mark with
  | error fault =>
      rw [hu] at hmark
      exact violation_named_iff.mpr (Or.inr (Or.inr ⟨hmark.1, hannotated ▸ hmark.2⟩))
  | ok signature =>
      rw [hu] at hmark
      refine ⟨fun h => ?_, ?_⟩
      · rcases violation_named_iff.mp h with ⟨arg, hmem, h⟩ | h | ⟨hsome, h⟩
        · exact hargs arg hmem h
        · exact happlied h
        · rw [← hannotated, hmark.1 hsome] at h
          cases h
      · simpa [denote, htype] using hmark.2

theorem underMark_tuple {context : Context} {elements : List WrittenElement}
    {pairs : List (Signature × String)} (span : Span)
    (hpairs : AgreeElements context [] elements (.ok pairs)) (mark : Option Span) :
    Agrees context (.tuple elements mark.isSome)
      (underMark (tupleOf pairs span) span.start mark) := by
  obtain ⟨helements, hrejects, htypes, hlabels⟩ := hpairs
  have hmark := underMark_agrees (tupleOf pairs span) span.start mark
  have htuple : (tupleOf pairs span).bare
      = labelledTuple (labelsOf elements) (elements.map (denote context ·.type)) := by
    have hlabels : pairs.map (·.2) = labelsOf elements := by simpa [labelsOf] using hlabels
    rw [← htypes, ← hlabels]
    simp [tupleOf, labelledTuple, Function.comp_def]
  cases hu : underMark (tupleOf pairs span) span.start mark with
  | error fault =>
      rw [hu] at hmark
      have : (tupleOf pairs span).facts.annotated = false := rfl
      simp [this] at hmark
  | ok signature =>
      rw [hu, htuple] at hmark
      refine ⟨fun h => ?_, ?_⟩
      · rcases violation_tuple_iff.mp h with ⟨element, hmem, h⟩ | h
        · exact helements element hmem h
        · exact hrejects h
      · simpa [denote] using hmark.2

mutual

/-- The reader answers with what a tree denotes, or refuses it. -/
theorem meaning_agrees (context : Context) (source : List Char) :
    ∀ type : TypeExpr, Agrees context type.written (meaning context source type)
  | .named path args span mark => by
      have hargs := meanings_agree context source args
      rw [meaning, TypeExpr.written, TypeExpr.writtenAll_eq_map]
      cases hm : meanings context source args with
      | error fault =>
          rw [hm] at hargs
          exact violation_named_iff.mpr (Or.inl hargs)
      | ok signatures =>
          rw [hm] at hargs
          have hnamed := namedOf_agrees source signatures span context path
          rw [hargs.2] at hnamed
          show Agrees _ _ (namedOf context source path signatures span >>=
            fun type => underMark type span.start mark)
          cases hn : namedOf context source path signatures span with
          | error fault =>
              rw [hn] at hnamed
              exact violation_named_iff.mpr (Or.inr (Or.inl hnamed))
          | ok type =>
              rw [hn] at hnamed
              exact underMark_named hargs.1 hnamed.1 hnamed.2 span.start mark
  | .tuple elements span mark => by
      have helements := elementMeanings_agree context source [] elements
      rw [meaning, TypeExpr.written, Element.writtenAll_eq_map]
      show Agrees _ _ (elementMeanings context source (labelsOf []) elements >>=
        fun elements => underMark (tupleOf elements span) span.start mark)
      cases hm : elementMeanings context source (labelsOf []) elements with
      | error fault =>
          rw [hm] at helements
          exact violation_tuple_iff.mpr helements
      | ok pairs =>
          rw [hm] at helements
          exact underMark_tuple span helements mark

theorem meanings_agree (context : Context) (source : List Char) : ∀ types : List TypeExpr,
    AgreeAll context (types.map TypeExpr.written) (meanings context source types)
  | [] => by simp [meanings, AgreeAll]
  | type :: types => by
      have htype := meaning_agrees context source type
      have htypes := meanings_agree context source types
      rw [meanings]
      cases hm : meaning context source type with
      | error fault =>
          rw [hm] at htype
          exact ⟨type.written, List.mem_cons_self, htype⟩
      | ok signature =>
          rw [hm] at htype
          show AgreeAll _ _ (meanings context source types >>=
            fun types => pure (signature :: types))
          cases hms : meanings context source types with
          | error fault =>
              rw [hms] at htypes
              obtain ⟨other, hmem, h⟩ := htypes
              exact ⟨other, List.mem_cons_of_mem _ hmem, h⟩
          | ok signatures =>
              rw [hms] at htypes
              refine ⟨List.forall_mem_cons.mpr ⟨htype.1, htypes.1⟩, ?_⟩
              exact congrArg₂ List.cons htype.2 htypes.2

theorem elementMeanings_agree (context : Context) (source : List Char)
    (before : List WrittenElement) : ∀ elements : List Element,
    AgreeElements context before (elements.map Element.written)
      (elementMeanings context source (labelsOf before) elements)
  | [] => by
      refine ⟨by simp, ?_, by simp, by simp⟩
      rintro ⟨front, _, _, _, heq, _⟩
      simp at heq
  | .mk type label :: elements => by
      have htype := meaning_agrees context source type
      have hlabel := labelOf_agrees before label
      rw [elementMeanings]
      cases hm : meaning context source type with
      | error fault =>
          rw [hm] at htype
          exact Or.inl ⟨(Element.mk type label).written, List.mem_cons_self, htype⟩
      | ok signature =>
          rw [hm] at htype
          show AgreeElements _ _ _ (labelOf (labelsOf before) label >>= fun label =>
            elementMeanings context source (labelsOf before ++ [label]) elements >>=
              fun others => pure ((signature, label) :: others))
          cases hl : labelOf (labelsOf before) label with
          | error fault =>
              rw [hl] at hlabel
              exact Or.inr (rejectsLabel_cons_iff.mpr (Or.inl hlabel))
          | ok text =>
              rw [hl] at hlabel
              have hseen : labelsOf before ++ [text]
                  = labelsOf (before ++ [(Element.mk type label).written]) := by
                rw [labelsOf_snoc, hlabel.2]
                rfl
              have hothers := elementMeanings_agree context source
                (before ++ [(Element.mk type label).written]) elements
              rw [← hseen] at hothers
              show AgreeElements _ _ _
                (elementMeanings context source (labelsOf before ++ [text]) elements >>=
                  fun others => pure ((signature, text) :: others))
              cases ho : elementMeanings context source (labelsOf before ++ [text]) elements with
              | error fault =>
                  rw [ho] at hothers
                  exact agreeElements_cons_error hothers
              | ok pairs =>
                  rw [ho] at hothers
                  exact agreeElements_cons htype hlabel hothers

end

/-- The reader answers exactly for a tree without violation, and then with what the
tree denotes. -/
theorem meaning_eq_ok_iff (context : Context) (source : List Char) (expr : TypeExpr)
    (type : TypeFacts Unit) :
    (∃ signature, meaning context source expr = .ok signature ∧ signature.bare = type) ↔
      ¬ Violation context expr.written ∧ type = denote context expr.written := by
  have h := meaning_agrees context source expr
  cases hm : meaning context source expr with
  | error fault =>
      rw [hm] at h
      simp [show Violation context expr.written from h]
  | ok signature =>
      rw [hm] at h
      constructor
      · rintro ⟨_, heq, rfl⟩
        exact Except.ok.inj heq ▸ h
      · rintro ⟨-, rfl⟩
        exact ⟨signature, rfl, h.2⟩

end Signature

end TypeNaming
