/-
# What a declaration writes

The declaration of a type that is read is the text of a tree, `declared`, whose names are
the short forms of the names in the type (`text_declared`).  Two rules are not what the
shape of the type suggests: a type with arguments loses its `?`, and a nullable value is
declared by its qualified name alone, which for a tuple is a row of full names without
arguments and labels (`qualifiedForm`).

A short form is a keyword, or a name that nothing is known of when nothing is declared: its
namespace is gone, if that was below `System`, and with it the knowledge that it is a value
type.  `Short` says so, and `short_qualified` that every path has such a form unless it is
`Nullable`.
-/
import TypeNaming.Proofs.Identity.Hint
import TypeNaming.Proofs.RoundTrip.QualifiedName

namespace TypeNaming

open Text (lastPart)

/-! ## Short forms -/

namespace ShortName

/-- The names of the value types in `System`. -/
theorem isSystemValue_iff {name : String} : isSystemValue name = true ↔
    (∃ type ∈ builtIns, type.isValue = true ∧ type.name = name) ∨ name ∈ plainValueTypes := by
  simp [isSystemValue, isValueBuiltIn]

theorem qualified_builtIn :
    ∀ type ∈ builtIns, qualified ("System." ++ type.name) = type.keyword := by
  decide

theorem qualified_markedBuiltIn : ∀ type ∈ builtIns, type.isValue = true →
    qualified ("System." ++ type.name ++ "?") = qualified ("System." ++ type.name) ++ "?" := by
  decide

theorem qualified_markedPlain : ∀ name ∈ plainValueTypes,
    qualified ("System." ++ name ++ "?") = qualified ("System." ++ name) ++ "?" := by
  decide

/-- The `?` of a nullable value in `System` stays where it is. -/
theorem qualified_marked_of_isSystemValue {name : String} (h : isSystemValue name = true) :
    qualified ("System." ++ name ++ "?") = qualified ("System." ++ name) ++ "?" := by
  rcases isSystemValue_iff.mp h with ⟨type, hmem, hvalue, rfl⟩ | hmem
  · exact qualified_markedBuiltIn type hmem hvalue
  · exact qualified_markedPlain name hmem

theorem qualified_of_not_lead {name : String} (h : Text.after? rootLead name = none) :
    qualified name = name := by
  rw [qualified, h]

/-- A name without dots is not below `System`. -/
theorem not_lead_of_undotted {name : String} (h : '.' ∉ name.toList) :
    Text.after? rootLead name = none := by
  refine Text.after?_eq_none_iff.mpr ?_
  rintro rest rfl
  exact h (by simp [rootLead])

end ShortName

namespace Signature

/-- A name that a declaration writes: a keyword, or a name of which nothing is known. -/
inductive Short : String → Prop
  | keyword {type : ShortName.BuiltIn} : type ∈ ShortName.builtIns → Short type.keyword
  | own {name : String} : IsPath name.toList → ShortName.ofKeyword? name = none →
      ¬ IsWrapper name → ShortName.qualified name = name → namesValue {} name = false →
      Short name

theorem Short.isPath {name : String} (h : Short name) : IsPath name.toList := by
  cases h with
  | keyword hmem => exact .ident (identifier_of_isWord (builtIn_isWord _ hmem).2)
  | own hpath => exact hpath

theorem keyword_notWrapper : ∀ type ∈ ShortName.builtIns, ¬ IsWrapper type.keyword := by
  decide

theorem Short.notWrapper {name : String} (h : Short name) : ¬ IsWrapper name := by
  cases h with
  | keyword hmem => exact keyword_notWrapper _ hmem
  | own _ _ hwrapper => exact hwrapper

theorem namesValue_default {path : String} (h : Text.after? ShortName.rootLead path = none) :
    namesValue {} path = false := by
  rw [namesValue, h]
  rfl

theorem IsPath.exists_last_identifier {cs : List Char} (h : IsPath cs) :
    ∃ back, Identifier back ∧ (cs = back ∨ ∃ front, cs = front ++ '.' :: back) := by
  induction h with
  | ident h => exact ⟨_, h, Or.inl rfl⟩
  | @dotted cs rest _ _ ih =>
      obtain ⟨back, hback, rfl | ⟨front, rfl⟩⟩ := ih
      · exact ⟨_, hback, Or.inr ⟨cs, rfl⟩⟩
      · exact ⟨back, hback, Or.inr ⟨cs ++ '.' :: front, by simp⟩⟩

/-- The last part of a path is an identifier. -/
theorem IsPath.lastPart {path : String} (h : IsPath path.toList) :
    Identifier (lastPart path).toList := by
  obtain ⟨back, hback, hcs | ⟨front, hcs⟩⟩ := h.exists_last_identifier
  · have hundotted : '.' ∉ path.toList := hcs ▸ hback.avoids rfl
    rw [Text.lastPart_of_undotted hundotted, hcs]
    exact hback
  · have hundotted : '.' ∉ (String.ofList back).toList := by
      rw [String.toList_ofList]
      exact hback.avoids rfl
    have hpath : path = String.ofList front ++ "." ++ String.ofList back := by
      refine String.toList_inj.mp ?_
      simp [hcs]
    rw [hpath, Text.lastPart_append_dot _ hundotted, String.toList_ofList]
    exact hback

theorem notWrapper_of_undotted {name : String} (hundotted : '.' ∉ name.toList)
    (h : name ≠ "Nullable") : ¬ IsWrapper name := by
  rintro (hname | rfl)
  · exact h hname
  · exact hundotted (by decide)

theorem short_of_undotted {name : String} (hname : Identifier name.toList)
    (hwrapper : name ≠ "Nullable") : Short name := by
  have hundotted : '.' ∉ name.toList := hname.avoids rfl
  have hlead := ShortName.not_lead_of_undotted hundotted
  cases hkeyword : ShortName.ofKeyword? name with
  | some type =>
      have hname : type.keyword = name := by simpa using List.find?_some hkeyword
      rw [← hname]
      exact .keyword (List.mem_of_find?_eq_some hkeyword)
  | none =>
      exact .own (.ident hname) hkeyword (notWrapper_of_undotted hundotted hwrapper)
        (ShortName.qualified_of_not_lead hlead) (namesValue_default hlead)

/-- The short form of a path can be read as one name again. -/
theorem short_qualified {path : String} (hpath : IsPath path.toList)
    (hkeyword : ShortName.ofKeyword? path = none)
    (hwrapper : ShortName.qualified path ≠ "Nullable") : Short (ShortName.qualified path) := by
  cases hlead : Text.after? ShortName.rootLead path with
  | none =>
      have hown := ShortName.qualified_of_not_lead hlead
      rw [hown] at hwrapper ⊢
      refine .own hpath hkeyword ?_ hown (namesValue_default hlead)
      rintro (h | rfl)
      · exact hwrapper h
      · exact absurd hlead (by decide)
  | some rest =>
      obtain rfl := Text.after?_eq_some_iff.mp hlead
      have hmark : '?' ∉ rest.toList := by
        intro hmem
        exact hpath.avoids (c := '?') rfl (by decide) (by simp [hmem])
      unfold ShortName.qualified at hwrapper ⊢
      simp only [hlead] at hwrapper ⊢
      cases hspelling : ShortName.spelling? rest with
      | none =>
          have hlast : lastPart (ShortName.rootLead ++ rest) = lastPart rest :=
            Text.lastPart_after "System" rest
          rw [hspelling, Option.getD_none, ← hlast] at hwrapper
          rw [Option.getD_none, ← hlast]
          exact short_of_undotted hpath.lastPart hwrapper
      | some text =>
          obtain ⟨type, htype, rfl⟩ := ShortName.exists_keyword_of_spelling hspelling hmark
          exact .keyword (ShortName.named?_eq_some htype).1

/-! ## The trees that are declared -/

/-- The tree that a nullable value over the type is declared by. -/
def nullableForm (inner : TypeFacts Unit) : Written :=
  if inner.facts.tuple then (qualifiedForm inner).withMark
  else .named (ShortName.qualified inner.facts.qualified) [] true

/-- Elements with the labels, as far as both go. -/
def elementsOf (labels : List (Option String)) (types : List Written) : List WrittenElement :=
  List.zipWith (fun label type => .mk type label) labels types

/-- The labels that a declaration shows: all of them, or none. -/
def shownLabels (facts : Facts) (args : List (TypeFacts Unit)) : List (Option String) :=
  if TypeFacts.hasOwnLabels facts args then facts.labels.map some else args.map fun _ => none

mutual

/-- The tree that the declaration of a type writes. -/
def declared : TypeFacts Unit → Written
  | .mk facts args _ =>
    if facts.tuple then .tuple (elementsOf (shownLabels facts args) (declaredAll args)) false
    else
      match facts.annotated && facts.value, args with
      | true, inner :: _ => nullableForm inner
      | _, _ =>
        .named (ShortName.qualified facts.qualified) (declaredAll args)
          (facts.annotated && args.isEmpty)

/-- The trees that the declarations of the types write. -/
def declaredAll : List (TypeFacts Unit) → List Written
  | [] => []
  | type :: types => declared type :: declaredAll types

end

@[simp] theorem declaredAll_eq_map (types : List (TypeFacts Unit)) :
    declaredAll types = types.map declared := by
  induction types with
  | nil => rfl
  | cons type types ih => simp [declaredAll, ih]

section

variable {path : String} {args : List (TypeFacts Unit)} {annotated : Bool}
  {elements : List WrittenElement} {types : List (TypeFacts Unit)}

theorem qualifiedForm_own (h : annotated = true → namesValue {} path = false) :
    qualifiedForm (.mk (ownFacts path annotated) args ()) = .named path [] false := by
  refine qualifiedForm_plain rfl ?_
  cases annotated with
  | false => rfl
  | true => exact h rfl

theorem qualifiedForm_nullable (inner : TypeFacts Unit) :
    qualifiedForm (nullable inner) = (qualifiedForm inner).withMark :=
  qualifiedForm_wrapper rfl rfl

theorem qualifiedForm_tuple (labels : List String) (types : List (TypeFacts Unit)) :
    qualifiedForm (labelledTuple labels types)
      = .tuple (types.map fun type => .mk (qualifiedForm type) none) false :=
  qualifiedForm_elements rfl

theorem nullableForm_own :
    nullableForm (.mk (ownFacts path annotated) args ())
      = .named (ShortName.qualified path) [] true := rfl

theorem nullableForm_tuple (labels : List String) (types : List (TypeFacts Unit)) :
    nullableForm (labelledTuple labels types)
      = (qualifiedForm (labelledTuple labels types)).withMark := rfl

theorem declared_own (h : annotated = true → namesValue {} path = false) :
    declared (.mk (ownFacts path annotated) args ())
      = .named (ShortName.qualified path) (args.map declared) (annotated && args.isEmpty) := by
  cases annotated <;> simp_all [declared, ownFacts]

theorem declared_nullable (inner : TypeFacts Unit) :
    declared (nullable inner) = nullableForm inner := by
  simp [nullable, declared]

theorem declared_tuple (labels : List String) (types : List (TypeFacts Unit)) :
    declared (labelledTuple labels types) = .tuple (elementsOf
      (shownLabels (labelledTuple labels types).facts types) (types.map declared)) false := by
  simp [labelledTuple, declared, TypeFacts.facts]

end

/-! ## The text of a declaration -/

end Signature

namespace NameTree

theorem declaration_node (info : NodeInfo) (children : List NameTree) :
    declaration (.node info children) =
      unlabelledOver (ShortName.qualified info.qualified) info.kind (children.map declaration) ++
        LabelStyle.shown.suffix info.label :=
  declare_node .shown info children

theorem declaration_withLabel {t : NameTree} (h : t.label = none) (label : String) :
    (t.withLabel label).declaration = t.declaration ++ LabelStyle.shown.suffix (some label) := by
  obtain ⟨info, children⟩ := t
  have h : info.label = none := h
  rw [withLabel, declaration_node, declaration_node, h]
  exact congrArg (· ++ _) String.append_empty.symm

theorem unlabelledOver_tuple (short : String) {texts : List String} (h : texts ≠ []) :
    unlabelledOver short .tuple texts = "(" ++ ", ".intercalate texts ++ ")" := by
  obtain ⟨text, texts, rfl⟩ := List.exists_cons_of_ne_nil h
  rfl

end NameTree

namespace TypeFacts

theorem label_toNameTree {α : Type} (type : TypeFacts α) : type.toNameTree.label = none := by
  obtain ⟨facts, args, note⟩ := type
  obtain ⟨marks, children, heq, -⟩ := toNameTree_eq_node facts args note
  rw [heq]
  rfl

end TypeFacts

namespace Signature

/-- The name that a nullable value is declared by. -/
theorem text_nullableForm {inner : TypeFacts Unit} (h : Lawful inner)
    (hvalue : inner.facts.value = true) (hannotated : inner.facts.annotated = false) :
    (nullableForm inner).text = ShortName.qualified (inner.facts.qualified ++ "?") := by
  have hraw := text_qualifiedForm h.coherent
  have hmarked := isMarked_qualifiedForm h.coherent.own hannotated
  cases h with
  | named hpath hkeyword hwrapper _ _ =>
      have hvalue : namesValue {} _ = true := hvalue
      rcases namesValue_iff.mp hvalue with hmem | ⟨simple, rfl, hsystem⟩
      · cases hmem
      · exact (ShortName.qualified_marked_of_isSystemValue hsystem).symm
  | nullable => cases hannotated
  | tuple =>
      rw [nullableForm_tuple, text_withMark hmarked, hraw]
      refine (NameTree.qualified_of_paren ?_).symm
      simp [labelledTuple, TypeFacts.facts]

theorem map_text_elementsOf : ∀ {labels : List String} {types : List (TypeFacts Unit)},
    (∀ type ∈ types, (declared type).text = type.toNameTree.declaration) →
      (elementsOf (labels.map some) (types.map declared)).map WrittenElement.text
        = (TypeFacts.elementTrees labels types).map NameTree.declaration
  | [], types, _ => by simp [elementsOf, TypeFacts.elementTrees]
  | label :: labels, [], _ => by simp [elementsOf, TypeFacts.elementTrees]
  | label :: labels, type :: types, h => by
      obtain ⟨htype, htypes⟩ := List.forall_mem_cons.mp h
      have hothers := @map_text_elementsOf labels types htypes
      have hfirst : (WrittenElement.mk (declared type) (some label)).text
          = (type.toNameTree.withLabel label).declaration := by
        rw [WrittenElement.text, htype,
          NameTree.declaration_withLabel type.label_toNameTree]
      exact congrArg₂ List.cons hfirst hothers

theorem map_text_unlabelled {types : List (TypeFacts Unit)}
    (h : ∀ type ∈ types, (declared type).text = type.toNameTree.declaration) :
    (elementsOf (types.map fun _ => none) (types.map declared)).map WrittenElement.text
      = (types.map TypeFacts.toNameTree).map NameTree.declaration := by
  rw [elementsOf, List.zipWith_map, List.zipWith_self, List.map_map, List.map_map]
  refine List.map_congr_left fun type hmem => ?_
  show (declared type).text ++ "" = _
  rw [String.append_empty, h type hmem]
  rfl

theorem declaration_own {path : String} {args : List (TypeFacts Unit)} {annotated : Bool}
    (hvalue : annotated = true → namesValue {} path = false)
    (hargs : ∀ arg ∈ args, arg.facts.named = true) :
    (TypeFacts.mk (ownFacts path annotated) args ()).toNameTree.declaration
      = NameTree.unlabelledOver (ShortName.qualified path)
          (if args.isEmpty then .plain annotated else .generic annotated)
          ((args.map TypeFacts.toNameTree).map NameTree.declaration) := by
  obtain ⟨marks, htree⟩ := toNameTree_own hvalue hargs
  rw [htree, NameTree.declaration_node]
  exact String.append_empty

theorem declaration_nullable (inner : TypeFacts Unit) :
    (nullable inner).toNameTree.declaration
      = ShortName.qualified (inner.facts.qualified ++ "?") := by
  obtain ⟨marks, children, htree, -⟩ := TypeFacts.toNameTree_eq_node (nullable inner).facts
    [inner] ()
  have htree : (nullable inner).toNameTree = _ := htree
  rw [htree, NameTree.declaration_node]
  exact String.append_empty

theorem declaration_tuple {labels : List String} {types : List (TypeFacts Unit)}
    (hlength : labels.length = types.length) (hne : types ≠ [])
    (htypes : ∀ type ∈ types, type.facts.named = true) :
    (labelledTuple labels types).toNameTree.declaration
      = "(" ++ ", ".intercalate
          ((if TypeFacts.hasOwnLabels (labelledTuple labels types).facts types then
            TypeFacts.elementTrees labels types
          else types.map TypeFacts.toNameTree).map NameTree.declaration) ++ ")" := by
  obtain ⟨marks, htree⟩ := toNameTree_labelledTuple labels htypes
  have htrees := TypeFacts.elementTrees_ne_nil hlength hne
  rw [htree, NameTree.declaration_node, NameTree.unlabelledOver_tuple]
  · exact String.append_empty
  · split <;> simpa

/-- The declaration of a type is the text of the tree that it is declared by. -/
theorem text_declared {type : TypeFacts Unit} (h : Lawful type) :
    (declared type).text = type.toNameTree.declaration := by
  induction h with
  | @named path args annotated _ _ _ hvalue hargs ih =>
      rw [declared_own hvalue, declaration_own hvalue fun arg hmem => (hargs arg hmem).named_eq]
      cases args with
      | nil => cases annotated <;> simp [Written.text, markText, NameTree.unlabelledOver,
          Kind.onReference]
      | cons arg args =>
          have htexts : ((arg :: args).map declared).map Written.text
              = ((arg :: args).map TypeFacts.toNameTree).map NameTree.declaration := by
            rw [List.map_map, List.map_map]
            exact List.map_congr_left ih
          rw [List.isEmpty_cons, Bool.and_false, ← htexts]
          simp [Written.text, markText, NameTree.unlabelledOver]
  | nullable hvalue hannotated hinner _ =>
      rw [declared_nullable, text_nullableForm hinner hvalue hannotated,
        declaration_nullable]
  | @tuple elements types htwo hlength _ _ htypes ih =>
      have hne : types ≠ [] := List.ne_nil_of_length_pos (by omega)
      have hlabels : (labelsOf elements).length = types.length := by
        rw [length_labelsOf, hlength]
      rw [declaration_tuple hlabels hne fun type hmem => (htypes type hmem).named_eq,
        declared_tuple, Written.text, WrittenElement.texts_eq_map, shownLabels]
      split
      · rw [← map_text_elementsOf ih]
        exact String.append_empty
      · rw [← map_text_unlabelled ih]
        exact String.append_empty

end Signature

end TypeNaming
