/-
# Trees by hand, and from text

A name tree is written by hand with the functions of `NameTree.Shorthand`, or made from what
is read.  `Sketch` is an expression in the former, and has two meanings:

  * `Sketch.build` is the tree that the functions make;
  * `Sketch.written` is the tree of the grammar that says the same, with the qualified names
    that the functions give to their types.

What is read from the text of the second is the first (`read_sketch`): the value types, the
qualified names and the nullable values of one are those of the other, though the functions
are told what is nullable and the reader finds out by the name before the `?`.  The two
trees agree node by node in name, qualified name and kind (`Twin`).  Labels and marks are
another matter: the reader gives a tuple all its labels or none.
-/
import TypeNaming.NameTree.Shorthand
import TypeNaming.Proofs.Identity.Matching
import TypeNaming.Proofs.RoundTrip.Redeclared

namespace TypeNaming

open Text (lastPart)

namespace NameTree

/-! ## Elements with their labels -/

theorem twins_elementTrees : ∀ {labels : List String} {types : List (TypeFacts Unit)}
    {trees : List NameTree}, labels.length = types.length →
      List.Forall₂ Twin (types.map TypeFacts.toNameTree) trees →
      List.Forall₂ Twin (TypeFacts.elementTrees labels types) trees
  | [], [], _, _, h => by simpa [TypeFacts.elementTrees] using h
  | label :: labels, type :: types, _, hlength, h => by
      cases h with
      | cons hfirst hothers =>
          exact .cons ((twin_withLabel _ label).trans hfirst)
            (twins_elementTrees (Nat.succ.inj hlength) hothers)

namespace Shorthand

open Signature

/-! ## Expressions -/

mutual

/-- An expression that makes a name tree. -/
inductive Sketch where
  | simple (name : String) (nullable : Bool)
  | generic (name : String) (args : List Sketch) (nullable : Bool)
  | tuple (elements : List SketchElement) (nullable : Bool)

/-- An element of a tuple, perhaps with a label. -/
inductive SketchElement where
  | mk (type : Sketch) (label : Option String)

end

/-- The type of the element. -/
def SketchElement.type : SketchElement → Sketch
  | .mk type _ => type

/-- The label of the element, if it has one. -/
def SketchElement.label : SketchElement → Option String
  | .mk _ label => label

/-- The tree, with the label if there is one. -/
def labelled (t : NameTree) : Option String → NameTree
  | none => t
  | some label => t.withLabel label

mutual

/-- The tree that the expression makes. -/
def Sketch.build : Sketch → NameTree
  | .simple name nullable => simple name nullable
  | .generic name args nullable => generic name (Sketch.buildAll args) nullable
  | .tuple elements nullable => tuple (SketchElement.buildAll elements) nullable

/-- The trees that the expressions make. -/
def Sketch.buildAll : List Sketch → List NameTree
  | [] => []
  | sketch :: sketches => sketch.build :: Sketch.buildAll sketches

/-- The trees that the elements make. -/
def SketchElement.buildAll : List SketchElement → List NameTree
  | [] => []
  | .mk type label :: elements => labelled type.build label :: SketchElement.buildAll elements

end

mutual

/-- The expression as a tree of the grammar. -/
def Sketch.written : Sketch → Written
  | .simple name nullable => .named (simpleQualified (expand name)) [] nullable
  | .generic name args nullable => .named (genericQualified name) (Sketch.writtenAll args) nullable
  | .tuple elements nullable => .tuple (SketchElement.writtenAll elements) nullable

/-- The expressions as trees of the grammar. -/
def Sketch.writtenAll : List Sketch → List Written
  | [] => []
  | sketch :: sketches => sketch.written :: Sketch.writtenAll sketches

/-- The elements as elements of the grammar. -/
def SketchElement.writtenAll : List SketchElement → List WrittenElement
  | [] => []
  | .mk type label :: elements => .mk type.written label :: SketchElement.writtenAll elements

end

@[simp] theorem Sketch.buildAll_eq_map (sketches : List Sketch) :
    Sketch.buildAll sketches = sketches.map Sketch.build := by
  induction sketches with
  | nil => rfl
  | cons sketch sketches ih => simp [Sketch.buildAll, ih]

@[simp] theorem SketchElement.buildAll_eq_map (elements : List SketchElement) :
    SketchElement.buildAll elements
      = elements.map fun element => labelled element.type.build element.label := by
  induction elements with
  | nil => rfl
  | cons element elements ih =>
      cases element
      simp [SketchElement.buildAll, SketchElement.type, SketchElement.label, ih]

@[simp] theorem Sketch.writtenAll_eq_map (sketches : List Sketch) :
    Sketch.writtenAll sketches = sketches.map Sketch.written := by
  induction sketches with
  | nil => rfl
  | cons sketch sketches ih => simp [Sketch.writtenAll, ih]

@[simp] theorem SketchElement.writtenAll_eq_map (elements : List SketchElement) :
    SketchElement.writtenAll elements
      = elements.map fun element => .mk element.type.written element.label := by
  induction elements with
  | nil => rfl
  | cons element elements ih =>
      cases element
      simp [SketchElement.writtenAll, SketchElement.type, SketchElement.label, ih]

/-- A name that a type may be given: an identifier that means no other type. -/
structure Nameable (name : String) : Prop where
  identifier : Identifier name.toList
  notWrapper : name ≠ "Nullable"
  notKeyword : ShortName.ofKeyword? name = none

/-- The expression can be written as a signature: its names can be given to a type, a type
with arguments has some, and a tuple has two elements or more, with labels that can stand
where they are once the missing ones are put in. -/
inductive Sketch.Sound : Sketch → Prop
  | simple {name : String} {nullable : Bool} : Nameable name → Sound (.simple name nullable)
  | generic {name : String} {args : List Sketch} {nullable : Bool} :
      Nameable name → args ≠ [] → (∀ arg ∈ args, Sound arg) → Sound (.generic name args nullable)
  | tuple {elements : List SketchElement} {nullable : Bool} :
      2 ≤ elements.length →
      (∀ element ∈ elements, ∀ label, element.label = some label → Identifier label.toList) →
      ¬ RejectsLabel [] (SketchElement.writtenAll elements) →
      (∀ element ∈ elements, Sound element.type) → Sound (.tuple elements nullable)

/-! ## The names of the types -/

/-- The path means the type of that name, and nothing else. -/
structure Means (path name : String) : Prop where
  isPath : IsPath path.toList
  notWrapper : ¬ IsWrapper path
  notKeyword : ShortName.ofKeyword? path = none
  lastPart : lastPart path = name

theorem ofKeyword?_of_dotted {path : String} (h : '.' ∈ path.toList) :
    ShortName.ofKeyword? path = none := by
  cases hkeyword : ShortName.ofKeyword? path with
  | none => rfl
  | some type =>
      have hname : type.keyword = path := by simpa using List.find?_some hkeyword
      have hmem := List.mem_of_find?_eq_some hkeyword
      exact absurd (hname ▸ h) (ShortName.keyword_avoids rfl hmem)

theorem Nameable.undotted {name : String} (h : Nameable name) : '.' ∉ name.toList :=
  h.identifier.avoids rfl

theorem Nameable.means_self {name : String} (h : Nameable name) : Means name name where
  isPath := .ident h.identifier
  notWrapper := notWrapper_of_undotted h.undotted h.notWrapper
  notKeyword := h.notKeyword
  lastPart := Text.lastPart_of_undotted h.undotted

theorem isPath_dotted {front back : List Char} (h : IsPath front) (hback : IsPath back) :
    IsPath (front ++ '.' :: back) := by
  induction h with
  | ident h => exact .dotted h hback
  | dotted h _ ih => simpa using IsPath.dotted h ih

theorem Nameable.means_below {name front : String} (h : Nameable name)
    (hfront : IsPath front.toList) : Means (front ++ "." ++ name) name where
  isPath := by simpa using isPath_dotted hfront (.ident h.identifier)
  notWrapper := by
    intro hwrapper
    have hlast := Text.lastPart_append_dot front h.undotted
    rcases hwrapper with heq | heq
    · rw [heq] at hlast
      exact h.notWrapper hlast.symm
    · rw [heq] at hlast
      exact h.notWrapper hlast.symm
  notKeyword := ofKeyword?_of_dotted (by simp)
  lastPart := Text.lastPart_append_dot front h.undotted

theorem shortNames_nameable : ∀ entry ∈ shortNames, isWord entry.2.toList = true ∧
    entry.2 ≠ "Nullable" ∧ ShortName.ofKeyword? entry.2 = none := by
  decide

theorem Nameable.expand {name : String} (h : Nameable name) : Nameable (expand name) := by
  unfold Shorthand.expand
  cases hlookup : shortNames.lookup name with
  | none => exact h
  | some long =>
      obtain ⟨front, back, hentries, -⟩ := List.lookup_eq_some_iff.mp hlookup
      have hmem : (name, long) ∈ shortNames := by simp [hentries]
      obtain ⟨hword, hwrapper, hkeyword⟩ := shortNames_nameable _ hmem
      exact ⟨identifier_of_isWord hword, hwrapper, hkeyword⟩

theorem namesValue_of_system (rest : String) :
    namesValue {} (ShortName.rootLead ++ rest) = ShortName.isSystemValue rest := by
  rw [namesValue, Text.after?_eq_some_iff.mpr rfl]
  rfl

theorem Nameable.not_value {name : String} (h : Nameable name) : namesValue {} name = false :=
  namesValue_default (ShortName.not_lead_of_undotted h.undotted)

/-- The reader takes a type without arguments for what the shorthand does. -/
theorem Nameable.means_simple {name : String} (h : Nameable name) :
    Means (simpleQualified name) name ∧
      namesValue {} (simpleQualified name) = ShortName.isSystemValue name := by
  have hroot : IsPath "System".toList := .ident (identifier_of_isWord (by decide))
  unfold Shorthand.simpleQualified
  split
  · exact ⟨h.means_below hroot, namesValue_of_system name⟩
  · next hsystem =>
      rw [Bool.or_eq_true, not_or, Bool.not_eq_true] at hsystem
      exact ⟨h.means_self, h.not_value.trans hsystem.1.symm⟩

theorem collections_not_value : ∀ name ∈ collectionNames,
    ShortName.isSystemValue ("Collections.Generic." ++ name) = false := by
  decide

/-- The reader takes no type with arguments for a value type, as the shorthand does not. -/
theorem Nameable.means_generic {name : String} (h : Nameable name) :
    Means (genericQualified name) name ∧ namesValue {} (genericQualified name) = false := by
  have hroot : IsPath "System".toList := .ident (identifier_of_isWord (by decide))
  unfold Shorthand.genericQualified
  split
  · next hmem =>
      have hcollections : IsPath "Collections".toList := .ident (identifier_of_isWord (by decide))
      have hgeneric : IsPath "Generic".toList := .ident (identifier_of_isWord (by decide))
      have hfront : IsPath "System.Collections.Generic".toList :=
        isPath_dotted hroot (isPath_dotted hcollections hgeneric)
      have hlead : ShortName.rootLead ++ "Collections.Generic."
          = "System.Collections.Generic" ++ "." := by decide
      refine ⟨hlead ▸ h.means_below hfront, ?_⟩
      rw [String.append_assoc, namesValue_of_system]
      exact collections_not_value name (List.contains_iff_mem.mp hmem)
  · split
    · next htuple =>
        obtain rfl := eq_of_beq htuple
        exact ⟨h.means_below hroot, by decide⟩
    · exact ⟨h.means_self, h.not_value⟩

/-! ## What is read is what is made -/

theorem readable_element {elements : List SketchElement}
    (hlabels : ∀ element ∈ elements, ∀ label, element.label = some label →
      Identifier label.toList) :
    ∀ element ∈ SketchElement.writtenAll elements, ∀ label, element.label = some label →
      IsPath label.toList ∧ '.' ∉ label.toList := by
  rw [SketchElement.writtenAll_eq_map]
  refine List.forall_mem_map.mpr fun element hmem label hlabel => ?_
  have hidentifier := hlabels element hmem label hlabel
  exact ⟨.ident hidentifier, hidentifier.avoids rfl⟩

theorem Sketch.Sound.readable {sketch : Sketch} (h : sketch.Sound) : Readable sketch.written := by
  induction h with
  | simple hname =>
      have hmeans := hname.expand.means_simple.1
      exact readable_named hmeans.isPath hmeans.notWrapper (fun _ => hmeans.notKeyword)
        (List.forall_mem_nil _) _
  | generic hname _ _ ih =>
      have hmeans := hname.means_generic.1
      rw [Sketch.written, Sketch.writtenAll_eq_map]
      exact readable_named hmeans.isPath hmeans.notWrapper (fun _ => hmeans.notKeyword)
        (List.forall_mem_map.mpr ih) _
  | tuple htwo hlabels hrejects _ ih =>
      rw [Sketch.written]
      refine readable_tuple (by simpa using htwo) hrejects (readable_element hlabels) ?_ _
      rw [SketchElement.writtenAll_eq_map]
      exact List.forall_mem_map.mpr ih

theorem twin_simple {name : String} (h : Nameable name) (nullable : Bool) :
    Twin (denote {} (Sketch.simple name nullable).written).toNameTree (simple name nullable) := by
  obtain ⟨hmeans, hvalue⟩ := h.expand.means_simple
  have hbase := denotePath_own hmeans.notKeyword hmeans.notWrapper []
  have hown (annotated : Bool)
      (hreference : annotated = true → namesValue {} (simpleQualified (expand name)) = false) :=
    @toNameTree_own (simpleQualified (expand name)) [] annotated hreference (List.forall_mem_nil _)
  have hplain : Twin
      (TypeFacts.mk (ownFacts (simpleQualified (expand name)) false) [] ()).toNameTree
      (plain (expand name) (simpleQualified (expand name))) := by
    obtain ⟨marks, htree⟩ := hown false (by simp)
    rw [htree]
    exact .node hmeans.lastPart rfl rfl .nil
  rw [Sketch.written, denote, denoteAll_eq_map, List.map_nil, hbase]
  cases nullable with
  | false => exact hplain
  | true =>
      show Twin (denoteMark _).toNameTree (if ShortName.isSystemValue (expand name) then _ else _)
      rw [denoteMark_own, hvalue]
      split
      · obtain ⟨marks, htree⟩ := @toNameTree_nullable
          (.mk (ownFacts (simpleQualified (expand name)) false) [] ()) rfl
        rw [htree]
        exact .node rfl (congrArg (· ++ "?") hplain.qualified) rfl (.cons hplain .nil)
      · next hsystem =>
          obtain ⟨marks, htree⟩ := hown true fun _ => hvalue.trans (Bool.eq_false_iff.mpr hsystem)
          rw [htree]
          exact .node hmeans.lastPart rfl rfl .nil

theorem twin_generic {name : String} {args : List Sketch} (h : Nameable name) (hne : args ≠ [])
    (hnamed : ∀ arg ∈ args, (denote {} arg.written).facts.named = true)
    (hargs : ∀ arg ∈ args, Twin (denote {} arg.written).toNameTree arg.build) (nullable : Bool) :
    Twin (denote {} (Sketch.generic name args nullable).written).toNameTree
      (Sketch.generic name args nullable).build := by
  obtain ⟨hmeans, hvalue⟩ := h.means_generic
  have hbase : denote {} (Sketch.generic name args nullable).written
      = .mk (ownFacts (genericQualified name) nullable)
          (args.map fun arg => denote {} arg.written) () := by
    rw [Sketch.written, denote, denoteAll_eq_map, Sketch.writtenAll_eq_map, List.map_map,
      denotePath_own hmeans.notKeyword hmeans.notWrapper]
    cases nullable with
    | false => rfl
    | true => exact (denoteMark_own _ _).trans (if_neg (Bool.eq_false_iff.mp hvalue))
  have htrees : List.Forall₂ Twin
      ((args.map fun arg => denote {} arg.written).map TypeFacts.toNameTree)
      (args.map Sketch.build) := by
    rw [List.map_map, List.forall₂_map_left_iff, List.forall₂_map_right_iff]
    exact List.forall₂_same.mpr hargs
  obtain ⟨marks, htree⟩ := toNameTree_own (fun _ => hvalue) (List.forall_mem_map.mpr hnamed)
  have hgeneric : ¬ (args.map fun arg => denote {} arg.written).isEmpty := by simpa using hne
  rw [hbase, htree, if_neg hgeneric, Sketch.build, Sketch.buildAll_eq_map]
  cases nullable <;> exact .node hmeans.lastPart rfl rfl htrees

theorem twin_labelled (t : NameTree) (label : Option String) : Twin t (labelled t label) := by
  cases label with
  | none => exact .refl t
  | some label => exact (twin_withLabel t label).symm

/-- The elements of a tuple, read and made. -/
theorem twins_elements {elements : List SketchElement}
    (h : ∀ element ∈ elements,
      Twin (denote {} element.type.written).toNameTree element.type.build) :
    List.Forall₂ Twin
      ((elements.map fun element => denote {} element.type.written).map TypeFacts.toNameTree)
      (SketchElement.buildAll elements) := by
  rw [SketchElement.buildAll_eq_map, List.map_map, List.forall₂_map_left_iff,
    List.forall₂_map_right_iff, List.forall₂_same]
  exact fun element hmem => (h element hmem).trans (twin_labelled _ element.label)

theorem qualified_toNameTree (type : TypeFacts Unit) :
    type.toNameTree.qualified = type.facts.qualified := by
  obtain ⟨facts, args, note⟩ := type
  obtain ⟨marks, children, htree, -⟩ := TypeFacts.toNameTree_eq_node facts args note
  rw [htree]
  rfl

theorem twin_tuple {elements : List SketchElement}
    (hnamed : ∀ element ∈ elements, (denote {} element.type.written).facts.named = true)
    (h : ∀ element ∈ elements, Twin (denote {} element.type.written).toNameTree element.type.build)
    (nullable : Bool) : Twin (denote {} (Sketch.tuple elements nullable).written).toNameTree
      (Sketch.tuple elements nullable).build := by
  have htrees := twins_elements h
  have hplain : Twin (denote {} (Sketch.tuple elements false).written).toNameTree
      (Sketch.tuple elements false).build := by
    have hlabels : (labelsOf (SketchElement.writtenAll elements)).length
        = (elements.map fun element => denote {} element.type.written).length := by simp
    have hbase : denote {} (Sketch.tuple elements false).written
        = labelledTuple (labelsOf (SketchElement.writtenAll elements))
            (elements.map fun element => denote {} element.type.written) := by
      rw [Sketch.written, denote, denoteElements_eq_map, SketchElement.writtenAll_eq_map,
        List.map_map]
      rfl
    have hnames := Twin.map_eq (f := NameTree.qualified) (fun _ _ h => h.qualified) htrees
    rw [List.map_map, funext (f := NameTree.qualified ∘ _) qualified_toNameTree] at hnames
    obtain ⟨marks, htree⟩ := toNameTree_labelledTuple (labelsOf (SketchElement.writtenAll elements))
      (List.forall_mem_map.mpr hnamed)
    rw [hbase, htree]
    refine .node rfl (congrArg (fun names => "(" ++ ", ".intercalate names ++ ")") hnames) rfl ?_
    split
    · exact twins_elementTrees hlabels htrees
    · exact htrees
  cases nullable with
  | false => exact hplain
  | true =>
      obtain ⟨marks, htree⟩ := @toNameTree_nullable
        (denote {} (Sketch.tuple elements false).written) rfl
      show Twin (nullable (denote {} (Sketch.tuple elements false).written)).toNameTree _
      rw [htree]
      have hname := (qualified_toNameTree _).symm.trans hplain.qualified
      exact .node rfl (congrArg (· ++ "?") hname) rfl (.cons hplain .nil)

theorem Sketch.Sound.twin {sketch : Sketch} (h : sketch.Sound) :
    Twin (denote {} sketch.written).toNameTree sketch.build := by
  induction h with
  | simple hname => exact twin_simple hname _
  | generic hname hne hargs ih =>
      exact twin_generic hname hne (fun arg hmem => (hargs arg hmem).readable.lawful.named_eq) ih _
  | tuple _ _ _ htypes ih =>
      exact twin_tuple (fun element hmem => (htypes element hmem).readable.lawful.named_eq) ih _

/-- What is read from the text of an expression is what the expression makes. -/
theorem read_sketch {sketch : Sketch} (h : sketch.Sound) (hdepth : sketch.written.nesting ≤ 64) :
    ∃ signature, read {} sketch.written.text = .ok signature ∧
      (signature.toNameTree == sketch.build) = true ∧
      signature.toNameTree.identityHash = sketch.build.identityHash ∧
      signature.toNameTree.namespaces = sketch.build.namespaces := by
  have hreadable := h.readable
  obtain ⟨signature, hread, hbare⟩ :=
    read_text hreadable.derivable hreadable.called hreadable.sound hdepth
  have htwin := h.twin
  rw [← hbare, TypeFacts.toNameTree_bare] at htwin
  exact ⟨signature, hread, htwin.same⟩

/-- A dictionary with a nullable tuple in it, of which the second label is left out. -/
theorem read_sketch_dictionary :
    let sketch := Sketch.generic "Dictionary"
      [.simple "Str" false,
        .tuple [.mk (.simple "Int" true) (some "Id"), .mk (.simple "Pair" false) none] true] false
    ∃ signature, read {}
        "System.Collections.Generic.Dictionary<System.String, (System.Int32? Id, Pair)?>"
        = .ok signature ∧
      (signature.toNameTree == sketch.build) = true ∧
      signature.toNameTree.identityHash = sketch.build.identityHash ∧
      signature.toNameTree.namespaces = ["System.Collections.Generic"] := by
  intro sketch
  have hnames : ∀ name ∈ ["Dictionary", "Str", "Int", "Pair"], Nameable name := fun name hmem =>
    have hword : ∀ name ∈ ["Dictionary", "Str", "Int", "Pair"], isWord name.toList = true ∧
        name ≠ "Nullable" ∧ ShortName.ofKeyword? name = none := by decide
    ⟨identifier_of_isWord (hword name hmem).1, (hword name hmem).2.1, (hword name hmem).2.2⟩
  have hposition : labelPosition? "Id" = none := by decide
  have hrejects : ¬ RejectsLabel [] (SketchElement.writtenAll
      [.mk (.simple "Int" true) (some "Id"), .mk (.simple "Pair" false) none]) := by
    simp only [SketchElement.writtenAll, rejectsLabel_cons_iff, rejectedLabel_iff]
    simp [RejectsLabel, labelsOf, hposition]
  have htuple : (Sketch.tuple
      [.mk (.simple "Int" true) (some "Id"), .mk (.simple "Pair" false) none] true).Sound := by
    refine .tuple (by decide) (fun element hmem label hlabel => ?_) hrejects ?_
    · have hid : label = "Id" := by
        simp only [List.mem_cons, List.not_mem_nil, or_false] at hmem
        rcases hmem with rfl | rfl
        · exact (Option.some.inj hlabel).symm
        · cases hlabel
      exact hid ▸ identifier_of_isWord (by decide)
    · exact List.forall_mem_cons.mpr ⟨.simple (hnames _ (by simp)),
        List.forall_mem_singleton.mpr (.simple (hnames _ (by simp)))⟩
  have hsound : sketch.Sound :=
    .generic (hnames _ (by simp)) (List.cons_ne_nil _ _)
      (List.forall_mem_cons.mpr
        ⟨.simple (hnames _ (by simp)), List.forall_mem_singleton.mpr htuple⟩)
  obtain ⟨signature, hread, hsame, hhash, hnamespaces⟩ := read_sketch hsound (by decide)
  exact ⟨signature, hread, hsame, hhash, hnamespaces.trans (by decide)⟩

end Shorthand

end NameTree

end TypeNaming
