/-
# Spellings of one type

Some parts of a type can be written in more than one way.  `Respelled` is the least
equivalence that replaces, anywhere in a tree,

    int                  by   System.Int32          (a keyword without arguments)
    T?                   by   Nullable<T>           (`T` a value type without `?`)
                         or   System.Nullable<T>
    an element `T`       by   `T Item2`             (the label of its own position)

A tree is written out by its `row` of lexemes, and the blanks between them are free:
`Cut text written.row` says that the text is one of the spellings of the tree.

`read_respelled` is the result: when a text is read, it is the row of a tree, and the
spellings of every tree that this one can be respelled as are read as well, as the same
type up to the places.
It is put together from three invariants of the relation: what is denoted
(`Respelled.denote_eq`), whether the tree is refused (`Respelled.violation_iff`), and
whether it is derivable at all (`Respelled.derivable_iff`).

The names that have another spelling must not be declared otherwise (`Context.Plain`):
a context could make `int` a type parameter, or `System.String` a value type.
-/
import TypeNaming.Alternatives
import TypeNaming.Proofs.Grammar.Exact
import TypeNaming.Proofs.Grammar.Labels
import TypeNaming.Proofs.Grammar.Row
import TypeNaming.Proofs.Identity.Parsed

namespace TypeNaming

/-! ## Names with another spelling -/

namespace ShortName

theorem builtIn_ofKeyword : ∀ type ∈ builtIns, ofKeyword? type.keyword = some type := by
  simp [builtIns, ofKeyword?]

theorem builtIn_isSystemValue : ∀ type ∈ builtIns, isSystemValue type.name = type.isValue := by
  simp [builtIns, isSystemValue, isValueBuiltIn, plainValueTypes]

theorem builtIn_lastPart :
    ∀ type ∈ builtIns, Text.lastPart ("System." ++ type.name) = type.name := by
  decide

theorem builtIn_noKeyword :
    ∀ type ∈ builtIns, ofKeyword? ("System." ++ type.name) = none := by
  decide

end ShortName

open ShortName (BuiltIn builtIns)

namespace Signature

theorem builtIn_notWrapper : ∀ type ∈ builtIns, ¬ IsWrapper ("System." ++ type.name) := by
  decide

/-- The names that have another spelling. -/
inductive Reserved : String → Prop
  | keyword {type : BuiltIn} : type ∈ builtIns → Reserved type.keyword
  | system {type : BuiltIn} : type ∈ builtIns → Reserved ("System." ++ type.name)
  | wrapper {path : String} : IsWrapper path → Reserved path

end Signature

/-- None of the names with another spelling is declared in the context. -/
structure Context.Plain (context : Context) : Prop where
  valueTypes : ∀ name, Signature.Reserved name → name ∉ context.valueTypes
  typeParams : ∀ name, Signature.Reserved name → name ∉ context.typeParams

namespace Signature

/-! ## Respelling -/

/-- The type with a `?` on it. -/
def Written.withMark : Written → Written
  | .named path args _ => .named path args true
  | .tuple elements _ => .tuple elements true

/-- The trees are spellings of each other: some parts of one are written in another way
in the other. -/
inductive Respelled (context : Context) : Written → Written → Prop
  | refl (type : Written) : Respelled context type type
  | symm {type other : Written} : Respelled context type other → Respelled context other type
  | trans {type other third : Written} :
      Respelled context type other → Respelled context other third →
      Respelled context type third
  | keyword {type : BuiltIn} (marked : Bool) : type ∈ builtIns →
      Respelled context (.named type.keyword [] marked)
        (.named ("System." ++ type.name) [] marked)
  | wrapper {path : String} {type : Written} : IsWrapper path → type.isMarked = false →
      (denote context type).facts.value = true →
      (denote context type).facts.annotated = false →
      Respelled context type.withMark (.named path [type] false)
  /-- The label of the position; a position is a machine word. -/
  | label (front : List WrittenElement) (type : Written) (back : List WrittenElement)
      (marked : Bool) : (front ++ .mk type none :: back).length < UInt64.size →
      Respelled context (.tuple (front ++ .mk type none :: back) marked)
        (.tuple (front ++ .mk type (some (defaultLabel front.length)) :: back) marked)
  | argument {type other : Written} (path : String) (front back : List Written)
      (marked : Bool) : Respelled context type other →
      Respelled context (.named path (front ++ type :: back) marked)
        (.named path (front ++ other :: back) marked)
  | element {type other : Written} (front : List WrittenElement) (label : Option String)
      (back : List WrittenElement) (marked : Bool) : Respelled context type other →
      Respelled context (.tuple (front ++ .mk type label :: back) marked)
        (.tuple (front ++ .mk other label :: back) marked)

/-! ## What is denoted -/

theorem denote_withMark {context : Context} {type : Written} (h : type.isMarked = false) :
    denote context type.withMark = denoteMark (denote context type) := by
  cases type with
  | named path args marked =>
      obtain rfl : marked = false := h
      rfl
  | tuple elements marked =>
      obtain rfl : marked = false := h
      rfl

theorem denotePath_keyword {context : Context} (hplain : context.Plain) {type : BuiltIn}
    (h : type ∈ builtIns) :
    denotePath context type.keyword []
      = nominal type.name ("System." ++ type.name) type.isValue [] := by
  have hparam := hplain.typeParams _ (.keyword h)
  simp only [denotePath, hparam, if_false, ShortName.builtIn_ofKeyword type h]

theorem namesValue_system {context : Context} (hplain : context.Plain) {type : BuiltIn}
    (h : type ∈ builtIns) : namesValue context ("System." ++ type.name) = type.isValue := by
  have hafter : Text.after? ShortName.rootLead ("System." ++ type.name) = some type.name :=
    Text.after?_eq_some_iff.mpr rfl
  have hvalue : context.valueTypes.contains ("System." ++ type.name) = false := by
    simpa using hplain.valueTypes _ (.system h)
  rw [namesValue, hvalue, hafter]
  exact ShortName.builtIn_isSystemValue type h

theorem denotePath_system {context : Context} (hplain : context.Plain) {type : BuiltIn}
    (h : type ∈ builtIns) :
    denotePath context ("System." ++ type.name) []
      = nominal type.name ("System." ++ type.name) type.isValue [] := by
  have hparam := hplain.typeParams _ (.system h)
  simp only [denotePath, hparam, if_false, ShortName.builtIn_noKeyword type h]
  rw [ShortName.builtIn_lastPart type h, namesValue_system hplain h]

theorem denotePath_wrapper {context : Context} (hplain : context.Plain) {path : String}
    (h : IsWrapper path) (inner : TypeFacts Unit) :
    denotePath context path [inner] = nullable inner := by
  have hparam := hplain.typeParams _ (.wrapper h)
  simp only [denotePath, hparam, if_false, ofKeyword?_wrapper h]
  exact if_pos h

theorem labelsOf_default (front : List WrittenElement) (type : Written)
    (back : List WrittenElement) :
    labelsOf (front ++ .mk type (some (defaultLabel front.length)) :: back)
      = labelsOf (front ++ .mk type none :: back) := by
  simp [labelsOf, List.mapIdx_append, List.mapIdx_cons, WrittenElement.label]

theorem map_label_element (front : List WrittenElement) (type other : Written)
    (label : Option String) (back : List WrittenElement) :
    (front ++ .mk type label :: back).map WrittenElement.label
      = (front ++ .mk other label :: back).map WrittenElement.label := by
  simp [WrittenElement.label]

/-- A tree and its respelling denote the same type. -/
theorem Respelled.denote_eq {context : Context} (hplain : context.Plain) {type other : Written}
    (h : Respelled context type other) : denote context type = denote context other := by
  induction h with
  | refl => rfl
  | symm _ ih => exact ih.symm
  | trans _ _ ih ih' => exact ih.trans ih'
  | keyword marked hmem =>
      simp only [denote, denoteAll]
      rw [denotePath_keyword hplain hmem, denotePath_system hplain hmem]
  | @wrapper path type hpath hmarked hvalue _ =>
      have hwrapper : denote context (.named path [type] false)
          = denotePath context path [denote context type] := rfl
      rw [denote_withMark hmarked, hwrapper, denotePath_wrapper hplain hpath, denoteMark,
        if_pos hvalue]
  | label front type back marked _ =>
      simp [denote, labelsOf_default, WrittenElement.type]
  | argument path front back marked _ ih => simp [denote, ih]
  | @element type other front label back marked _ ih =>
      have hlabels := labelsOf_congr (map_label_element front type other label back)
      simp [denote, hlabels, WrittenElement.type, ih]

/-! ## Whether the tree is refused -/

theorem violation_withMark {context : Context} {type : Written} (hmarked : type.isMarked = false)
    (hannotated : (denote context type).facts.annotated = false) :
    Violation context type.withMark ↔ Violation context type := by
  cases type with
  | named path args marked =>
      obtain rfl : marked = false := hmarked
      have hannotated : (denotePath context path (args.map (denote context))).facts.annotated
          = false := by
        simpa [denote] using hannotated
      rw [Written.withMark, violation_named_iff, violation_named_iff, hannotated]
      simp
  | tuple elements marked =>
      obtain rfl : marked = false := hmarked
      rw [Written.withMark, violation_tuple_iff, violation_tuple_iff]

theorem violation_path {context : Context} {path : String} (hpath : ¬ IsWrapper path)
    (marked : Bool) :
    Violation context (.named path [] marked) ↔
      marked = true ∧ (denotePath context path []).facts.annotated = true := by
  rw [violation_named_iff, List.map_nil, misapplied_nil_iff]
  constructor
  · rintro (⟨_, hmem, _⟩ | ⟨_, h⟩ | h)
    · cases hmem
    · exact absurd h hpath
    · exact h
  · intro h
    exact Or.inr (Or.inr h)

theorem violation_wrapper {context : Context} (hplain : context.Plain) {path : String}
    {type : Written} (hpath : IsWrapper path) (hvalue : (denote context type).facts.value = true)
    (hannotated : (denote context type).facts.annotated = false) :
    Violation context (.named path [type] false) ↔ Violation context type := by
  have hparam := hplain.typeParams _ (.wrapper hpath)
  rw [violation_named_iff, List.map_singleton, misapplied_wrapper_iff hparam hpath]
  constructor
  · rintro (⟨arg, hmem, h⟩ | h | ⟨h, _⟩)
    · exact List.mem_singleton.mp hmem ▸ h
    · exact absurd ⟨_, rfl, hvalue, hannotated⟩ h
    · cases h
  · intro h
    exact Or.inl ⟨type, List.mem_singleton_self type, h⟩

theorem exists_mem_middle {α : Type} {P : α → Prop} (front : List α) (item : α)
    (back : List α) :
    (∃ other ∈ front ++ item :: back, P other) ↔
      (∃ other ∈ front, P other) ∨ P item ∨ ∃ other ∈ back, P other := by
  simp only [List.mem_append, List.mem_cons, or_and_right, exists_or, exists_eq_left]

/-- A tree is refused exactly when its respelling is. -/
theorem Respelled.violation_iff {context : Context} (hplain : context.Plain)
    {type other : Written} (h : Respelled context type other) :
    Violation context type ↔ Violation context other := by
  induction h with
  | refl => exact Iff.rfl
  | symm _ ih => exact ih.symm
  | trans _ _ ih ih' => exact ih.trans ih'
  | @keyword type marked hmem =>
      have hkeyword : ¬ IsWrapper type.keyword := by
        intro hwrapper
        have hnone := ofKeyword?_wrapper hwrapper
        rw [ShortName.builtIn_ofKeyword type hmem] at hnone
        cases hnone
      rw [violation_path hkeyword, violation_path (builtIn_notWrapper type hmem),
        denotePath_keyword hplain hmem, denotePath_system hplain hmem]
  | wrapper hpath hmarked hvalue hannotated =>
      rw [violation_withMark hmarked hannotated, violation_wrapper hplain hpath hvalue hannotated]
  | label front type back marked hbound =>
      have hlabels : RejectsLabel [] (front ++ .mk type none :: back) ↔ RejectsLabel []
          (front ++ .mk type (some (defaultLabel front.length)) :: back) := by
        rw [rejectsLabel_iff hbound, rejectsLabel_iff (by simpa using hbound), labelsOf_default]
      rw [violation_tuple_iff, violation_tuple_iff, hlabels, exists_mem_middle, exists_mem_middle]
      exact Iff.rfl
  | argument path front back marked h ih =>
      rw [violation_named_iff, violation_named_iff, exists_mem_middle, exists_mem_middle, ih]
      simp only [List.map_append, List.map_cons, h.denote_eq hplain]
  | @element type other front label back marked _ ih =>
      have hlabels := rejectsLabel_congr (map_label_element front type other label back)
      have htypes : Violation context (WrittenElement.mk type label).type ↔
          Violation context (WrittenElement.mk other label).type := ih
      rw [violation_tuple_iff, violation_tuple_iff, hlabels, exists_mem_middle, exists_mem_middle,
        htypes]

/-! ## Whether the tree is derivable -/

theorem derivable_withMark {type : Written} : Derivable type.withMark ↔ Derivable type := by
  cases type with
  | named path args marked =>
      rw [Written.withMark, derivable_named_iff, derivable_named_iff]
  | tuple elements marked =>
      rw [Written.withMark, derivable_tuple_iff, derivable_tuple_iff]

theorem forall_mem_middle {α : Type} {P : α → Prop} (front : List α) (item : α)
    (back : List α) :
    (∀ other ∈ front ++ item :: back, P other) ↔
      (∀ other ∈ front, P other) ∧ P item ∧ ∀ other ∈ back, P other := by
  rw [List.forall_mem_append, List.forall_mem_cons]

/-- A tree is derivable exactly when its respelling is. -/
theorem Respelled.derivable_iff {context : Context} {type other : Written}
    (h : Respelled context type other) : Derivable type ↔ Derivable other := by
  induction h with
  | refl => exact Iff.rfl
  | symm _ ih => exact ih.symm
  | trans _ _ ih ih' => exact ih.trans ih'
  | keyword marked _ => rw [derivable_named_iff, derivable_named_iff]
  | wrapper _ _ _ _ =>
      rw [derivable_withMark, derivable_named_iff, List.forall_mem_singleton]
  | label front type back marked _ =>
      have hlabel : DerivableElement (.mk type (some (defaultLabel front.length))) ↔
          DerivableElement (.mk type none) := by
        simp [DerivableElement, WrittenElement.type, WrittenElement.label,
          dot_not_mem_defaultLabel]
      rw [derivable_tuple_iff, derivable_tuple_iff, forall_mem_middle, forall_mem_middle, hlabel]
      simp
  | argument path front back marked _ ih =>
      rw [derivable_named_iff, derivable_named_iff, forall_mem_middle, forall_mem_middle, ih]
  | @element type other front label back marked _ ih =>
      have htype : DerivableElement (.mk type label) ↔ DerivableElement (.mk other label) :=
        and_congr ih Iff.rfl
      rw [derivable_tuple_iff, derivable_tuple_iff, forall_mem_middle, forall_mem_middle, htype]
      simp

end Signature

/-! ## Spelling independence -/

theorem Alternatives.ofUnion?_bare {α : Type} (unionName : String) (type : TypeFacts α) :
    ofUnion? unionName type.bare = ofUnion? unionName type := by
  simp [ofUnion?, Function.comp_def, TypeFacts.toNameTree_bare]

namespace Signature

/-- A text that is read is the row of a tree, of one only (`derives_unique`).  Every text
that spells the tree in another way is read as well, as the same type up to the places: the
name tree, its hash and the alternatives of a union are the same. -/
theorem read_respelled {context : Context} (hplain : context.Plain) {source : String}
    {signature : Signature} (hread : read context source = .ok signature) :
    ∃ written, Derivable written ∧ Cut source.toList written.row ∧
      ∀ (other : String) (written' : Written), Respelled context written written' →
        Cut other.toList written'.row → WithinDepth context.maxDepth other.toList →
        ∃ signature', read context other = .ok signature' ∧ signature'.bare = signature.bare ∧
          signature'.toNameTree = signature.toNameTree ∧
          signature'.toNameTree.identityHash = signature.toNameTree.identityHash ∧
          ∀ unionName, Alternatives.ofUnion? unionName signature'
            = Alternatives.ofUnion? unionName signature := by
  obtain ⟨-, lexemes, written, hcut, hderives, hsound, htype⟩ := denotes_of_read hread
  have hderivable : Derivable written := ⟨lexemes, hderives⟩
  refine ⟨written, hderivable, hderives.eq_row ▸ hcut, ?_⟩
  intro other written' hrespelled hother hdepth
  have hderivable' := hrespelled.derivable_iff.mp hderivable
  have hsound' : ¬ Violation context written' := by
    intro h
    exact hsound ((hrespelled.violation_iff hplain).mpr h)
  obtain ⟨signature', hread', htype'⟩ :=
    read_of_denotes hdepth hother hderivable'.row hsound'
  have hbare : signature'.bare = signature.bare := by
    rw [htype, htype', hrespelled.denote_eq hplain]
  have htree : signature'.toNameTree = signature.toNameTree := by
    rw [← TypeFacts.toNameTree_bare, hbare, TypeFacts.toNameTree_bare]
  refine ⟨signature', hread', hbare, htree, congrArg _ htree, ?_⟩
  intro unionName
  rw [← Alternatives.ofUnion?_bare, hbare, Alternatives.ofUnion?_bare]

/-- A nullable number with a label left out, and both spelled out, with blanks. -/
theorem read_respelled_tuple :
    ∃ signature signature', read {} "(int?, T)" = .ok signature ∧
      read {} "( System.Nullable<System.Int32>, T Item2 )" = .ok signature' ∧
      signature'.bare = signature.bare := by
  let param : Written := .named "T" [] false
  let written : Written := .tuple [.mk (.named "int" [] true) none, .mk param none] false
  have hplain : Context.Plain {} :=
    ⟨fun _ _ hmem => List.not_mem_nil hmem, fun _ _ hmem => List.not_mem_nil hmem⟩
  have hderivable : Derivable written := ⟨_, .tuple false
    (.more (.mk (.path "int" true) (by simp)) (.one (.mk (.path "T" false) (by simp)))) (by decide)⟩
  have hkeyword : Respelled {} (.named "int" [] false) (.named "System.Int32" [] false) :=
    @Respelled.keyword {} ⟨"Int32", "int", true⟩ false List.mem_cons_self
  have hwrapper : Respelled {} (.named "int" [] true)
      (.named "System.Nullable" [.named "int" [] false] false) :=
    @Respelled.wrapper {} _ (.named "int" [] false) (Or.inr rfl) rfl (by decide) (by decide)
  have hfirst := hwrapper.trans (.argument "System.Nullable" [] [] false hkeyword)
  have hrespelled := (Respelled.element [] none [.mk param none] false hfirst).trans
    (.label [_] param [] false (by decide))
  have hsource : Cut "(int?, T)".toList written.row := cut_iff.mpr (by decide +kernel)
  let other : Written := .tuple [.mk (.named "System.Nullable"
    [.named "System.Int32" [] false] false) none, .mk param (some "Item2")] false
  have hother : Cut "( System.Nullable<System.Int32>, T Item2 )".toList other.row :=
    cut_iff.mpr (by decide +kernel)
  have hdepth : WithinDepth 64 "( System.Nullable<System.Int32>, T Item2 )".toList :=
    depthGuard_eq_ok_iff.mp (by decide +kernel)
  have hreads : readsAs {} "(int?, T)" (fun _ => true) = true := by decide +kernel
  obtain ⟨signature, hread, -⟩ := exists_of_readsAs hreads
  obtain ⟨own, hown, hcut, hall⟩ := read_respelled hplain hread
  obtain rfl : own = written := derives_unique hcut hown.row hsource hderivable.row
  obtain ⟨signature', hread', hbare, -⟩ := hall _ other hrespelled hother hdepth
  exact ⟨signature, signature', hread, hread', hbare⟩

end Signature

end TypeNaming
