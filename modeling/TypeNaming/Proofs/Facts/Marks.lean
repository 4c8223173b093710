/-
# Marks say what is in the tree

The marks of a node are worked out once, when the node is made, from the marks of its
children; `nullableReference` and `withLabel` change a node after that, and a tree is used
in other trees before and after.  Whatever the order, the marks stay true: `Made` lists the
ways of making a tree, and the marks of a tree that is made say of all its nodes whether one
is nullable and whether a tuple has an element with a label (`marks_of_made`).

A made tree is `Summarized`: each mark is that of the root for its own sake, or one of a
child.  That is a statement about one node and its children, so each way of making a tree
needs only to be looked at where it changes something, and going down to all nodes is done
once (`Summarized.nullable_iff`, `Summarized.labelled_iff`).

A label other than the default one is another matter.  A tuple that a host reports gets its
labels when one of them is such a label, and then gets them all; so in the tree of a host a
labelled tuple has one (`ownLabels_toNameTree`).  A tuple made by hand may have default labels
alone.
-/
import TypeNaming.NameTree.Shorthand
import TypeNaming.Proofs.Facts.Host
import TypeNaming.Proofs.RoundTrip.NormalForm

namespace TypeNaming

namespace NameTree

/-! ## Ways of making a tree -/

/-- The trees that can be made, in any order of steps. -/
inductive Made : NameTree → Prop
  | make (name qualified : String) (kind : Kind) {children : List NameTree} :
      (∀ child ∈ children, Made child) → Made (make name qualified kind children)
  | plain (name qualified : String) : Made (plain name qualified)
  | generic (name qualified : String) {arguments : List NameTree} :
      (∀ arg ∈ arguments, Made arg) → Made (generic name qualified arguments)
  | tuple (qualified : String) {elements : List NameTree} :
      (∀ element ∈ elements, Made element) → Made (tuple qualified elements)
  | nullableValue {inner : NameTree} : Made inner → Made (nullableValue inner)
  | nullableReference {t : NameTree} : Made t → Made t.nullableReference
  | withLabel (label : String) {t : NameTree} : Made t → Made (t.withLabel label)
  | ofHost (type : HostType) : Made type.toNameTree
  | ofElement (label : String) (type : HostType) : Made (type.toElementTree label)
  | simple (short : String) (nullable : Bool) : Made (Shorthand.simple short nullable)
  | shortGeneric (name : String) {arguments : List NameTree} (nullable : Bool) :
      (∀ arg ∈ arguments, Made arg) → Made (Shorthand.generic name arguments nullable)
  | shortTuple {elements : List NameTree} (nullable : Bool) :
      (∀ element ∈ elements, Made element) → Made (Shorthand.tuple elements nullable)

/-! ## One node -/

/-- A mark of some trees together is set when it is set for one of them. -/
theorem mark_marksOf (mark : Marks → Bool) (hnone : mark Marks.none = false)
    (hunion : ∀ marks others, mark (marks.union others) = (mark marks || mark others))
    (ts : List NameTree) : mark (marksOf ts) = ts.any fun t => mark t.marks := by
  induction ts with
  | nil => exact hnone
  | cons t ts ih =>
      rw [List.any_cons, ← ih]
      exact hunion t.marks (marksOf ts)

theorem nullable_make (name qualified : String) (kind : Kind) (children : List NameTree) :
    (make name qualified kind children).marks.nullable
      = (kind.isNullable || children.any (·.marks.nullable)) := by
  rw [← mark_marksOf Marks.nullable rfl fun _ _ => rfl]
  rfl

theorem labelled_make (name qualified : String) (kind : Kind) (children : List NameTree) :
    (make name qualified kind children).marks.labelled
      = (kind == .tuple && children.any (·.label.isSome) || children.any (·.marks.labelled)) := by
  rw [← mark_marksOf Marks.labelled rfl fun _ _ => rfl]
  rfl

theorem dropped_make (name qualified : String) (kind : Kind) (children : List NameTree) :
    (make name qualified kind children).marks.dropped = children.any (·.marks.dropped) := by
  rw [← mark_marksOf Marks.dropped rfl fun _ _ => rfl]
  exact Bool.false_or _

/-- The node is a tuple and one of its elements has a label. -/
def IsLabelled (t : NameTree) : Prop :=
  t.kind = .tuple ∧ ∃ child ∈ t.children, child.label.isSome = true

/-- The node is a tuple and one of its elements has a label other than the default one. -/
def HasOwnLabel (t : NameTree) : Prop :=
  t.kind = .tuple ∧ ∃ child ∈ t.children, ∃ label, child.label = some label ∧
    ShortName.isDefaultLabel label = false

theorem HasOwnLabel.isLabelled {t : NameTree} (h : t.HasOwnLabel) : t.IsLabelled := by
  obtain ⟨htuple, child, hchild, label, hlabel, -⟩ := h
  exact ⟨htuple, child, hchild, by rw [hlabel]; rfl⟩

/-- A mark is set for the sake of the node itself or of a child. -/
structure Sums (info : NodeInfo) (children : List NameTree) : Prop where
  nullable : info.marks.nullable = true ↔
    info.kind.isNullable = true ∨ ∃ child ∈ children, child.marks.nullable = true
  labelled : info.marks.labelled = true ↔
    IsLabelled (.node info children) ∨ ∃ child ∈ children, child.marks.labelled = true

/-- The marks sum up what is below them, in all of the tree. -/
abbrev Summarized : NameTree → Prop := Everywhere Sums

theorem sums_make (name qualified : String) (kind : Kind) (children : List NameTree) :
    Sums (make name qualified kind children).info children where
  nullable := by
    show (make name qualified kind children).marks.nullable = true ↔ _
    rw [nullable_make, Bool.or_eq_true, List.any_eq_true]
    rfl
  labelled := by
    show (make name qualified kind children).marks.labelled = true ↔ _
    rw [labelled_make, Bool.or_eq_true, Bool.and_eq_true, beq_iff_eq, List.any_eq_true,
      List.any_eq_true]
    rfl

theorem summarized_make (name qualified : String) (kind : Kind) {children : List NameTree}
    (h : ∀ child ∈ children, Summarized child) :
    Summarized (make name qualified kind children) :=
  .node (sums_make name qualified kind children) h

theorem isNullable_asNullableReference (kind : Kind) :
    kind.asNullableReference.isNullable
      = (kind.isNullable || kind.asNullableReference.onReference) := by
  rcases kind with (_ | _) | (_ | _) | _ | _ <;> rfl

theorem asNullableReference_eq_tuple {kind : Kind} :
    kind.asNullableReference = .tuple ↔ kind = .tuple := by
  cases kind <;> simp [Kind.asNullableReference]

theorem Summarized.nullableReference {t : NameTree} (h : Summarized t) :
    Summarized t.nullableReference := by
  cases h with
  | @node info children hsums hchildren =>
      refine .node ⟨?_, ?_⟩ hchildren
      · simp only [Bool.or_eq_true, hsums.nullable, isNullable_asNullableReference]
        exact or_right_comm
      · have htuple : IsLabelled (NameTree.node info children).nullableReference ↔
            IsLabelled (.node info children) :=
          and_congr_left' asNullableReference_eq_tuple
        exact hsums.labelled.trans (or_congr_left htuple.symm)

/-! ## What does not depend on the label of the node -/

/-- Neither the label of the node nor the mark for what was left out matters. -/
def Unlabelled (P : NodeInfo → List NameTree → Prop) : Prop :=
  ∀ info children label dropped, P info children →
    P { info with label := label, marks := { info.marks with dropped := dropped } } children

theorem Everywhere.withLabel {P : NodeInfo → List NameTree → Prop} (hP : Unlabelled P)
    {t : NameTree} (h : t.Everywhere P) (label : String) : (t.withLabel label).Everywhere P := by
  cases h with
  | node hown hchildren => exact .node (hP _ _ (some label) _ hown) hchildren

theorem Everywhere.markDropped {P : NodeInfo → List NameTree → Prop} (hP : Unlabelled P)
    {t : NameTree} (h : t.Everywhere P) (dropped : Bool) :
    (t.markDropped dropped).Everywhere P := by
  cases h with
  | node hown hchildren => exact .node (hP _ _ _ _ hown) hchildren

theorem unlabelled_sums : Unlabelled Sums := fun _ _ _ _ h => ⟨h.nullable, h.labelled⟩

end NameTree

/-! ## Trees of a host -/

namespace HostType

open NameTree (Everywhere Unlabelled Summarized HasOwnLabel IsLabelled)

theorem label_toNameTree (type : HostType) : type.toNameTree.label = none := by
  cases type
  rw [toNameTree]
  split
  · rfl
  · split
    · split <;> rfl
    · split <;> rfl

theorem label_of_mem_namedTrees {args : List HostType} {t : NameTree} (h : t ∈ namedTrees args) :
    t.label = none := by
  induction args with
  | nil => simp [namedTrees] at h
  | cons arg args ih =>
      rw [namedTrees] at h
      split at h
      · rcases List.mem_cons.mp h with rfl | h
        · exact arg.label_toNameTree
        · exact ih h
      · exact ih h

theorem exists_own_elementTree {elements : List HostElement} (h : hasOwnLabels elements = true) :
    ∃ t ∈ elementTrees elements, ∃ label, t.label = some label ∧
      ShortName.isDefaultLabel label = false := by
  induction elements with
  | nil => cases h
  | cons element elements ih =>
      obtain ⟨label, type⟩ := element
      rw [elementTrees]
      by_cases hlabel : ShortName.isDefaultLabel label
      · have hothers : hasOwnLabels elements = true := by
          simpa [hasOwnLabels, HostElement.label, hlabel] using h
        obtain ⟨t, ht, hown⟩ := ih hothers
        exact ⟨t, List.mem_cons_of_mem _ ht, hown⟩
      · refine ⟨_, List.mem_cons_self, label, ?_, Bool.eq_false_iff.mpr hlabel⟩
        cases type.toNameTree
        rfl

/-- Either no child has a label, or it is a tuple and some child has one of its own. -/
def AllOrNothing (kind : Kind) (children : List NameTree) : Prop :=
  (∀ child ∈ children, child.label = none) ∨
    kind = .tuple ∧ ∃ child ∈ children, ∃ label, child.label = some label ∧
      ShortName.isDefaultLabel label = false

mutual

/-- What holds of a node when it is made, with all its labels or with none, holds in all of
the tree of a host. -/
theorem everywhere_toNameTree {P : NodeInfo → List NameTree → Prop} (hP : Unlabelled P)
    (hmake : ∀ name qualified {kind children}, AllOrNothing kind children →
      P (NameTree.make name qualified kind children).info children) :
    ∀ type : HostType, type.toNameTree.Everywhere P
  | .mk name qualified named value annotated tuple args elements => by
      have hnamed := everywhere_namedTrees hP hmake args
      have helements := everywhere_elementTrees hP hmake elements
      have hbare : ∀ kind, AllOrNothing kind (namedTrees args) := fun _ =>
        .inl fun _ ht => label_of_mem_namedTrees ht
      have hfirst : ∀ t ∈ (namedTrees args).head?.toList, t ∈ namedTrees args := fun t ht =>
        List.mem_of_mem_head? (by simpa using ht)
      rw [toNameTree]
      split
      · have hchild : AllOrNothing .nullableValue (namedTrees args).head?.toList :=
          .inl fun t ht => label_of_mem_namedTrees (hfirst t ht)
        exact Everywhere.markDropped hP
          (.node (hmake _ _ hchild) fun t ht => hnamed t (hfirst t ht)) _
      · split
        · split
          · next hown =>
              exact .node (hmake _ _ (.inr ⟨rfl, exists_own_elementTree hown⟩)) helements
          · exact Everywhere.markDropped hP (.node (hmake _ _ (hbare _)) hnamed) _
        · split
          · exact .node (hmake _ _ (.inl (List.forall_mem_nil _))) (List.forall_mem_nil _)
          · exact Everywhere.markDropped hP (.node (hmake _ _ (hbare _)) hnamed) _

theorem everywhere_namedTrees {P : NodeInfo → List NameTree → Prop} (hP : Unlabelled P)
    (hmake : ∀ name qualified {kind children}, AllOrNothing kind children →
      P (NameTree.make name qualified kind children).info children) :
    ∀ args : List HostType, ∀ t ∈ namedTrees args, t.Everywhere P
  | [] => by simp [namedTrees]
  | arg :: args => by
      have hothers := everywhere_namedTrees hP hmake args
      rw [namedTrees]
      split
      · exact List.forall_mem_cons.mpr ⟨everywhere_toNameTree hP hmake arg, hothers⟩
      · exact hothers

theorem everywhere_elementTrees {P : NodeInfo → List NameTree → Prop} (hP : Unlabelled P)
    (hmake : ∀ name qualified {kind children}, AllOrNothing kind children →
      P (NameTree.make name qualified kind children).info children) :
    ∀ elements : List HostElement, ∀ t ∈ elementTrees elements, t.Everywhere P
  | [] => by simp [elementTrees]
  | .mk label type :: elements => by
      rw [elementTrees]
      exact List.forall_mem_cons.mpr ⟨(everywhere_toNameTree hP hmake type).withLabel hP label,
        everywhere_elementTrees hP hmake elements⟩

end

theorem summarized_toNameTree (type : HostType) : Summarized type.toNameTree :=
  type.everywhere_toNameTree NameTree.unlabelled_sums fun name qualified _ _ _ =>
    NameTree.sums_make name qualified _ _

/-- A tuple of a host that has labels has one of its own. -/
def Purposeful (info : NodeInfo) (children : List NameTree) : Prop :=
  IsLabelled (.node info children) → HasOwnLabel (.node info children)

theorem unlabelled_purposeful : Unlabelled Purposeful := fun _ _ _ _ h => h

theorem purposeful_toNameTree (type : HostType) : type.toNameTree.Everywhere Purposeful := by
  refine type.everywhere_toNameTree unlabelled_purposeful fun name qualified kind children h => ?_
  rintro ⟨htuple, child, hchild, hlabel⟩
  rcases h with hbare | ⟨-, hown⟩
  · have hnone : child.label = none := hbare child hchild
    rw [hnone] at hlabel
    cases hlabel
  · exact ⟨htuple, hown⟩

end HostType

namespace NameTree

theorem summarized_simple (short : String) (nullable : Bool) :
    Summarized (Shorthand.simple short nullable) := by
  have hplain : ∀ name qualified, Summarized (plain name qualified) := fun name qualified =>
    summarized_make name qualified _ (List.forall_mem_nil _)
  unfold Shorthand.simple
  extract_lets name tree
  split
  · exact hplain _ _
  · split
    · exact summarized_make _ _ _ (List.forall_mem_singleton.mpr (hplain _ _))
    · exact (hplain _ _).nullableReference

/-- What is made is summarized, whatever the steps. -/
theorem Made.summarized {t : NameTree} (h : Made t) : Summarized t := by
  induction h with
  | make name qualified kind _ ih => exact summarized_make name qualified kind ih
  | plain name qualified => exact summarized_make _ _ _ (List.forall_mem_nil _)
  | generic name qualified _ ih => exact summarized_make _ _ _ ih
  | tuple qualified _ ih => exact summarized_make _ _ _ ih
  | nullableValue _ ih => exact summarized_make _ _ _ (List.forall_mem_singleton.mpr ih)
  | nullableReference _ ih => exact ih.nullableReference
  | withLabel label _ ih => exact ih.withLabel unlabelled_sums label
  | ofHost type => exact type.summarized_toNameTree
  | ofElement label type => exact type.summarized_toNameTree.withLabel unlabelled_sums label
  | simple short nullable => exact summarized_simple short nullable
  | shortGeneric name nullable _ ih =>
      have htree := summarized_make name (Shorthand.genericQualified name) (.generic false) ih
      unfold Shorthand.generic
      extract_lets tree
      split
      · exact htree.nullableReference
      · exact htree
  | @shortTuple elements nullable _ ih =>
      have htree := summarized_make "ValueTuple"
        ("(" ++ ", ".intercalate (elements.map qualified) ++ ")") .tuple ih
      unfold Shorthand.tuple
      extract_lets tree
      split
      · exact summarized_make _ _ _ (List.forall_mem_singleton.mpr htree)
      · exact htree

/-! ## All nodes -/

/-- Some node of the tree is of a sort when the root is, or some node of a child. -/
theorem exists_node_iff {P : NameTree → Prop} {info : NodeInfo} {children : List NameTree} :
    (∃ node ∈ (NameTree.node info children).nodes, P node) ↔
      P (.node info children) ∨ ∃ child ∈ children, ∃ node ∈ child.nodes, P node := by
  simp only [nodes, nodesOf_eq_flatMap, List.mem_cons, List.mem_flatMap, exists_eq_or_imp]
  refine or_congr_right ⟨?_, ?_⟩
  · rintro ⟨node, ⟨child, hchild, hnode⟩, h⟩
    exact ⟨child, hchild, node, hnode, h⟩
  · rintro ⟨child, hchild, node, hnode, h⟩
    exact ⟨node, ⟨child, hchild, hnode⟩, h⟩

theorem Summarized.nullable_iff {t : NameTree} (h : Summarized t) :
    t.marks.nullable = true ↔ ∃ node ∈ t.nodes, node.kind.isNullable = true := by
  induction h with
  | node hsums _ ih =>
      rw [exists_node_iff]
      refine hsums.nullable.trans (or_congr_right ?_)
      exact exists_congr fun child => and_congr_right (ih child)

theorem Summarized.labelled_iff {t : NameTree} (h : Summarized t) :
    t.marks.labelled = true ↔ ∃ node ∈ t.nodes, node.IsLabelled := by
  induction h with
  | node hsums _ ih =>
      rw [exists_node_iff]
      refine hsums.labelled.trans (or_congr_right ?_)
      exact exists_congr fun child => and_congr_right (ih child)

theorem exists_ownLabel_iff {t : NameTree} (h : t.Everywhere HostType.Purposeful) :
    (∃ node ∈ t.nodes, node.IsLabelled) ↔ ∃ node ∈ t.nodes, node.HasOwnLabel := by
  induction h with
  | node hown _ ih =>
      rw [exists_node_iff, exists_node_iff]
      refine or_congr ⟨hown, HasOwnLabel.isLabelled⟩ ?_
      exact exists_congr fun child => and_congr_right (ih child)

/-- The tree of a type that a host reports, by itself or as an element. -/
inductive OfHost : NameTree → Prop
  | type (type : HostType) : OfHost type.toNameTree
  | element (label : String) (type : HostType) : OfHost (type.toElementTree label)

/-- The trees of types that are known by their facts are trees of a host. -/
theorem ofHost_toNameTree {α : Type} (type : TypeFacts α) : OfHost type.toNameTree :=
  TypeFacts.toNameTree_host type ▸ .type type.host

theorem OfHost.purposeful {t : NameTree} (h : OfHost t) : t.Everywhere HostType.Purposeful := by
  cases h with
  | type type => exact type.purposeful_toNameTree
  | element label type =>
      exact type.purposeful_toNameTree.withLabel HostType.unlabelled_purposeful label

/-- The marks of a tree are true of all its nodes, however it was made; and a tree of a host
is marked as labelled for the sake of a label that is not a default one. -/
theorem marks_of_made {t : NameTree} (h : Made t) :
    (t.marks.nullable = true ↔ ∃ node ∈ t.nodes, node.kind.isNullable = true) ∧
      (t.marks.labelled = true ↔ ∃ node ∈ t.nodes, node.IsLabelled) ∧
      (OfHost t → (t.marks.labelled = true ↔ ∃ node ∈ t.nodes, node.HasOwnLabel)) := by
  have hlabelled := h.summarized.labelled_iff
  exact ⟨h.summarized.nullable_iff, hlabelled, fun hhost =>
    hlabelled.trans (exists_ownLabel_iff hhost.purposeful)⟩

/-- A labelled tuple with a nullable reference, as an element of another tuple. -/
theorem marks_of_made_element :
    let number := HostType.mk "Int32" "System.Int32" true true false false [] []
    let text := HostType.mk "String" "System.String" true false true false [] []
    let pair := HostType.mk "ValueTuple" "(System.Int32, System.String)" true true false true
      [number, text] [.mk "id" number, .mk "Item2" text]
    let t := pair.toElementTree "entry"
    (∃ node ∈ t.nodes, node.kind.isNullable = true) ∧ ∃ node ∈ t.nodes, node.HasOwnLabel := by
  intro number text pair t
  have hmarks : t.marks = ⟨true, true, false⟩ := by decide +kernel +revert
  obtain ⟨hnullable, -, hown⟩ := marks_of_made (Made.ofElement "entry" pair)
  exact ⟨hnullable.mp (congrArg Marks.nullable hmarks),
    (hown (.element "entry" pair)).mp (congrArg Marks.labelled hmarks)⟩

end NameTree

end TypeNaming
