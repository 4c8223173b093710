/-
# What a tree leaves out

The tree of a type has no node for an argument that is an open type parameter, unless that
is the element of a tuple with labels of its own.  The root is then marked, so that one look
at it tells whether the tree is the whole type.  This module says in which sense it does.

The tree and the type are gone through together: `Visits` pairs a node with the part of the
type that it was made from, and goes on to the children and to the arguments that are kept
(`TypeFacts.kept`), position by position.

  * The mark is not set exactly when the tree mirrors the type, node by node
    (`dropped_eq_false_iff`).
  * It is set exactly when some part that is visited has an argument that is not kept
    (`dropped_iff`).  In a type that is read, that argument is an open type parameter.

Both come from one equation: the tree of a part is made from the trees of the arguments that
are kept, and marked when that is not all of them (`Coherent.toNameTree_eq`).
-/
import TypeNaming.Proofs.Facts.Coherent
import TypeNaming.Proofs.Facts.Marks

namespace TypeNaming

namespace TypeFacts

variable {α : Type}

/-! ## One node -/

/-- The type is a tuple with labels of its own, which keeps all its elements. -/
def keepsAll (type : TypeFacts α) : Bool :=
  !(type.facts.annotated && type.facts.value) && type.facts.tuple
    && hasOwnLabels type.facts type.args

/-- The arguments that the tree has a node for. -/
def kept (type : TypeFacts α) : List (TypeFacts α) :=
  if type.keepsAll then type.args else type.args.filter (·.facts.named)

/-- Some argument is left out. -/
def drops (type : TypeFacts α) : Bool :=
  !type.keepsAll && hasUnnamed type.args

theorem namedTrees_eq_map (args : List (TypeFacts α)) :
    namedTrees args = (args.filter (·.facts.named)).map toNameTree := by
  induction args with
  | nil => rfl
  | cons arg args ih =>
      rw [namedTrees, List.filter_cons, ih]
      split <;> rfl

theorem kept_sublist (type : TypeFacts α) : type.kept.Sublist type.args := by
  unfold kept
  split
  · exact List.Sublist.refl _
  · exact List.filter_sublist

theorem kept_of_keepsAll {type : TypeFacts α} (h : type.keepsAll = true) :
    type.kept = type.args :=
  if_pos h

theorem kept_of_not_drops {type : TypeFacts α} (h : type.drops = false) :
    type.kept = type.args := by
  unfold kept
  split
  · rfl
  · next hkeeps =>
      have hnamed : hasUnnamed type.args = false := by simpa [drops, hkeeps] using h
      refine List.filter_eq_self.mpr fun arg hmem => ?_
      simpa using List.any_eq_false.mp hnamed arg hmem

/-- What is left out is not a type of its own. -/
theorem exists_of_drops {type : TypeFacts α} (h : type.drops = true) :
    type.keepsAll = false ∧ ∃ arg ∈ type.args, arg.facts.named = false ∧ arg ∉ type.kept := by
  obtain ⟨hkeeps, hunnamed⟩ := Bool.and_eq_true_iff.mp h
  have hkeeps : type.keepsAll = false := by simpa using hkeeps
  obtain ⟨arg, hmem, hnamed⟩ := List.any_eq_true.mp hunnamed
  have hnamed : arg.facts.named = false := by simpa using hnamed
  refine ⟨hkeeps, arg, hmem, hnamed, fun hkept => ?_⟩
  rw [kept, hkeeps, if_neg Bool.false_ne_true] at hkept
  have := (List.mem_filter.mp hkept).2
  rw [hnamed] at this
  cases this

/-- With an argument left out the tree is shorter than the type. -/
theorem not_drops_of_length {type : TypeFacts α} (h : type.kept.length = type.args.length) :
    type.drops = false := by
  refine Bool.eq_false_iff.mpr fun hdrops => ?_
  obtain ⟨-, arg, hmem, -, hkept⟩ := exists_of_drops hdrops
  rw [type.kept_sublist.eq_of_length h] at hkept
  exact hkept hmem

theorem markDropped_false (t : NameTree) : t.markDropped false = t := by
  cases t
  simp [NameTree.markDropped]

theorem forall₂_isTree_map (args : List (TypeFacts α)) :
    List.Forall₂ (fun child arg => arg.IsTree child) (args.map toNameTree) args :=
  List.forall₂_map_left_iff.mpr (List.forall₂_same.mpr fun _ _ => Or.inl rfl)

theorem forall₂_isTree_elementTrees : ∀ {labels : List String} {args : List (TypeFacts α)},
    labels.length = args.length →
      List.Forall₂ (fun child arg => arg.IsTree child) (elementTrees labels args) args
  | [], [], _ => .nil
  | label :: _, _ :: _, h =>
      .cons (Or.inr ⟨label, rfl⟩) (forall₂_isTree_elementTrees (Nat.succ.inj h))

/-- The tree of a part is made from the trees of the arguments that are kept, and it is
marked when that is not all of them. -/
theorem Coherent.toNameTree_eq {context : Context} {type : TypeFacts α}
    (h : Coherent context type.facts type.args) :
    ∃ children, type.toNameTree = (NameTree.make type.facts.name type.facts.qualified
        (kindOf type.facts type.args) children).markDropped type.drops ∧
      List.Forall₂ (fun child arg => arg.IsTree child) children type.kept := by
  obtain ⟨facts, args, note⟩ := type
  have hshape : Shape facts args := Coherent.shape h
  have hnamed := forall₂_isTree_map (args.filter (·.facts.named))
  rw [← namedTrees_eq_map] at hnamed
  simp only [toNameTree, kindOf, kept, drops, keepsAll, TypeFacts.facts, TypeFacts.args]
  cases hshape with
  | wrapper htuple hnullable =>
      simp only [hnullable, head?_namedTrees, if_true, Bool.not_true, Bool.false_and,
        Bool.false_eq_true, if_false, Bool.not_false, Bool.true_and]
      exact ⟨_, rfl, hnamed⟩
  | tuple htuple hplain helements =>
      simp only [hplain, htuple, Bool.false_eq_true, if_false, if_true, Bool.not_false,
        Bool.true_and]
      split
      · next hown =>
          simp only [hown, Bool.not_true, Bool.false_and]
          exact ⟨_, (markDropped_false _).symm, forall₂_isTree_elementTrees helements.labels⟩
      · next hown =>
          rw [Bool.not_eq_true] at hown
          simp only [hown, Bool.not_false, Bool.true_and]
          exact ⟨_, rfl, hnamed⟩
  | plain htuple hplain =>
      simp only [hplain, htuple, Bool.false_eq_true, if_false, Bool.and_false, Bool.false_and,
        Bool.not_false, Bool.true_and]
      cases args with
      | nil => exact ⟨[], (markDropped_false _).symm, .nil⟩
      | cons arg args => exact ⟨_, rfl, hnamed⟩

/-! ## The tree and the type side by side -/

/-- The tree has a node for every part of the type, and each has the names of its part. -/
inductive Mirrors : NameTree → TypeFacts α → Prop
  | node {t : NameTree} {type : TypeFacts α} :
      t.name = type.facts.name → t.qualified = type.facts.qualified →
      List.Forall₂ Mirrors t.children type.args → Mirrors t type

/-- The node and the part are met at one place, going through a tree and a type together:
below a node stand the arguments that are kept, in order. -/
inductive Visits : NameTree → TypeFacts α → NameTree → TypeFacts α → Prop
  | root (t : NameTree) (type : TypeFacts α) : Visits t type t type
  | child {t child node : NameTree} {type arg part : TypeFacts α} :
      (child, arg) ∈ t.children.zip type.kept → Visits child arg node part →
      Visits t type node part

theorem exists_visits_iff {P : TypeFacts α → Prop} {t : NameTree} {type : TypeFacts α} :
    (∃ node part, Visits t type node part ∧ P part) ↔
      P type ∨ ∃ pair ∈ t.children.zip type.kept, ∃ node part,
        Visits pair.1 pair.2 node part ∧ P part := by
  constructor
  · rintro ⟨node, part, hvisits, hpart⟩
    cases hvisits with
    | root => exact Or.inl hpart
    | child hmem hvisits => exact Or.inr ⟨_, hmem, node, part, hvisits, hpart⟩
  · rintro (hpart | ⟨pair, hmem, node, part, hvisits, hpart⟩)
    · exact ⟨t, type, .root t type, hpart⟩
    · exact ⟨node, part, .child hmem hvisits, hpart⟩

section

variable {context : Context} {type : TypeFacts α}

/-- What a tree of the type has to do with the type, at the root. -/
structure RootOf (t : NameTree) (type : TypeFacts α) : Prop where
  name : t.name = type.facts.name
  qualified : t.qualified = type.facts.qualified
  kind : t.kind = kindOf type.facts type.args
  children : List.Forall₂ (fun child arg => arg.IsTree child) t.children type.kept
  dropped : t.marks.dropped = true ↔
    type.drops = true ∨ ∃ child ∈ t.children, child.marks.dropped = true

theorem RootOf.withLabel {t : NameTree} (h : RootOf t type) (label : String) :
    RootOf (t.withLabel label) type := by
  cases t
  exact ⟨h.name, h.qualified, h.kind, h.children, h.dropped⟩

theorem Coherent.rootOf (h : Coherent context type.facts type.args) {t : NameTree}
    (ht : type.IsTree t) : RootOf t type := by
  obtain ⟨children, htree, hchildren⟩ := h.toNameTree_eq
  have hroot : RootOf type.toNameTree type := by
    rw [htree]
    refine ⟨rfl, rfl, rfl, hchildren, ?_⟩
    show ((NameTree.make _ _ _ children).marks.dropped || type.drops) = true ↔ _
    rw [NameTree.dropped_make, Bool.or_eq_true, List.any_eq_true, or_comm]
    rfl
  rcases ht with rfl | ⟨label, rfl⟩
  · exact hroot
  · exact hroot.withLabel label

/-- An item of the first list stands beside one of the second. -/
theorem exists_zip_of_mem {β γ : Type} {R : β → γ → Prop} {xs : List β} {ys : List γ}
    (h : List.Forall₂ R xs ys) {x : β} (hmem : x ∈ xs) : ∃ y, (x, y) ∈ xs.zip ys := by
  have hfst : (xs.zip ys).map Prod.fst = xs := List.map_fst_zip (Nat.le_of_eq h.length_eq)
  rw [← hfst] at hmem
  obtain ⟨⟨_, y⟩, hpair, rfl⟩ := List.mem_map.mp hmem
  exact ⟨y, hpair⟩

/-- What is visited are trees of the parts of the type. -/
theorem Visits.isTree {t node : NameTree} {type part : TypeFacts α}
    (h : Visits t type node part) (hcoherent : type.Everywhere (Coherent context))
    (ht : type.IsTree t) : part.IsTree node ∧ part.Everywhere (Coherent context) := by
  induction h with
  | root => exact ⟨ht, hcoherent⟩
  | @child t child node type arg part hmem _ ih =>
      have hroot := hcoherent.own.rootOf ht
      have harg := List.forall₂_zip hroot.children hmem
      have hargs := hcoherent.arg (type.kept_sublist.subset (List.of_mem_zip hmem).2)
      exact ih hargs harg

/-- The mark is set when some argument is left out, somewhere. -/
theorem dropped_iff (h : type.Everywhere (Coherent context)) {t : NameTree}
    (ht : type.IsTree t) :
    t.marks.dropped = true ↔ ∃ node part, Visits t type node part ∧ part.drops = true := by
  induction h generalizing t with
  | @mk facts args note hown hargs ih =>
      have hroot := Coherent.rootOf hown ht
      rw [hroot.dropped, exists_visits_iff]
      refine or_congr_right ?_
      have hpair : ∀ {child arg}, (child, arg) ∈ t.children.zip (mk facts args note).kept →
          (child.marks.dropped = true ↔
            ∃ node part, Visits child arg node part ∧ part.drops = true) := fun hmem =>
        ih _ ((kept_sublist _).subset (List.of_mem_zip hmem).2)
          (List.forall₂_zip hroot.children hmem)
      constructor
      · rintro ⟨child, hchild, hdropped⟩
        obtain ⟨arg, hmem⟩ := exists_zip_of_mem hroot.children hchild
        exact ⟨(child, arg), hmem, (hpair hmem).mp hdropped⟩
      · rintro ⟨⟨child, arg⟩, hmem, hvisits⟩
        exact ⟨child, (List.of_mem_zip hmem).1, (hpair hmem).mpr hvisits⟩

/-- The mark is not set when the tree mirrors the type. -/
theorem dropped_eq_false_iff (h : type.Everywhere (Coherent context)) {t : NameTree}
    (ht : type.IsTree t) : t.marks.dropped = false ↔ Mirrors t type := by
  induction h generalizing t with
  | @mk facts args note hown hargs ih =>
      have hroot := Coherent.rootOf hown ht
      constructor
      · intro hdropped
        have hnone : ¬ _ := fun hsome => absurd (hdropped.symm.trans (hroot.dropped.mpr hsome))
          Bool.false_ne_true
        obtain ⟨hdrops, hbelow⟩ := not_or.mp hnone
        have hkept : (mk facts args note).kept = args :=
          kept_of_not_drops (Bool.eq_false_iff.mpr hdrops)
        have hchildren := hroot.children
        rw [hkept] at hchildren
        refine .node hroot.name hroot.qualified (List.forall₂_iff_zip.mpr
          ⟨hchildren.length_eq, fun {child arg} hmem => ?_⟩)
        have hchild : child.marks.dropped = false := Bool.eq_false_iff.mpr fun hsome =>
          hbelow ⟨child, (List.of_mem_zip hmem).1, hsome⟩
        exact (ih arg (List.of_mem_zip hmem).2 (List.forall₂_zip hchildren hmem)).mp hchild
      · rintro ⟨-, -, hmirrors⟩
        have hlength : (mk facts args note).kept.length = args.length :=
          hroot.children.length_eq.symm.trans hmirrors.length_eq
        have hdrops := not_drops_of_length hlength
        refine Bool.eq_false_iff.mpr fun hdropped => ?_
        rcases hroot.dropped.mp hdropped with hsome | ⟨child, hchild, hsome⟩
        · exact absurd (hdrops.symm.trans hsome) Bool.false_ne_true
        · have hchildren := hroot.children
          rw [kept_of_not_drops hdrops] at hchildren
          obtain ⟨arg, hmem⟩ := exists_zip_of_mem hmirrors hchild
          have hmirror := List.forall₂_zip hmirrors hmem
          have hchild := (ih arg (List.of_mem_zip hmem).2
            (List.forall₂_zip hchildren hmem)).mpr hmirror
          exact absurd (hchild.symm.trans hsome) Bool.false_ne_true

/-! ## What is lost, and what is not -/

/-- An open type parameter is an argument of the part and has no node: the part is a type with
type arguments, a nullable value, or a tuple with default labels only. -/
structure Loses (context : Context) (node : NameTree) (part : TypeFacts α) : Prop where
  kind : node.kind = .nullableValue ∨
    node.kind = .tuple ∧ hasOwnLabels part.facts part.args = false ∨
    ∃ nullable, node.kind = .generic nullable
  absent : ∃ arg ∈ part.args, arg ∉ part.kept ∧ arg.facts.named = false ∧ arg.args = [] ∧
    arg.facts.name ∈ context.typeParams

/-- The node has the names of the part, its children are the arguments that are kept, in the
order in which they are declared, and a tuple with labels of its own keeps them all. -/
structure Follows (node : NameTree) (part : TypeFacts α) : Prop where
  name : node.name = part.facts.name
  qualified : node.qualified = part.facts.qualified
  children : List.Forall₂ (fun child arg => child.name = arg.facts.name ∧
    child.qualified = arg.facts.qualified) node.children part.kept
  order : part.kept.Sublist part.args
  labelled : part.facts.tuple = true → hasOwnLabels part.facts part.args = true →
    part.kept = part.args

theorem IsTree.names {t : NameTree} (h : type.IsTree t) :
    t.name = type.facts.name ∧ t.qualified = type.facts.qualified := by
  obtain ⟨facts, args, note⟩ := type
  obtain ⟨marks, children, htree, -⟩ := toNameTree_eq_node facts args note
  rcases h with rfl | ⟨label, rfl⟩
  · rw [htree]
    exact ⟨rfl, rfl⟩
  · rw [htree]
    exact ⟨rfl, rfl⟩

theorem RootOf.follows {t : NameTree} (h : RootOf t type)
    (hcoherent : Coherent context type.facts type.args) : Follows t type where
  name := h.name
  qualified := h.qualified
  children := h.children.imp fun _ _ htree => htree.names
  order := type.kept_sublist
  labelled htuple hown := by
    refine kept_of_keepsAll ?_
    simp [keepsAll, (hcoherent.tuple htuple).annotated, htuple, hown]

/-- The kind of a node below which something is left out. -/
theorem RootOf.kind_of_drops {t : NameTree} (h : RootOf t type) (hkeeps : type.keepsAll = false)
    (hne : type.args ≠ []) :
    t.kind = .nullableValue ∨ t.kind = .tuple ∧ hasOwnLabels type.facts type.args = false ∨
      ∃ nullable, t.kind = .generic nullable := by
  rw [h.kind, kindOf]
  split
  · exact Or.inl rfl
  · next hnullable =>
      split
      · next htuple =>
          refine Or.inr (Or.inl ⟨rfl, ?_⟩)
          simpa [keepsAll, hnullable, htuple] using hkeeps
      · rw [if_neg (by simpa using hne)]
        exact Or.inr (Or.inr ⟨_, rfl⟩)

theorem Everywhere.loses_iff (h : type.Everywhere (Coherent context)) {t : NameTree}
    (ht : type.IsTree t) : Loses context t type ↔ type.drops = true := by
  constructor
  · rintro ⟨-, arg, hmem, hkept, -⟩
    refine Bool.of_not_eq_false fun hdrops => hkept ?_
    rw [kept_of_not_drops hdrops]
    exact hmem
  · intro hdrops
    obtain ⟨hkeeps, arg, hmem, hnamed, hkept⟩ := exists_of_drops hdrops
    obtain ⟨hargs, hparam⟩ := (h.arg hmem).own.unnamed hnamed
    exact ⟨(h.own.rootOf ht).kind_of_drops hkeeps (List.ne_nil_of_mem hmem), arg, hmem, hkept,
      hnamed, hargs, hparam⟩

end

end TypeFacts

namespace Signature

open TypeFacts (Visits Mirrors Loses Follows)

/-- The mark for what was left out is exact: without it the tree of a type that is read has
the shape and the names of the type, and with it some open type parameter has no node.  What
has one stands in the order in which it is declared. -/
theorem losses_of_read {context : Context} {source : String} {signature : Signature}
    (h : read context source = .ok signature) :
    (signature.toNameTree.marks.dropped = false ↔ Mirrors signature.toNameTree signature) ∧
      (signature.toNameTree.marks.dropped = true ↔
        ∃ node part, Visits signature.toNameTree signature node part ∧ Loses context node part) ∧
      ∀ node part, Visits signature.toNameTree signature node part → Follows node part := by
  have hcoherent := everywhere_coherent_of_read h
  have htree : signature.IsTree signature.toNameTree := Or.inl rfl
  refine ⟨TypeFacts.dropped_eq_false_iff hcoherent htree, ?_, fun node part hvisits => ?_⟩
  · rw [TypeFacts.dropped_iff hcoherent htree]
    refine exists_congr fun node => exists_congr fun part => and_congr_right fun hvisits => ?_
    obtain ⟨hpart, hown⟩ := hvisits.isTree hcoherent htree
    exact (hown.loses_iff hpart).symm
  · obtain ⟨hpart, hown⟩ := hvisits.isTree hcoherent htree
    exact (hown.own.rootOf hpart).follows hown.own

/-- The type parameter is kept as a labelled element and lost as the argument of a list. -/
theorem losses_of_read_parameter :
    let context : Context := { typeParams := ["T"] }
    ∃ signature : Signature, read context "(T key, List<T>)" = .ok signature ∧
      ∃ node part, Visits signature.toNameTree signature node part ∧ Loses context node part := by
  intro context
  have hreads : readsAs context "(T key, List<T>)" (·.toNameTree.marks.dropped) = true := by
    decide +kernel
  obtain ⟨signature, hread, hdropped⟩ := exists_of_readsAs hreads
  exact ⟨signature, hread, (losses_of_read hread).2.1.mp hdropped⟩

end Signature

end TypeNaming
