/-
# Trees that agree node by node

`Matches R` says of two trees that they have one shape, and that `R` holds of what the
nodes at each position say of themselves.

`Twin` is the relation of this form that leaves out labels and marks.  Nothing that makes
up the identity of a type looks at either (`identity_of_twin`): the labels of the elements
are written in the declaration that is shown, and nowhere else.  What is not claimed is that
two types of a host that differ in labels have twin trees: a tuple with a label of its own
keeps elements that it would lose without.
-/
import TypeNaming.Proofs.Identity.Reuse

namespace TypeNaming

/-- The nodes agree, labels and marks apart. -/
structure NodeInfo.SameType (info info' : NodeInfo) : Prop where
  name : info.name = info'.name
  qualified : info.qualified = info'.qualified
  kind : info.kind = info'.kind

namespace NameTree

/-! ## One shape -/

mutual

/-- The trees have one shape, and the relation holds of the nodes at each position. -/
def Matches (R : NodeInfo → NodeInfo → Prop) : NameTree → NameTree → Prop
  | .node info children, .node info' children' =>
    R info info' ∧ MatchesAll R children children'

/-- The lists are equally long and match pairwise. -/
def MatchesAll (R : NodeInfo → NodeInfo → Prop) : List NameTree → List NameTree → Prop
  | [], [] => True
  | t :: ts, u :: us => Matches R t u ∧ MatchesAll R ts us
  | _, _ => False

end

section

variable {R : NodeInfo → NodeInfo → Prop}

theorem matchesAll_iff {ts us : List NameTree} :
    MatchesAll R ts us ↔ List.Forall₂ (Matches R) ts us := by
  induction ts generalizing us with
  | nil => cases us <;> simp [MatchesAll]
  | cons t ts ih =>
      cases us with
      | nil => simp [MatchesAll]
      | cons u us => rw [MatchesAll, List.forall₂_cons, ih]

theorem Matches.node {info info' : NodeInfo} {children children' : List NameTree}
    (hinfo : R info info') (h : List.Forall₂ (Matches R) children children') :
    Matches R (.node info children) (.node info' children') :=
  ⟨hinfo, matchesAll_iff.mpr h⟩

theorem Matches.root : ∀ {t u : NameTree}, Matches R t u →
    R t.info u.info ∧ t.children.length = u.children.length
  | .node _ _, .node _ _, ⟨h, hall⟩ => ⟨h, (matchesAll_iff.mp hall).length_eq⟩

end

/-! ## Labels and marks apart -/

/-- The trees are told apart by labels and marks only. -/
abbrev Twin : NameTree → NameTree → Prop := Matches NodeInfo.SameType

/-- The lists are twins one by one. -/
abbrev TwinAll : List NameTree → List NameTree → Prop := MatchesAll NodeInfo.SameType

mutual

theorem Twin.refl : ∀ t : NameTree, Twin t t
  | .node _ children => ⟨⟨rfl, rfl, rfl⟩, TwinAll.refl children⟩

theorem TwinAll.refl : ∀ ts : List NameTree, TwinAll ts ts
  | [] => trivial
  | t :: ts => ⟨Twin.refl t, TwinAll.refl ts⟩

end

mutual

theorem Twin.symm : ∀ {t u : NameTree}, Twin t u → Twin u t
  | .node _ _, .node _ _, ⟨h, hall⟩ =>
      ⟨⟨h.name.symm, h.qualified.symm, h.kind.symm⟩, TwinAll.symm hall⟩

theorem TwinAll.symm : ∀ {ts us : List NameTree}, TwinAll ts us → TwinAll us ts
  | [], [], _ => trivial
  | _ :: _, _ :: _, ⟨h, hall⟩ => ⟨Twin.symm h, TwinAll.symm hall⟩

end

mutual

theorem Twin.trans : ∀ {t u v : NameTree}, Twin t u → Twin u v → Twin t v
  | .node _ _, .node _ _, .node _ _, ⟨h, hall⟩, ⟨h', hall'⟩ =>
      ⟨⟨h.name.trans h'.name, h.qualified.trans h'.qualified, h.kind.trans h'.kind⟩,
        TwinAll.trans hall hall'⟩

theorem TwinAll.trans : ∀ {ts us vs : List NameTree}, TwinAll ts us → TwinAll us vs → TwinAll ts vs
  | [], [], [], _, _ => trivial
  | _ :: _, _ :: _, _ :: _, ⟨h, hall⟩, ⟨h', hall'⟩ => ⟨Twin.trans h h', TwinAll.trans hall hall'⟩

end

theorem Twin.qualified {t u : NameTree} (h : Twin t u) : t.qualified = u.qualified := by
  cases t
  cases u
  exact h.1.qualified

theorem Twin.map_eq {β : Type} {f : NameTree → β} (hf : ∀ t u, Twin t u → f t = f u)
    {ts us : List NameTree} (h : List.Forall₂ Twin ts us) : ts.map f = us.map f := by
  rw [← List.forall₂_eq_eq_eq, List.forall₂_map_left_iff, List.forall₂_map_right_iff]
  exact h.imp hf

/-- Nodes that agree in name, qualified name and kind, over children that do. -/
theorem Twin.node {info info' : NodeInfo} {children children' : List NameTree}
    (hname : info.name = info'.name) (hqualified : info.qualified = info'.qualified)
    (hkind : info.kind = info'.kind) (h : List.Forall₂ Twin children children') :
    Twin (.node info children) (.node info' children') :=
  Matches.node ⟨hname, hqualified, hkind⟩ h

theorem twin_withLabel (t : NameTree) (label : String) : Twin (t.withLabel label) t := by
  cases t
  exact .node rfl rfl rfl (matchesAll_iff.mp (TwinAll.refl _))

mutual

theorem Twin.skeleton : ∀ {t u : NameTree}, Twin t u → t.skeleton = u.skeleton
  | .node _ _, .node _ _, ⟨h, hall⟩ => by
      refine skeleton_node_congr h.name h.qualified h.kind ?_
      rw [← skeletons_eq_map, ← skeletons_eq_map, TwinAll.skeletons hall]

theorem TwinAll.skeletons : ∀ {ts us : List NameTree}, TwinAll ts us →
    NameTree.skeletons ts = NameTree.skeletons us
  | [], [], _ => rfl
  | _ :: _, _ :: _, ⟨h, hall⟩ => by
      rw [NameTree.skeletons, NameTree.skeletons, Twin.skeleton h, TwinAll.skeletons hall]

end

mutual

theorem Twin.allNamespaces : ∀ {t u : NameTree}, Twin t u → t.allNamespaces = u.allNamespaces
  | .node _ _, .node _ _, ⟨h, hall⟩ => by
      rw [NameTree.allNamespaces, NameTree.allNamespaces, h.qualified, TwinAll.allNamespacesOf hall]

theorem TwinAll.allNamespacesOf : ∀ {ts us : List NameTree}, TwinAll ts us →
    NameTree.allNamespacesOf ts = NameTree.allNamespacesOf us
  | [], [], _ => rfl
  | _ :: _, _ :: _, ⟨h, hall⟩ => by
      rw [NameTree.allNamespacesOf, NameTree.allNamespacesOf, Twin.allNamespaces h,
        TwinAll.allNamespacesOf hall]

end

/-- Equality, hash and namespaces do not look at labels and marks. -/
theorem Twin.same {t u : NameTree} (h : Twin t u) :
    (t == u) = true ∧ t.identityHash = u.identityHash ∧ t.namespaces = u.namespaces := by
  have hsame := beq_iff_skeleton.mpr h.skeleton
  exact ⟨hsame, identityHash_congr hsame, congrArg Text.Sorted.ofList h.allNamespaces⟩

/-! ## Trees without labels -/

mutual

/-- The tree with every label removed. -/
def withoutLabels : NameTree → NameTree
  | .node info children =>
    .node { info with label := none, marks := { info.marks with labelled := false } }
      (withoutLabelsAll children)

/-- The trees with every label removed. -/
def withoutLabelsAll : List NameTree → List NameTree
  | [] => []
  | t :: ts => withoutLabels t :: withoutLabelsAll ts

end

mutual

theorem twin_withoutLabels : ∀ t : NameTree, Twin t t.withoutLabels
  | .node _ children => ⟨⟨rfl, rfl, rfl⟩, twinAll_withoutLabelsAll children⟩

theorem twinAll_withoutLabelsAll : ∀ ts : List NameTree, TwinAll ts (withoutLabelsAll ts)
  | [] => trivial
  | t :: ts => ⟨twin_withoutLabels t, twinAll_withoutLabelsAll ts⟩

end

mutual

theorem label_of_mem_withoutLabels : ∀ (t : NameTree) {node : NameTree},
    node ∈ t.withoutLabels.nodes → node.label = none
  | .node info children, _, h => by
      rw [withoutLabels, nodes] at h
      rcases List.mem_cons.mp h with rfl | h
      · rfl
      · exact label_of_mem_withoutLabelsAll children h

theorem label_of_mem_withoutLabelsAll : ∀ (ts : List NameTree) {node : NameTree},
    node ∈ nodesOf (withoutLabelsAll ts) → node.label = none
  | [], _, h => by cases h
  | t :: ts, _, h => by
      rw [withoutLabelsAll, nodesOf] at h
      rcases List.mem_append.mp h with h | h
      · exact label_of_mem_withoutLabels t h
      · exact label_of_mem_withoutLabelsAll ts h

end

mutual

/-- Without labels, it does not matter whether labels are shown. -/
theorem declaration_of_no_labels : ∀ {t : NameTree}, (∀ node ∈ t.nodes, node.label = none) →
    t.declare .shown = t.declare .hidden
  | .node info children, h => by
      rw [nodes] at h
      obtain ⟨hown, hbelow⟩ := List.forall_mem_cons.mp h
      have hlabel : info.label = none := hown
      rw [declare_node, declare_node, ← declareAll_eq_map, ← declareAll_eq_map,
        declareAll_of_no_labels hbelow, hlabel]
      rfl

theorem declareAll_of_no_labels : ∀ {ts : List NameTree},
    (∀ node ∈ nodesOf ts, node.label = none) → declareAll .shown ts = declareAll .hidden ts
  | [], _ => rfl
  | t :: ts, h => by
      rw [nodesOf] at h
      obtain ⟨hfirst, hothers⟩ := List.forall_mem_append.mp h
      rw [declareAll, declareAll, declaration_of_no_labels hfirst, declareAll_of_no_labels hothers]

end

/-! ## Labels and identity -/

/-- Labels are no part of the identity of a type.  A tree whose labels are added, changed or
removed, at any nodes, is equal to the tree and has its hash, its readable name, its
declaration without labels and its namespaces; and this declaration is the one that is shown
of the tree with every label removed. -/
theorem identity_of_twin (t : NameTree) :
    (∀ u : NameTree, Twin t u →
      (t == u) = true ∧ t.identityHash = u.identityHash ∧ t.readable = u.readable ∧
        t.unlabelled = u.unlabelled ∧ t.namespaces = u.namespaces) ∧
    Twin t t.withoutLabels ∧ (∀ node ∈ t.withoutLabels.nodes, node.label = none) ∧
    t.unlabelled = t.withoutLabels.declaration := by
  have htexts {u : NameTree} (h : Twin t u) : t.readable = u.readable ∧
      t.unlabelled = u.unlabelled := by
    have hskeletons := h.skeleton
    exact ⟨by simpa using congrArg Skeleton.readable hskeletons,
      by simpa using congrArg Skeleton.unlabelled hskeletons⟩
  have hlabels : ∀ node ∈ t.withoutLabels.nodes, node.label = none :=
    fun _ => label_of_mem_withoutLabels t
  refine ⟨fun u h => ?_, twin_withoutLabels t, hlabels, ?_⟩
  · obtain ⟨hsame, hhash, hnamespaces⟩ := h.same
    exact ⟨hsame, hhash, (htexts h).1, (htexts h).2, hnamespaces⟩
  · exact (htexts (twin_withoutLabels t)).2.trans (declaration_of_no_labels hlabels).symm

/-- A labelled tuple inside a list inside a labelled tuple, and the same with the labels on
other nodes. -/
theorem identity_of_twin_nested :
    let int := plain "Int32" "System.Int32"
    let list (elements : List NameTree) :=
      generic "List" "List" [tuple "(System.Int32, System.Int32)" elements]
    let t := tuple "(List, System.Int32)"
      [(list [int.withLabel "X", int.withLabel "Y"]).withLabel "Points", int]
    let u := (tuple "(List, System.Int32)"
      [list [int, int.withLabel "Row"], int.withLabel "Count"]).withLabel "Whole"
    t.declaration = "(List<(int X, int Y)> Points, int)" ∧
      u.declaration = "(List<(int, int Row)>, int Count) Whole" ∧
      (t == u) = true ∧ t.identityHash = u.identityHash ∧
      t.unlabelled = "(List<(int, int)>, int)" := by
  intro int list t u
  have htwin : Twin t u :=
    .node rfl rfl rfl (.cons
      (.node rfl rfl rfl (.cons
        (.node rfl rfl rfl (.cons (twin_withLabel int "X")
          (.cons ((twin_withLabel int "Y").trans (twin_withLabel int "Row").symm) .nil))) .nil))
      (.cons (twin_withLabel int "Count").symm .nil))
  obtain ⟨hsame, hhash, -⟩ := (identity_of_twin t).1 u htwin
  exact ⟨by decide, by decide, hsame, hhash, by decide⟩

end NameTree

end TypeNaming
