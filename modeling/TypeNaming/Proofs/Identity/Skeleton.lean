/-
# Skeletons

The skeleton of a name tree is what equality looks at, and no more: the readable name
and the unlabelled declaration of every node, in the shape of the tree.  Two trees are
equal exactly when their skeletons are (`same_iff`), and the hash of a tree is read off
its skeleton (`identityHash_eq`).  So equality is an equivalence, and equal trees have
equal hashes, whatever the trees are made of: nothing here asks that a node came from
one of the functions that make trees.

The skeleton of a node is in turn a function of its name, its qualified name, its kind
and the skeletons of its children (`skeleton_node_congr`).  That is not so for the two
texts one by one: they are written from the texts of the children, and equality of two
lists of children is not equality of the joined texts.
-/
import Mathlib.Data.List.Forall2
import TypeNaming.Alternatives

namespace TypeNaming

/-- The two texts of every node of a tree. -/
inductive Skeleton where
  | node (readable unlabelled : String) (children : List Skeleton)

namespace Skeleton

/-- The readable name at the root. -/
def readable : Skeleton → String
  | .node readable _ _ => readable

/-- The unlabelled declaration at the root. -/
def unlabelled : Skeleton → String
  | .node _ unlabelled _ => unlabelled

mutual

/-- The hash chain over the texts of a skeleton. -/
def hash : Skeleton → UInt64
  | .node readable unlabelled children =>
    Hash.chain Hash.seed (Hash.ofText readable :: Hash.ofText unlabelled :: hashes children)

/-- The hashes of a list of skeletons. -/
def hashes : List Skeleton → List UInt64
  | [] => []
  | s :: ss => hash s :: hashes ss

end

end Skeleton

namespace NameTree

open Text (capitalize)

mutual

/-- The skeleton of a tree. -/
def skeleton : NameTree → Skeleton
  | .node info children =>
    .node (readable (.node info children)) (unlabelled (.node info children))
      (skeletons children)

/-- The skeletons of a list of trees. -/
def skeletons : List NameTree → List Skeleton
  | [] => []
  | t :: ts => skeleton t :: skeletons ts

end

@[simp] theorem skeletons_eq_map (ts : List NameTree) : skeletons ts = ts.map skeleton := by
  induction ts with
  | nil => rfl
  | cons t ts ih => simp [skeletons, ih]

@[simp] theorem readable_skeleton (t : NameTree) : t.skeleton.readable = t.readable := by
  cases t
  rfl

@[simp] theorem unlabelled_skeleton (t : NameTree) : t.skeleton.unlabelled = t.unlabelled := by
  cases t
  rfl

/-! ## Equality and hash, over skeletons -/

mutual

theorem same_iff_skeleton : ∀ t u : NameTree, t.same u = true ↔ t.skeleton = u.skeleton
  | .node info children, .node info' children' => by
      have ih := sameAll_iff_skeletons children children'
      simp only [same, skeleton, Bool.and_eq_true, beq_iff_eq, Skeleton.node.injEq, and_assoc,
        children_node, ih]

theorem sameAll_iff_skeletons : ∀ ts us : List NameTree,
    sameAll ts us = true ↔ skeletons ts = skeletons us
  | [], [] => by simp [sameAll]
  | [], u :: us => by simp [sameAll]
  | t :: ts, [] => by simp [sameAll]
  | t :: ts, u :: us => by
      have ht := same_iff_skeleton t u
      have hts := sameAll_iff_skeletons ts us
      simp only [sameAll, skeletons, Bool.and_eq_true, List.cons.injEq, ht, hts]

end

theorem sameAll_iff_map_skeleton {ts us : List NameTree} :
    sameAll ts us = true ↔ ts.map skeleton = us.map skeleton := by
  rw [sameAll_iff_skeletons, skeletons_eq_map, skeletons_eq_map]

theorem beq_iff_skeleton {t u : NameTree} : (t == u) = true ↔ t.skeleton = u.skeleton :=
  same_iff_skeleton t u

theorem forall₂_beq_iff {ts us : List NameTree} :
    List.Forall₂ (fun t u => (t == u) = true) ts us ↔ ts.map skeleton = us.map skeleton := by
  simp only [beq_iff_skeleton]
  rw [← List.forall₂_eq_eq_eq, List.forall₂_map_left_iff, List.forall₂_map_right_iff]

mutual

theorem identityHash_eq : ∀ t : NameTree, t.identityHash = t.skeleton.hash
  | .node info children => by
      rw [identityHash, skeleton, Skeleton.hash, identityHashes_eq children]

theorem identityHashes_eq : ∀ ts : List NameTree,
    identityHashes ts = Skeleton.hashes (skeletons ts)
  | [] => rfl
  | t :: ts => by
      rw [identityHashes, skeletons, Skeleton.hashes, identityHash_eq t, identityHashes_eq ts]

end

/-! ## The skeleton of a node -/

/-- The readable name of a node, over its own word and the names of its children. -/
def readableOver (kind : Kind) (word : String) : List String → String
  | [] => word
  | names => word ++ linkWord kind ++ "_".intercalate names

/-- The unlabelled declaration of a node, over its own name and the declarations of its
children. -/
def unlabelledOver (short : String) : Kind → List String → String
  | .nullableValue, _ => short
  | kind, [] => if kind.onReference then short ++ "?" else short
  | .tuple, texts => "(" ++ ", ".intercalate texts ++ ")"
  | _, texts => short ++ "<" ++ ", ".intercalate texts ++ ">"

theorem readable_node (info : NodeInfo) (children : List NameTree) :
    readable (.node info children) =
      readableOver info.kind (capitalize (ShortName.simple info.name))
        (children.map readable) := by
  cases children with
  | nil => simp only [readable, List.map_nil, readableOver]
  | cons child others =>
      simp only [readable, readables_eq_map, List.map_cons, readableOver]

/-- The declaration of a node: the name of the type over the declarations of its children,
and the label, where labels are shown. -/
theorem declare_node (labels : LabelStyle) (info : NodeInfo) (children : List NameTree) :
    declare labels (.node info children) =
      unlabelledOver (ShortName.qualified info.qualified) info.kind
        (children.map (declare labels)) ++ labels.suffix info.label := by
  obtain ⟨name, qualified, kind, label, marks⟩ := info
  cases children with
  | nil => cases kind <;> rfl
  | cons child others =>
      rw [List.map_cons, ← declareAll_eq_map]
      cases kind <;> rfl

theorem unlabelled_node (info : NodeInfo) (children : List NameTree) :
    unlabelled (.node info children) =
      unlabelledOver (ShortName.qualified info.qualified) info.kind
        (children.map unlabelled) :=
  (declare_node .hidden info children).trans String.append_empty

theorem map_readable_of_skeleton {ts us : List NameTree}
    (h : ts.map skeleton = us.map skeleton) : ts.map readable = us.map readable := by
  simpa [Function.comp_def] using congrArg (List.map Skeleton.readable) h

theorem map_unlabelled_of_skeleton {ts us : List NameTree}
    (h : ts.map skeleton = us.map skeleton) : ts.map unlabelled = us.map unlabelled := by
  simpa [Function.comp_def] using congrArg (List.map Skeleton.unlabelled) h

theorem skeleton_node_congr {info info' : NodeInfo} {children children' : List NameTree}
    (hname : info.name = info'.name) (hqualified : info.qualified = info'.qualified)
    (hkind : info.kind = info'.kind)
    (hchildren : children.map skeleton = children'.map skeleton) :
    (node info children).skeleton = (node info' children').skeleton := by
  simp only [skeleton, skeletons_eq_map, readable_node, unlabelled_node, hname, hqualified,
    hkind, map_readable_of_skeleton hchildren, map_unlabelled_of_skeleton hchildren, hchildren]

end NameTree

namespace Alternatives

theorem beq_iff_skeletons {a b : Alternatives} :
    (a == b) = true ↔ a.toList.map NameTree.skeleton = b.toList.map NameTree.skeleton :=
  NameTree.sameAll_iff_map_skeleton

theorem identityHash_eq (a : Alternatives) :
    a.identityHash = Hash.chain Hash.seed ((a.toList.map NameTree.skeleton).map Skeleton.hash) := by
  rw [identityHash, List.map_map]
  exact congrArg _ (List.map_congr_left fun t _ => NameTree.identityHash_eq t)

end Alternatives

/-! ## The laws -/

instance : EquivBEq NameTree where
  rfl := NameTree.beq_iff_skeleton.mpr rfl
  symm h := NameTree.beq_iff_skeleton.mpr (NameTree.beq_iff_skeleton.mp h).symm
  trans h h' := NameTree.beq_iff_skeleton.mpr
    ((NameTree.beq_iff_skeleton.mp h).trans (NameTree.beq_iff_skeleton.mp h'))

instance : EquivBEq Alternatives where
  rfl := Alternatives.beq_iff_skeletons.mpr rfl
  symm h := Alternatives.beq_iff_skeletons.mpr (Alternatives.beq_iff_skeletons.mp h).symm
  trans h h' := Alternatives.beq_iff_skeletons.mpr
    ((Alternatives.beq_iff_skeletons.mp h).trans (Alternatives.beq_iff_skeletons.mp h'))

theorem NameTree.identityHash_congr {t u : NameTree} (h : (t == u) = true) :
    t.identityHash = u.identityHash := by
  rw [identityHash_eq, identityHash_eq, beq_iff_skeleton.mp h]

theorem Alternatives.identityHash_congr {a b : Alternatives} (h : (a == b) = true) :
    a.identityHash = b.identityHash := by
  rw [identityHash_eq, identityHash_eq, beq_iff_skeletons.mp h]

instance : LawfulHashable Alternatives where
  hash_eq _ _ h := Alternatives.identityHash_congr h

/-- Equality is an equivalence, on trees and on lists of alternatives; nodes that agree
in name, qualified name and kind are equal when their children are, whatever their labels
and marks; and what is equal has equal hashes. -/
theorem equality_laws :
    (Equivalence fun t u : NameTree => (t == u) = true) ∧
    (Equivalence fun a b : Alternatives => (a == b) = true) ∧
    (∀ (info info' : NodeInfo) (children children' : List NameTree),
      info.name = info'.name → info.qualified = info'.qualified → info.kind = info'.kind →
      List.Forall₂ (fun t u => (t == u) = true) children children' →
      (NameTree.node info children == NameTree.node info' children') = true) ∧
    (∀ t u : NameTree, (t == u) = true → t.identityHash = u.identityHash) ∧
    (∀ a b : Alternatives, (a == b) = true → a.identityHash = b.identityHash) := by
  refine ⟨⟨fun _ => BEq.rfl, BEq.symm, BEq.trans⟩, ⟨fun _ => BEq.rfl, BEq.symm, BEq.trans⟩,
    ?_, fun _ _ => NameTree.identityHash_congr, fun _ _ => Alternatives.identityHash_congr⟩
  intro info info' children children' hname hqualified hkind hchildren
  exact NameTree.beq_iff_skeleton.mpr (NameTree.skeleton_node_congr hname hqualified hkind
    (NameTree.forall₂_beq_iff.mp hchildren))

/-- `Int32` under `System` and the keyword `int` are one type, so lists of them are, too. -/
theorem equality_laws_keyword :
    let int := NameTree.plain "Int32" "System.Int32"
    let keyword := NameTree.plain "int" "int"
    (int == keyword) = true ∧ int.identityHash = keyword.identityHash ∧
      (NameTree.generic "List" "List" [int] == .generic "List" "List" [keyword]) = true ∧
      (⟨[int]⟩ : Alternatives).identityHash = (⟨[keyword]⟩ : Alternatives).identityHash := by
  intro int keyword
  have hsame : (int == keyword) = true := by decide
  obtain ⟨-, -, hcongr, hhash, hlists⟩ := equality_laws
  exact ⟨hsame, hhash int keyword hsame,
    hcongr _ _ [int] [keyword] rfl rfl rfl (.cons hsame .nil),
    hlists ⟨[int]⟩ ⟨[keyword]⟩ (by decide)⟩

end TypeNaming
