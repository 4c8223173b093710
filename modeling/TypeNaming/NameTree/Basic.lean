/-
# Name trees

A name tree is what the names of a type are read from: the type with its type
arguments or tuple elements below it, in the order they are declared.

The kind of a node carries its nullability, so no node is both a nullable value
and a nullable reference, and no tuple is either.  Each node also keeps `marks`,
a summary of its whole tree that is worked out once, when the node is made, from
the marks of its children; a question about the tree is then answered at its
root.  Trees are made through `make` and the functions after it, never by the
constructor, so that the marks are right.
-/
namespace TypeNaming

/-- What a node of a name tree is. -/
inductive Kind where
  /-- A type without type arguments; `nullable` when `?` stands on a reference. -/
  | plain (nullable : Bool)
  /-- A type with type arguments, some of which may have been left out. -/
  | generic (nullable : Bool)
  /-- A tuple; its elements may carry labels. -/
  | tuple
  /-- A value type under `?`. -/
  | nullableValue
  deriving DecidableEq, Repr

namespace Kind

/-- Whether the kind is that of a reference under `?`. -/
def onReference : Kind → Bool
  | .plain nullable => nullable
  | .generic nullable => nullable
  | .tuple => false
  | .nullableValue => false

/-- Whether the type itself stands under `?`, in whichever sense. -/
def isNullable : Kind → Bool
  | .nullableValue => true
  | kind => kind.onReference

/-- The kind under `?`, for the kinds that can be a reference under it. -/
def asNullableReference : Kind → Kind
  | .plain _ => .plain true
  | .generic _ => .generic true
  | .tuple => .tuple
  | .nullableValue => .nullableValue

end Kind

/-- A summary of a whole tree. -/
structure Marks where
  /-- Some node is a nullable value or a nullable reference. -/
  nullable : Bool
  /-- Some element of a tuple carries a label. -/
  labelled : Bool
  /-- Some type argument was left out when the tree was built. -/
  dropped : Bool
  deriving DecidableEq, Repr

namespace Marks

/-- No mark at all. -/
def none : Marks := ⟨false, false, false⟩

/-- The marks of either side. -/
def union (a b : Marks) : Marks :=
  ⟨a.nullable || b.nullable, a.labelled || b.labelled, a.dropped || b.dropped⟩

end Marks

/-- What a node says of itself. -/
structure NodeInfo where
  /-- The name the type is declared with: `Int32`, `List`, `Nullable`. -/
  name : String
  /-- The name with its namespace and without type arguments. -/
  qualified : String
  kind : Kind
  /-- The label of a tuple element. -/
  label : Option String
  marks : Marks
  deriving DecidableEq, Repr

/-- A type, with its type arguments or tuple elements below it. -/
inductive NameTree where
  | node (info : NodeInfo) (children : List NameTree)

namespace NameTree

/-- What the root says of itself. -/
def info : NameTree → NodeInfo
  | .node info _ => info

/-- The type arguments, tuple elements or wrapped type, in order. -/
def children : NameTree → List NameTree
  | .node _ children => children

/-- The simple name of the root. -/
def name (t : NameTree) : String := t.info.name

/-- The qualified name of the root. -/
def qualified (t : NameTree) : String := t.info.qualified

/-- The kind of the root. -/
def kind (t : NameTree) : Kind := t.info.kind

/-- The label of the root as a tuple element. -/
def label (t : NameTree) : Option String := t.info.label

/-- The summary of the whole tree. -/
def marks (t : NameTree) : Marks := t.info.marks

/-- The marks a node has for its own sake, before its children's are added. -/
def ownMarks (kind : Kind) (children : List NameTree) : Marks where
  nullable := kind.isNullable
  labelled := kind == .tuple && children.any (·.label.isSome)
  dropped := false

/-- The marks of a list of trees together. -/
def marksOf (trees : List NameTree) : Marks :=
  trees.foldr (fun t marks => t.marks.union marks) Marks.none

/-- A node without a label, with its marks worked out. -/
def make (name qualified : String) (kind : Kind) (children : List NameTree) : NameTree :=
  .node
    { name := name
      qualified := qualified
      kind := kind
      label := none
      marks := (ownMarks kind children).union (marksOf children) }
    children

/-- A type without type arguments. -/
def plain (name qualified : String) : NameTree :=
  make name qualified (.plain false) []

/-- A type with type arguments. -/
def generic (name qualified : String) (arguments : List NameTree) : NameTree :=
  make name qualified (.generic false) arguments

/-- A tuple of the elements. -/
def tuple (qualified : String) (elements : List NameTree) : NameTree :=
  make "ValueTuple" qualified .tuple elements

/-- The value type under `?`: it is called `Nullable`, and its qualified name is
that of the type it wraps with `?` after it. -/
def nullableValue (inner : NameTree) : NameTree :=
  make "Nullable" (inner.qualified ++ "?") .nullableValue [inner]

/-- The reference type under `?`.  Tuples and nullable values stay as they are. -/
def nullableReference : NameTree → NameTree
  | .node info children =>
    let kind := info.kind.asNullableReference
    .node
      { info with
        kind := kind
        marks := { info.marks with
          nullable := info.marks.nullable || kind.onReference } }
      children

/-- The tree as a tuple element with the label. -/
def withLabel (label : String) : NameTree → NameTree
  | .node info children => .node { info with label := some label } children

/-- The tree, marked as one that left out a type argument if `dropped` says so. -/
def markDropped (dropped : Bool) : NameTree → NameTree
  | .node info children =>
    .node
      { info with marks := { info.marks with dropped := info.marks.dropped || dropped } }
      children

/-! ## What each way of making a tree does to its children -/

@[simp] theorem children_node (info : NodeInfo) (children : List NameTree) :
    (NameTree.node info children).children = children := rfl

@[simp] theorem info_node (info : NodeInfo) (children : List NameTree) :
    (NameTree.node info children).info = info := rfl

@[simp] theorem children_make (name qualified : String) (kind : Kind)
    (children : List NameTree) : (make name qualified kind children).children = children := rfl

@[simp] theorem children_withLabel (label : String) (t : NameTree) :
    (t.withLabel label).children = t.children := by
  cases t; rfl

@[simp] theorem children_markDropped (dropped : Bool) (t : NameTree) :
    (t.markDropped dropped).children = t.children := by
  cases t; rfl

@[simp] theorem children_nullableReference (t : NameTree) :
    t.nullableReference.children = t.children := by
  cases t; rfl

end NameTree

end TypeNaming
