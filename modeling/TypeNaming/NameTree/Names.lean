/-
# The names of a tree

Four texts are read off a name tree.

  * `readable` is the token inside member names: `Int`, `NullableInt`,
    `DictionaryOfString_Int`.
  * `declaration` is the type as a declaration writes it: `int?`, `List<int>`,
    `(int? Id, string Name)`.  Labels can be shown or hidden.
  * `hint` is a key for the unit that is generated for the type; it is not a
    declaration.
  * `namespaces` are the namespaces below `System` that a declaration leaves out.

A nullable value is declared by its qualified name alone, which ends in `?`; its
child is not written again.
-/
import TypeNaming.ShortName
import TypeNaming.NameTree.Basic
import TypeNaming.Text.Capital
import TypeNaming.Text.Sorted

namespace TypeNaming.NameTree

open Text (capitalize)

/-! ## The readable name -/

/-- What stands between a name and the names of its children: a nullable value
reads as a prefix (`NullableInt`), all else with `Of` (`ListOfInt`). -/
def linkWord : Kind → String
  | .nullableValue => ""
  | _ => "Of"

mutual

/-- The token for member names. -/
def readable : NameTree → String
  | .node info children =>
    let own := capitalize (ShortName.simple info.name)
    match children with
    | [] => own
    | child :: others =>
      own ++ linkWord info.kind ++ "_".intercalate (readable child :: readables others)

/-- The tokens of a list of trees. -/
def readables : List NameTree → List String
  | [] => []
  | t :: ts => readable t :: readables ts

end

@[simp] theorem readables_eq_map (ts : List NameTree) : readables ts = ts.map readable := by
  induction ts with
  | nil => rfl
  | cons t ts ih => simp [readables, ih]

/-! ## The declaration -/

/-- Whether a declaration writes the labels of tuple elements. -/
inductive LabelStyle where
  | shown
  | hidden
  deriving DecidableEq, Repr

/-- The label as it follows an element. -/
def LabelStyle.suffix : LabelStyle → Option String → String
  | .shown, some label => " " ++ label
  | _, _ => ""

mutual

/-- The type as a declaration writes it. -/
def declare (labels : LabelStyle) : NameTree → String
  | .node info children =>
    let short := ShortName.qualified info.qualified
    let bare :=
      match info.kind, children with
      | .nullableValue, _ => short
      | kind, [] => if kind.onReference then short ++ "?" else short
      | .tuple, child :: others =>
        "(" ++ ", ".intercalate (declare labels child :: declareAll labels others) ++ ")"
      | _, child :: others =>
        short ++ "<" ++ ", ".intercalate (declare labels child :: declareAll labels others)
          ++ ">"
    bare ++ labels.suffix info.label

/-- The declarations of a list of trees. -/
def declareAll (labels : LabelStyle) : List NameTree → List String
  | [] => []
  | t :: ts => declare labels t :: declareAll labels ts

end

@[simp] theorem declareAll_eq_map (labels : LabelStyle) (ts : List NameTree) :
    declareAll labels ts = ts.map (declare labels) := by
  induction ts with
  | nil => rfl
  | cons t ts ih => simp [declareAll, ih]

/-- The declaration with its labels. -/
def declaration (t : NameTree) : String := t.declare .shown

/-- The declaration without labels. -/
def unlabelled (t : NameTree) : String := t.declare .hidden

/-! ## The hint -/

/-- A key for what is generated for the type. -/
def hint (t : NameTree) : String :=
  let short := ShortName.qualified t.qualified
  match t.children with
  | [] => if t.kind.isNullable then "Nullable" ++ short else short
  | children =>
    match t.kind with
    | .nullableValue => t.readable
    | .tuple => t.readable
    | _ => short ++ "<" ++ "_".intercalate (children.map declaration) ++ ">"

/-! ## The namespaces -/

/-- The namespace that the declaration leaves out, unless it is `System`. -/
def droppedNamespace? (qualified : String) : Option String :=
  match Text.after? ShortName.rootLead qualified with
  | none => none
  | some _ => (Text.enclosing? qualified).filter (· != ShortName.root)

mutual

/-- The namespaces of every node, in order and with repeats. -/
def allNamespaces : NameTree → List String
  | .node info children =>
    (droppedNamespace? info.qualified).toList ++ allNamespacesOf children

/-- The namespaces of every node of a list of trees. -/
def allNamespacesOf : List NameTree → List String
  | [] => []
  | t :: ts => allNamespaces t ++ allNamespacesOf ts

end

theorem allNamespacesOf_eq_flatMap (ts : List NameTree) :
    allNamespacesOf ts = ts.flatMap allNamespaces := by
  induction ts with
  | nil => rfl
  | cons t ts ih => simp [allNamespacesOf, ih]

/-- The namespaces below `System` that the declaration depends on, sorted. -/
def namespaces (t : NameTree) : List String :=
  Text.Sorted.ofList t.allNamespaces

end TypeNaming.NameTree
