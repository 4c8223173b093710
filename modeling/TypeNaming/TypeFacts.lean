/-
# What is known of a type

`TypeFacts` is what a compiler, or the reader of signatures, reports of a type:
its names, four yes-or-no facts, and its type arguments with the labels that go
with them when it is a tuple.  Every node also carries a note of some type `α`,
such as the place where it was written; the note never matters for the names.

A nullable value type is reported as the type `Nullable` that wraps it: a value
type, annotated, with the wrapped type as its argument.

`toNameTree` makes the name tree of a type.  Arguments that are not named types,
such as open type parameters, are left out of it, and the tree is marked so;
only a tuple with labels of its own keeps all its elements.
-/
import TypeNaming.NameTree.Names

namespace TypeNaming

/-- The facts about a type that do not concern its arguments. -/
structure Facts where
  /-- The name the type is declared with. -/
  name : String
  /-- The name with its namespace and without type arguments. -/
  qualified : String
  /-- It is a type of its own, not an open type parameter or the like. -/
  named : Bool
  /-- It is a value type. -/
  value : Bool
  /-- The type itself stands under `?`. -/
  annotated : Bool
  /-- It is a tuple. -/
  tuple : Bool
  /-- The labels of the elements; a label that was not written is `Item1` and so on. -/
  labels : List String
  deriving DecidableEq, Repr

/-- What is known of a type and of its arguments. -/
inductive TypeFacts (α : Type) where
  | mk (facts : Facts) (args : List (TypeFacts α)) (note : α)

namespace TypeFacts

variable {α : Type}

/-- The facts about the type itself. -/
def facts : TypeFacts α → Facts
  | .mk facts _ _ => facts

/-- The type arguments or tuple elements, in order. -/
def args : TypeFacts α → List (TypeFacts α)
  | .mk _ args _ => args

/-- The note at the root. -/
def note : TypeFacts α → α
  | .mk _ _ note => note

/-- The elements of a tuple with their labels; the shorter list ends it. -/
def elements (type : TypeFacts α) : List (String × TypeFacts α) :=
  type.facts.labels.zip type.args

/-- Whether some element has a label other than the default one. -/
def hasOwnLabels (facts : Facts) (args : List (TypeFacts α)) : Bool :=
  (facts.labels.zip args).any fun element => !ShortName.isDefaultLabel element.1

/-- Whether some argument is not a named type. -/
def hasUnnamed (args : List (TypeFacts α)) : Bool :=
  args.any fun arg => !arg.facts.named

mutual

/-- The name tree of a type. -/
def toNameTree : TypeFacts α → NameTree
  | .mk facts args _ =>
    let make := NameTree.make facts.name facts.qualified
    if facts.annotated && facts.value then
      (make .nullableValue (namedTrees args).head?.toList).markDropped (hasUnnamed args)
    else if facts.tuple then
      if hasOwnLabels facts args then
        make .tuple (elementTrees facts.labels args)
      else
        (make .tuple (namedTrees args)).markDropped (hasUnnamed args)
    else if args.isEmpty then
      make (.plain facts.annotated) []
    else
      (make (.generic facts.annotated) (namedTrees args)).markDropped (hasUnnamed args)

/-- The name trees of the arguments that are named types. -/
def namedTrees : List (TypeFacts α) → List NameTree
  | [] => []
  | arg :: args => if arg.facts.named then toNameTree arg :: namedTrees args else namedTrees args

/-- The name trees of labelled elements. -/
def elementTrees : List String → List (TypeFacts α) → List NameTree
  | label :: labels, arg :: args => (toNameTree arg).withLabel label :: elementTrees labels args
  | _, _ => []

end

end TypeFacts

end TypeNaming
