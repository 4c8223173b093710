/-
# Types as any host reports them

A name tree can be made for any host that answers a few questions about its types.  What is
read from text answers them in one way: the elements of a tuple are its type arguments, with
the labels that go with them.  Another host may report its elements and its type arguments
as two lists of their own, and a label where the type is no tuple; `HostType` is all that
it reports, with nothing assumed of how the answers go together.

`HostType.toNameTree` makes the tree of such a type, and on types that answer as the ones do
that are read it is `TypeFacts.toNameTree` (`toNameTree_host`).
-/
import TypeNaming.TypeFacts

namespace TypeNaming

mutual

/-- What a host reports of a type.  The labels are those of the elements, which are reported
beside the type arguments. -/
inductive HostType where
  | mk (name qualified : String) (named value annotated tuple : Bool) (args : List HostType)
      (elements : List HostElement)

/-- A tuple element with its label. -/
inductive HostElement where
  | mk (label : String) (type : HostType)

end

namespace HostElement

/-- The label of the element; one that was not written is `Item1` and so on. -/
def label : HostElement → String
  | .mk label _ => label

/-- The type of the element. -/
def type : HostElement → HostType
  | .mk _ type => type

end HostElement

namespace HostType

/-- Whether it is a type of its own, not an open type parameter or the like. -/
def isNamed : HostType → Bool
  | .mk _ _ named _ _ _ _ _ => named

/-- Whether some argument is not a named type. -/
def hasUnnamed (args : List HostType) : Bool :=
  args.any fun arg => !arg.isNamed

/-- Whether some element has a label other than the default one. -/
def hasOwnLabels (elements : List HostElement) : Bool :=
  elements.any fun element => !ShortName.isDefaultLabel element.label

mutual

/-- The name tree of a type. -/
def toNameTree : HostType → NameTree
  | .mk name qualified _ value annotated tuple args elements =>
    let make := NameTree.make name qualified
    if annotated && value then
      (make .nullableValue (namedTrees args).head?.toList).markDropped (hasUnnamed args)
    else if tuple then
      if hasOwnLabels elements then make .tuple (elementTrees elements)
      else (make .tuple (namedTrees args)).markDropped (hasUnnamed args)
    else if args.isEmpty then make (.plain annotated) []
    else (make (.generic annotated) (namedTrees args)).markDropped (hasUnnamed args)

/-- The name trees of the arguments that are named types. -/
def namedTrees : List HostType → List NameTree
  | [] => []
  | arg :: args => if arg.isNamed then toNameTree arg :: namedTrees args else namedTrees args

/-- The name trees of the elements, with their labels. -/
def elementTrees : List HostElement → List NameTree
  | [] => []
  | .mk label type :: elements => (toNameTree type).withLabel label :: elementTrees elements

end

/-- The tree of the type as an element with the label. -/
def toElementTree (label : String) (type : HostType) : NameTree :=
  type.toNameTree.withLabel label

end HostType

/-! ## Types that are known by their facts -/

namespace TypeFacts

variable {α : Type}

mutual

/-- What is reported of a type whose elements are its type arguments. -/
def host : TypeFacts α → HostType
  | .mk facts args _ =>
    .mk facts.name facts.qualified facts.named facts.value facts.annotated facts.tuple
      (hosts args) (hostElements facts.labels args)

/-- What is reported of each of the types. -/
def hosts : List (TypeFacts α) → List HostType
  | [] => []
  | arg :: args => host arg :: hosts args

/-- The types as labelled elements; the shorter list ends it. -/
def hostElements : List String → List (TypeFacts α) → List HostElement
  | label :: labels, arg :: args => .mk label (host arg) :: hostElements labels args
  | _, _ => []

end

theorem isNamed_host (type : TypeFacts α) : type.host.isNamed = type.facts.named := by
  cases type
  rw [host]
  rfl

theorem hasUnnamed_hosts (args : List (TypeFacts α)) :
    HostType.hasUnnamed (hosts args) = hasUnnamed args := by
  induction args with
  | nil => rw [hosts]; rfl
  | cons arg args ih =>
      rw [hosts]
      simp only [HostType.hasUnnamed, hasUnnamed, List.any_cons, isNamed_host] at ih ⊢
      rw [ih]

theorem hasOwnLabels_hostElements : ∀ (labels : List String) (args : List (TypeFacts α)),
    HostType.hasOwnLabels (hostElements labels args)
      = (labels.zip args).any fun element => !ShortName.isDefaultLabel element.1
  | [], _ => by simp [hostElements, HostType.hasOwnLabels]
  | _ :: _, [] => by simp [hostElements, HostType.hasOwnLabels]
  | label :: labels, arg :: args => by
      have ih := hasOwnLabels_hostElements labels args
      rw [hostElements]
      simp only [HostType.hasOwnLabels, List.any_cons, List.zip_cons_cons] at ih ⊢
      rw [ih]
      rfl

mutual

/-- A host that answers as the facts do gets the tree of the facts. -/
theorem toNameTree_host : ∀ type : TypeFacts α, type.host.toNameTree = type.toNameTree
  | .mk facts args note => by
      have hnamed := namedTrees_hosts args
      have helements := elementTrees_hostElements facts.labels args
      have hempty : (hosts args).isEmpty = args.isEmpty := by
        cases args <;> rw [hosts] <;> rfl
      rw [host, HostType.toNameTree, toNameTree, hnamed, helements, hempty, hasUnnamed_hosts,
        hasOwnLabels_hostElements, hasOwnLabels]

theorem namedTrees_hosts : ∀ args : List (TypeFacts α),
    HostType.namedTrees (hosts args) = namedTrees args
  | [] => by rw [hosts, HostType.namedTrees, namedTrees]
  | arg :: args => by
      rw [hosts, HostType.namedTrees, namedTrees, isNamed_host, toNameTree_host arg,
        namedTrees_hosts args]

theorem elementTrees_hostElements : ∀ (labels : List String) (args : List (TypeFacts α)),
    HostType.elementTrees (hostElements labels args) = elementTrees labels args
  | [], _ => by simp [hostElements, HostType.elementTrees, elementTrees]
  | _ :: _, [] => by simp [hostElements, HostType.elementTrees, elementTrees]
  | label :: labels, arg :: args => by
      rw [hostElements, HostType.elementTrees, elementTrees, toNameTree_host arg,
        elementTrees_hostElements labels args]

end

end TypeFacts

end TypeNaming
