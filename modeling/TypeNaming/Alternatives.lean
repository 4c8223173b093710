/-
# Alternatives

The alternatives of a union, one name tree each, in the order they are declared.
Two lists are equal when they are equally long and pairwise the same, so that
two unions with equal lists can share what is generated for them.
-/
import TypeNaming.NameTree.Identity
import TypeNaming.TypeFacts

namespace TypeNaming

/-- The alternatives of a union, in order. -/
structure Alternatives where
  toList : List NameTree

namespace Alternatives

/-- The alternatives of a type with the name of the union; open type parameters
are alternatives too, so that every argument keeps its position. -/
def ofUnion? {α : Type} (unionName : String) (type : TypeFacts α) : Option Alternatives :=
  if type.facts.name = unionName then some ⟨type.args.map (·.toNameTree)⟩ else none

/-- The number of alternatives. -/
def size (a : Alternatives) : Nat := a.toList.length

/-- The alternative at a position. -/
def get? (a : Alternatives) (index : Nat) : Option NameTree := a.toList[index]?

/-- Whether the two lists are one unit of generation. -/
def same (a b : Alternatives) : Bool := NameTree.sameAll a.toList b.toList

instance : BEq Alternatives := ⟨same⟩

/-- The hash that goes with `same`. -/
def identityHash (a : Alternatives) : UInt64 :=
  Hash.chain Hash.seed (a.toList.map (·.identityHash))

instance : Hashable Alternatives := ⟨identityHash⟩

/-- The key of the unit that is generated for the union. -/
def hint (a : Alternatives) : String :=
  "_".intercalate (a.toList.map (·.hint))

/-- The namespaces that the alternatives depend on, sorted. -/
def namespaces (a : Alternatives) : List String :=
  Text.Sorted.ofList (a.toList.flatMap (·.namespaces))

end Alternatives

end TypeNaming
