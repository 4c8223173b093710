/-
# Accessors

What a member of a union does with one of its alternatives.  The members of all
alternatives come in these four kinds, and the kind decides how the name of a
member begins.
-/
import TypeNaming.NameTree.Names

namespace TypeNaming

/-- What a member does with an alternative. -/
inductive Accessor where
  /-- Ask whether it is the one that is held. -/
  | test
  /-- Get its value. -/
  | get
  /-- Apply a function to its value. -/
  | map
  /-- Get its value, if it is the one that is held. -/
  | tryPick
  deriving DecidableEq, Repr

namespace Accessor

/-- Every accessor, in the order in which members are generated. -/
def all : List Accessor := [.test, .get, .map, .tryPick]

/-- What the names of its members begin with. -/
def lead : Accessor → String
  | .test => "Is"
  | .get => "As"
  | .map => "Map"
  | .tryPick => "TryPick"

/-- Whether its positional members are properties, while its named ones are
methods that have to be called. -/
def needsCall : Accessor → Bool
  | .test => true
  | .get => true
  | .map => false
  | .tryPick => false

/-- The name of its member for an alternative, such as `IsListOfInt`. -/
def nameFor (accessor : Accessor) (alternative : NameTree) : String :=
  accessor.lead ++ alternative.readable

theorem mem_all (accessor : Accessor) : accessor ∈ all := by
  cases accessor <;> simp [all]

end Accessor

end TypeNaming
