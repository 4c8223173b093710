/-
# Named members

A union has four named members for every alternative, one of each accessor.

Two alternatives with the same readable name collide: only the first of them can
be reached by its name.  A collision is listed for every alternative but the
first that has a name, together with that first one.
-/
import TypeNaming.Accessor
import TypeNaming.Alternatives

namespace TypeNaming

/-- A named member that is generated. -/
structure NamedMember where
  accessor : Accessor
  /-- The position of the alternative. -/
  index : Nat
  name : String
  /-- The type of the alternative, as the member declares it. -/
  declaration : String
  deriving DecidableEq, Repr

/-- Two alternatives with the same readable name. -/
structure Collision where
  name : String
  first : Nat
  second : Nat
  deriving DecidableEq, Repr

namespace Alternatives

/-- The members of the alternative at a position. -/
def membersAt (index : Nat) (alternative : NameTree) : List NamedMember :=
  Accessor.all.map fun accessor =>
    ⟨accessor, index, accessor.nameFor alternative, alternative.declaration⟩

/-- The members of every alternative, in order. -/
def members (a : Alternatives) : List NamedMember :=
  a.toList.zipIdx.flatMap fun (alternative, index) => membersAt index alternative

/-- Every alternative whose readable name an earlier one has, with the first that
has it. -/
def collisions (a : Alternatives) : List Collision :=
  let names := a.toList.map (·.readable)
  names.zipIdx.filterMap fun (name, index) =>
    if names.idxOf name < index then some ⟨name, names.idxOf name, index⟩ else none

theorem length_membersAt (index : Nat) (alternative : NameTree) :
    (membersAt index alternative).length = 4 := rfl

end Alternatives

end TypeNaming
