/-
# Positional members

A positional member is named after the place of its alternative: `IsT0`,
`TryPickT3`.  Its named form does the same for the same alternative.
-/
import TypeNaming.Accessor
import TypeNaming.Alternatives
import TypeNaming.Text.Decimal

namespace TypeNaming

/-- A positional member, such as `IsT0` or `TryPickT3`. -/
structure Positional where
  accessor : Accessor
  index : Nat
  deriving DecidableEq, Repr

namespace Positional

/-- The positional member as it is written. -/
def toText (p : Positional) : String :=
  p.accessor.lead ++ "T" ++ toString p.index

/-- The index after the lead of an accessor, when the name has that form. -/
def indexAfter? (accessor : Accessor) (name : String) : Option Nat :=
  (Text.after? (accessor.lead ++ "T") name).bind fun digits => Text.word? digits.toList

/-- The positional member that a name is. -/
def ofText? (name : String) : Option Positional :=
  Accessor.all.findSome? fun accessor =>
    (indexAfter? accessor name).map fun index => ⟨accessor, index⟩

end Positional

/-- What to write in place of a positional member. -/
structure NamedForm where
  name : String
  /-- A method stands where a property was, so a call has to be added. -/
  call : Bool
  deriving DecidableEq, Repr

/-- The named form as it is written. -/
def NamedForm.toText (form : NamedForm) : String :=
  if form.call then form.name ++ "()" else form.name

/-- The named form of a positional member, when there is such an alternative. -/
def Alternatives.namedForm? (a : Alternatives) (p : Positional) : Option NamedForm :=
  (a.get? p.index).map fun alternative =>
    ⟨p.accessor.nameFor alternative, p.accessor.needsCall⟩

end TypeNaming
