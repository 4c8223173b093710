/-
# Union types

A union that was read from text keeps its signature beside its alternatives, so
that remarks about an alternative can point at the place where it is written.
-/
import TypeNaming.Failure
import TypeNaming.NamedMember
import TypeNaming.Signature.Read

namespace TypeNaming

/-- A union type as it was read. -/
structure UnionType where
  signature : Signature
  alternatives : Alternatives
  source : String

namespace UnionType

/-- The remark about a type that is not the union type. -/
def wrongType (unionName : String) (type : Signature) : Diagnostic where
  severity := .error
  message := "expected a `" ++ unionName ++ "<...>` union, found `" ++ type.facts.name ++ "`"
  span := type.span
  advice := ["list the alternatives as `" ++ unionName ++ "<T0, T1, ...>`"]
  code := some "U001"

/-- The union that a text writes. -/
def read (context : Context) (source : String) : Except Failure UnionType :=
  match Signature.read context source with
  | .error fault => .error (fault.failure source)
  | .ok type =>
    match Alternatives.ofUnion? context.unionName type with
    | some alternatives => .ok ⟨type, alternatives, source⟩
    | none => .error (.rejected [wrongType context.unionName type] source none)

/-- Where an alternative is written; past the last one, where the union is. -/
def placeOf (u : UnionType) (index : Nat) : Span :=
  (u.signature.args[index]?.map Signature.span).getD u.signature.span

/-- The remark about two alternatives with the same readable name. -/
def clashRemark (u : UnionType) (collision : Collision) : Diagnostic where
  severity := .warning
  message := "alternatives T" ++ toString collision.first ++ " and T"
    ++ toString collision.second ++ " both generate members named after `"
    ++ collision.name ++ "`"
  span := u.placeOf collision.second
  related := [⟨u.placeOf collision.first, "first used here"⟩]
  advice := ["only the first alternative can be reached through named members"]
  code := some "U002"

/-- The remarks about colliding alternatives, when there are any. -/
def warnings? (u : UnionType) : Option Failure :=
  match u.alternatives.collisions with
  | [] => none
  | collisions => some (.rejected (collisions.map u.clashRemark) u.source none)

end UnionType

end TypeNaming
