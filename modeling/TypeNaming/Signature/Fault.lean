/-
# What can be wrong with a signature

A fault is a cause and the place it points at.  The code, the wording and the
advice of a cause are given here and nowhere else.
-/
import TypeNaming.Signature.Grammar

namespace TypeNaming.Signature

/-- Why a text is not a signature. -/
inductive Cause where
  /-- The text is not in the grammar; one of the parts was missing. -/
  | expected (parts : List Part)
  /-- A keyword or an open type parameter has type arguments. -/
  | argumentsOn (path : String)
  /-- Brackets are nested deeper than the limit. -/
  | tooDeep (limit : Nat)
  /-- `Nullable` has no type argument, or several. -/
  | nullableArity
  /-- `Nullable` wraps something other than a value type without `?`. -/
  | nullableOver (found : String)
  /-- `?` stands on a type that is nullable already. -/
  | alreadyNullable
  /-- A tuple label has been used before. -/
  | repeatedLabel (label : String)
  /-- A tuple label names another position than its own. -/
  | misplacedLabel (label : String) (position : Nat)
  deriving DecidableEq, Repr

/-- A cause, and the part of the text it concerns. -/
structure Fault where
  cause : Cause
  span : Span
  deriving DecidableEq, Repr

/-! ## Wording -/

/-- The parts in the order in which they are named. -/
def Part.all : List Part :=
  [.endOfText, .type, .question, .lessThan, .label]

/-- How a part is called. -/
def Part.description : Part → String
  | .endOfText => "end of input"
  | .type => "type"
  | .question => "`?`"
  | .lessThan => "`<`"
  | .label => "type name"

/-- An enumeration that ends in "or". -/
def enumerate : List String → String
  | [] => ""
  | [a] => a
  | [a, b] => a ++ " or " ++ b
  | items => ", ".intercalate items.dropLast ++ ", or " ++ (items.getLast?.getD "")

namespace Cause

/-- The number that the cause is listed under. -/
def code : Cause → String
  | .expected _ => "P001"
  | .argumentsOn _ => "P001"
  | .tooDeep _ => "P002"
  | .nullableArity => "P003"
  | .nullableOver _ => "P003"
  | .alreadyNullable => "P003"
  | .repeatedLabel _ => "P004"
  | .misplacedLabel _ _ => "P004"

/-- The cause in words. -/
def message : Cause → String
  | .expected parts =>
    "expected " ++ enumerate ((Part.all.filter parts.contains).map Part.description)
  | .argumentsOn path => "`" ++ path ++ "` takes no type arguments"
  | .tooDeep limit =>
    "signature nesting depth exceeds maximum of " ++ toString limit ++ " levels"
  | .nullableArity => "`Nullable` takes exactly one type argument"
  | .nullableOver found =>
    "`Nullable<T>` requires a non-nullable value type, found `" ++ found ++ "`"
  | .alreadyNullable => "type is already nullable"
  | .repeatedLabel label => "tuple element name `" ++ label ++ "` is a duplicate"
  | .misplacedLabel label position =>
    "tuple element name `" ++ label ++ "` is only allowed at position " ++ toString position

/-- What can be done about the cause, where there is something to say. -/
def advice : Cause → Option String
  | .nullableOver _ => some "use `?` on reference types instead"
  | .alreadyNullable => some "remove the extra `?`"
  | .misplacedLabel _ _ => some "remove the name or use a different one"
  | _ => none

end Cause

end TypeNaming.Signature
