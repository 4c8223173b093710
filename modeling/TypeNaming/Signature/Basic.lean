/-
# Signatures

A signature is a type read from text: what is known of the type, with the place
of every part as its note.  What the text alone cannot tell, which names are
value types and which are open type parameters, is in the `Context` that it is
read in.
-/
import TypeNaming.TypeFacts

namespace TypeNaming

/-- A range of byte offsets; the end is not part of it. -/
structure Span where
  start : Nat
  stop : Nat
  deriving DecidableEq, Repr

/-- What is known of a type that was read, with the place of each part. -/
abbrev Signature := TypeFacts Span

/-- Where the type was written. -/
def Signature.span (signature : Signature) : Span := signature.note

/-- What a reader of signatures is told beside the text. -/
structure Context where
  /-- Names, as they are written, of types declared elsewhere as value types. -/
  valueTypes : List String := []
  /-- Bare names that are open type parameters. -/
  typeParams : List String := []
  /-- How deep brackets may be nested. -/
  maxDepth : Nat := 64
  /-- The simple name of the union type. -/
  unionName : String := "OneOf"

end TypeNaming
