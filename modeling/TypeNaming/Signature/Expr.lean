/-
# Types as they are written

The tree that the grammar of signatures gives to a text, before anything is
known of the names in it:

    type     ::=  base [ `?` ]
    base     ::=  path [ `<` type { `,` type } `>` ]
               |  `(` element `,` element { `,` element } `)`
    element  ::=  type [ identifier ]

A `?` is kept with its place on the base it follows, so no type has two.
-/
import TypeNaming.Signature.Basic

namespace TypeNaming.Signature

/-- The label of a tuple element, as it is written. -/
structure Label where
  text : String
  span : Span
  deriving DecidableEq, Repr

mutual

/-- A type as it is written.  The span is that of the base; `mark` is where the
`?` stands. -/
inductive TypeExpr where
  | named (path : String) (args : List TypeExpr) (span : Span) (mark : Option Span)
  | tuple (elements : List Element) (span : Span) (mark : Option Span)

/-- A tuple element as it is written. -/
inductive Element where
  | mk (type : TypeExpr) (label : Option Label)

end

/-- The type of the element. -/
def Element.type : Element → TypeExpr
  | .mk type _ => type

/-- The type with its `?` at the place. -/
def TypeExpr.withMark (mark : Span) : TypeExpr → TypeExpr
  | .named path args span _ => .named path args span (some mark)
  | .tuple elements span _ => .tuple elements span (some mark)

end TypeNaming.Signature
