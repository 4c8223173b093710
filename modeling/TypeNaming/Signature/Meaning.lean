/-
# What a written type means

The written tree of a signature is turned into what is known of the type.

  * A keyword means its type in `System`; an open type parameter is a type
    without a name of its own; any other path names a type, a value type when
    the context or `System` says so.
  * `T?` on a value type, and `Nullable<T>`, mean the type `Nullable` over `T`;
    `T?` on any other type annotates it.
  * A tuple element without a label has the label `Item1`, `Item2`, … of its
    position, and no label is used twice or stands where another one belongs.

Arguments are looked at from left to right and before the type they belong to, a
tuple element before its label, and a type before its `?`; the first fault that
is met is the one reported.
-/
import TypeNaming.Signature.Fault
import TypeNaming.Text.Decimal
import TypeNaming.Text.Offset

namespace TypeNaming.Signature

open Text (after? lastPart)

/-- Whether the path names a value type. -/
def namesValue (context : Context) (path : String) : Bool :=
  context.valueTypes.contains path
    || ((after? ShortName.rootLead path).map ShortName.isSystemValue).getD false

/-- A type of its own, neither annotated nor a tuple. -/
def ownType (name qualified : String) (value : Bool) (args : List Signature) (span : Span) :
    Signature :=
  .mk ⟨name, qualified, true, value, false, false, []⟩ args span

/-- An open type parameter. -/
def openParameter (name : String) (value : Bool) (span : Span) : Signature :=
  .mk ⟨name, name, false, value, false, false, []⟩ [] span

/-- The tuple of the labelled elements. -/
def tupleOf (elements : List (Signature × String)) (span : Span) : Signature :=
  let qualified := "(" ++ ", ".intercalate (elements.map (·.1.facts.qualified)) ++ ")"
  .mk ⟨"ValueTuple", qualified, true, true, false, true, elements.map (·.2)⟩
    (elements.map (·.1)) span

/-- The type `Nullable` over a value type. -/
def wrapNullable (inner : Signature) (span : Span) : Signature :=
  .mk ⟨"Nullable", inner.facts.qualified ++ "?", true, true, true, false, []⟩ [inner] span

/-- The type with `?` on it, for a type that is not a value type. -/
def annotate (type : Signature) (span : Span) : Signature :=
  .mk { type.facts with annotated := true } type.args span

/-! ## Names -/

/-- The paths that spell `Nullable` out. -/
def wrapperPaths : List String := ["Nullable", "System.Nullable"]

/-- `Nullable` over its arguments; `source` is the text the spans point into. -/
def nullableOf (source : List Char) (args : List Signature) (span : Span) :
    Except Fault Signature :=
  match args with
  | [inner] =>
    if inner.facts.value && !inner.facts.annotated then .ok (wrapNullable inner span)
    else
      let found := String.ofList (Text.slice source inner.span.start inner.span.stop)
      .error ⟨.nullableOver found, inner.span⟩
  | _ => .error ⟨.nullableArity, span⟩

/-- What a path with its arguments means. -/
def namedOf (context : Context) (source : List Char) (path : String) (args : List Signature)
    (span : Span) : Except Fault Signature :=
  if context.typeParams.contains path then
    if args.isEmpty then .ok (openParameter path (context.valueTypes.contains path) span)
    else .error ⟨.argumentsOn path, span⟩
  else
    match ShortName.ofKeyword? path with
    | some type =>
      if args.isEmpty then
        .ok (ownType type.name (ShortName.rootLead ++ type.name) type.isValue [] span)
      else .error ⟨.argumentsOn path, span⟩
    | none =>
      if wrapperPaths.contains path then nullableOf source args span
      else .ok (ownType (lastPart path) path (namesValue context path) args span)

/-- What a type that starts at byte `start` means with its `?`, if it has one. -/
def underMark (type : Signature) (start : Nat) (mark : Option Span) : Except Fault Signature :=
  match mark with
  | none => .ok type
  | some mark =>
    if type.facts.annotated then .error ⟨.alreadyNullable, mark⟩
    else if type.facts.value then .ok (wrapNullable type ⟨start, mark.stop⟩)
    else .ok (annotate type ⟨start, mark.stop⟩)

/-! ## Labels -/

/-- The label of the element after `count` others, when none is written. -/
def defaultLabel (count : Nat) : String :=
  "Item" ++ toString (count + 1)

/-- The position that a label of the form `Item1`, `Item2`, … names. -/
def labelPosition? (label : String) : Option Nat :=
  match after? "Item" label with
  | none => none
  | some digits => if digits.toList.head? = some '0' then none else Text.word? digits.toList

/-- The label of the element that comes after the ones with the labels `seen`. -/
def labelOf (seen : List String) (label : Option Label) : Except Fault String :=
  match label with
  | none => .ok (defaultLabel seen.length)
  | some label =>
    if seen.contains label.text then .error ⟨.repeatedLabel label.text, label.span⟩
    else
      match labelPosition? label.text with
      | none => .ok label.text
      | some position =>
        if position = seen.length + 1 then .ok label.text
        else .error ⟨.misplacedLabel label.text position, label.span⟩

/-! ## The tree -/

mutual

/-- What a written type means. -/
def meaning (context : Context) (source : List Char) : TypeExpr → Except Fault Signature
  | .named path args span mark => do
    let args ← meanings context source args
    let type ← namedOf context source path args span
    underMark type span.start mark
  | .tuple elements span mark => do
    let elements ← elementMeanings context source [] elements
    underMark (tupleOf elements span) span.start mark

/-- What the arguments mean. -/
def meanings (context : Context) (source : List Char) :
    List TypeExpr → Except Fault (List Signature)
  | [] => .ok []
  | expr :: exprs => do
    let type ← meaning context source expr
    let types ← meanings context source exprs
    return type :: types

/-- What the elements mean that come after the ones with the labels `seen`. -/
def elementMeanings (context : Context) (source : List Char) (seen : List String) :
    List Element → Except Fault (List (Signature × String))
  | [] => .ok []
  | .mk expr label :: elements => do
    let type ← meaning context source expr
    let label ← labelOf seen label
    let others ← elementMeanings context source (seen ++ [label]) elements
    return (type, label) :: others

end

end TypeNaming.Signature
