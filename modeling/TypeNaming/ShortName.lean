/-
# Short names

Built-in types have two names: the one they are declared with under `System`
(`System.Int32`) and a keyword (`int`).  This module holds the table of both,
and the two ways a name is shortened for display:

  * a simple name goes to its keyword (`simple`);
  * a qualified name goes to its keyword, with or without `?`, or else loses
    its namespace when that begins with `System` (`qualified`).

It also says which types under `System` are value types.
-/
import TypeNaming.Text.Dotted
import TypeNaming.Text.Numeric

namespace TypeNaming.ShortName

open Text (after? lastPart)

/-- The namespace whose types are shown without it. -/
def root : String := "System"

/-- The root with its dot, as it begins a qualified name. -/
def rootLead : String := "System."

/-- A type that has a keyword. -/
structure BuiltIn where
  name : String
  keyword : String
  isValue : Bool

/-- Every type that has a keyword. -/
def builtIns : List BuiltIn :=
  [ ⟨"Int32", "int", true⟩, ⟨"String", "string", false⟩, ⟨"Double", "double", true⟩,
    ⟨"Int64", "long", true⟩, ⟨"Int16", "short", true⟩, ⟨"Boolean", "bool", true⟩,
    ⟨"Object", "object", false⟩, ⟨"Decimal", "decimal", true⟩, ⟨"Single", "float", true⟩,
    ⟨"Byte", "byte", true⟩, ⟨"SByte", "sbyte", true⟩, ⟨"UInt16", "ushort", true⟩,
    ⟨"UInt32", "uint", true⟩, ⟨"UInt64", "ulong", true⟩, ⟨"Char", "char", true⟩ ]

/-- The built-in type declared with the name. -/
def named? (name : String) : Option BuiltIn :=
  builtIns.find? fun type => type.name == name

/-- The built-in type that the keyword stands for. -/
def ofKeyword? (keyword : String) : Option BuiltIn :=
  builtIns.find? fun type => type.keyword == keyword

/-- The keyword of a simple name, or the name itself. -/
def simple (name : String) : String :=
  ((named? name).map (·.keyword)).getD name

/-- Whether the built-in type has a nullable spelling of its own: the value
types do, and `string?`. -/
def BuiltIn.hasNullable (type : BuiltIn) : Bool :=
  type.isValue || type.name == "String"

/-- How the table spells what follows `System.` in a qualified name. -/
def spelling? (rest : String) : Option String :=
  match named? rest with
  | some type => some type.keyword
  | none =>
    (builtIns.find? fun type => type.hasNullable && type.name ++ "?" == rest).map
      fun type => type.keyword ++ "?"

/-- The qualified name as a declaration shows it. -/
def qualified (name : String) : String :=
  match after? rootLead name with
  | some rest => (spelling? rest).getD (lastPart rest)
  | none => name

/-- The value types under `System` that have no keyword. -/
def plainValueTypes : List String :=
  ["DateTime", "DateTimeOffset", "TimeSpan", "Guid"]

/-- Whether the simple name belongs to a value type with a keyword. -/
def isValueBuiltIn (name : String) : Bool :=
  builtIns.any fun type => type.isValue && type.name == name

/-- Whether the simple name belongs to a value type under `System`. -/
def isSystemValue (name : String) : Bool :=
  isValueBuiltIn name || plainValueTypes.contains name

/-- Whether a tuple label counts as one that was never written: it begins with
`Item` and ends in a numeric character, whatever stands between. -/
def isDefaultLabel (label : String) : Bool :=
  (after? "Item" label).isSome && (label.toList.getLast?.map Text.isNumeric).getD false

end TypeNaming.ShortName
