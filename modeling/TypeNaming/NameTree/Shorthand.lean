/-
# Shorthand

A brief way to write trees by hand, as examples and tests want it: built-in
types by a short name, types of `System` and the well-known collections without
their namespace, and `?` as a flag.
-/
import TypeNaming.NameTree.Names

namespace TypeNaming.NameTree.Shorthand

/-- The short names of built-in types. -/
def shortNames : List (String × String) :=
  [ ("Int", "Int32"), ("Str", "String"), ("Bool", "Boolean"), ("Long", "Int64"),
    ("Short", "Int16"), ("Float", "Single") ]

/-- The reference types that are taken to be in `System`. -/
def systemReferences : List String :=
  ["String", "Object", "Exception", "Uri"]

/-- The generic types that are taken to be in `System.Collections.Generic`. -/
def collectionNames : List String :=
  ["List", "Dictionary", "HashSet", "IEnumerable", "IReadOnlyList", "IReadOnlyDictionary"]

/-- The name that a short name stands for. -/
def expand (name : String) : String :=
  (shortNames.lookup name).getD name

/-- The qualified name of a type without type arguments. -/
def simpleQualified (name : String) : String :=
  if ShortName.isSystemValue name || systemReferences.contains name then
    ShortName.rootLead ++ name
  else
    name

/-- The qualified name of a type with type arguments. -/
def genericQualified (name : String) : String :=
  if collectionNames.contains name then ShortName.rootLead ++ "Collections.Generic." ++ name
  else if name == "Tuple" then ShortName.rootLead ++ name
  else name

/-- A type without type arguments, by its short or simple name. -/
def simple (short : String) (nullable : Bool) : NameTree :=
  let name := expand short
  let tree := plain name (simpleQualified name)
  if !nullable then tree
  else if ShortName.isSystemValue name then nullableValue tree
  else tree.nullableReference

/-- A type with type arguments, by its simple name. -/
def generic (name : String) (arguments : List NameTree) (nullable : Bool) : NameTree :=
  let tree := NameTree.generic name (genericQualified name) arguments
  if nullable then tree.nullableReference else tree

/-- A tuple, qualified by the names of its elements. -/
def tuple (elements : List NameTree) (nullable : Bool) : NameTree :=
  let tree := NameTree.tuple ("(" ++ ", ".intercalate (elements.map qualified) ++ ")") elements
  if nullable then nullableValue tree else tree

end TypeNaming.NameTree.Shorthand
