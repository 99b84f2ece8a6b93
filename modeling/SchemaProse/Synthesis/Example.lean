import SchemaProse.Json.Literal
import SchemaProse.Settings.Basic
import SchemaProse.Synthesis.Wrapper
/-!
# Synthesis — schemas for examples

An example is a JSON value in which any part may be left undefined. Its schema
has the structure of the example: objects become wrappers of properties,
arrays become wrappers of items, and everything else becomes a raw text.
-/

namespace SchemaProse

/-- A JSON value of which any part may be undefined. -/
inductive Example where
  | undefined
  | null
  | bool (b : Bool)
  | num (n : Number)
  | str (s : String)
  | arr (items : List Example)
  | obj (members : List (String × Example))

mutual

/-- A JSON value as an example, with nothing undefined. -/
def Example.ofJson : Json → Example
  | .null => .null
  | .bool b => .bool b
  | .num n => .num n
  | .str s => .str s
  | .arr items => .arr (Example.ofItems items)
  | .obj members => .obj (Example.ofMembers members)

/-- The items of an array as examples. -/
def Example.ofItems : List Json → List Example
  | [] => []
  | j :: js => Example.ofJson j :: Example.ofItems js

/-- The members of an object as examples. -/
def Example.ofMembers : List (String × Json) → List (String × Example)
  | [] => []
  | (name, j) :: js => (name, Example.ofJson j) :: Example.ofMembers js

end

mutual

/-- The schema that shows an example. -/
def Example.toSchema (settings : Settings) : Example → Schema
  | .undefined => .rawText settings.undefinedLiteral
  | .null => .rawText settings.nullLiteral
  | .bool b => .rawText (Json.boolText b)
  | .num n => .rawText n.plain
  | .str s => .rawText s
  | .arr items => .arrayWrapper (Example.toEntries settings items)
  | .obj members => .wrapper (Example.toProperties settings members) none

/-- The schemas of an array's items. -/
def Example.toEntries (settings : Settings) : List Example → List Value
  | [] => []
  | e :: es => .schema (e.toSchema settings) :: Example.toEntries settings es

/-- The schemas of an object's members. -/
def Example.toProperties (settings : Settings) : List (String × Example) → List (String × Value)
  | [] => []
  | (name, e) :: es =>
    (name, .schema (e.toSchema settings)) :: Example.toProperties settings es

end

end SchemaProse
