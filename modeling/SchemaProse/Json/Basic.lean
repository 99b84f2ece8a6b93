import SchemaProse.Number.Basic
/-!
# Json — values

A JSON value keeps the order of its object members and the kind of its
numbers. Documents have no repeated member name; nothing here depends on that,
and a look-up takes the first member of the name.
-/

namespace SchemaProse

/-- A JSON value. -/
inductive Json where
  | null
  | bool (b : Bool)
  | num (n : Number)
  | str (s : String)
  | arr (items : List Json)
  | obj (members : List (String × Json))

namespace Json

/-- The six kinds of JSON values. -/
inductive Kind where
  | null | boolean | number | string | array | object
deriving DecidableEq

/-- The name that a schema's `type` keyword has for the kind. -/
def Kind.name : Kind → String
  | .null => "null"
  | .boolean => "boolean"
  | .number => "number"
  | .string => "string"
  | .array => "array"
  | .object => "object"

/-- The kind of a value. -/
def kind : Json → Kind
  | .null => .null
  | .bool _ => .boolean
  | .num _ => .number
  | .str _ => .string
  | .arr _ => .array
  | .obj _ => .object

/-- The value is `null`. -/
def isNull : Json → Bool
  | .null => true
  | _ => false

/-- The text of a string value. -/
def str? : Json → Option String
  | .str s => some s
  | _ => none

/-- The items of an array. -/
def arr? : Json → Option (List Json)
  | .arr items => some items
  | _ => none

/-- The members of an object. -/
def obj? : Json → Option (List (String × Json))
  | .obj members => some members
  | _ => none

/-- The member of a name in an object. -/
def member? (j : Json) (name : String) : Option Json :=
  j.obj?.bind (·.lookup name)

end Json

end SchemaProse
