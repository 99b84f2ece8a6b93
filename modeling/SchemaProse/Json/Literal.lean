import SchemaProse.Json.Compact
/-!
# Json — literal text

The text by which prose quotes a value. `literal` writes a string as it is and
an array as its items' literals in brackets, at any depth; an object has its
compact text. `interpolant` is the form for running text: strings may be put
in quotes, and truth values and numbers stay values.
-/

namespace SchemaProse

namespace Json

/-- `true` or `false`. -/
def boolText (b : Bool) : String :=
  if b then "true" else "false"

/-- Literals with commas between them, in brackets. -/
def bracketed (literals : List String) : String :=
  "[" ++ ",".intercalate literals ++ "]"

mutual

/-- The literal text of a value. -/
def literal : Json → String
  | .null => "null"
  | .bool b => boolText b
  | .num n => n.plain
  | .str s => s
  | .arr items => bracketed (literals items)
  | .obj members => compact (.obj members)

/-- The literal texts of an array's items. -/
def literals : List Json → List String
  | [] => []
  | j :: js => literal j :: literals js

end

/-- What running text takes for a value. -/
inductive Interpolant where
  /-- A text. -/
  | text (s : String)
  /-- A truth value, as it is. -/
  | boolean (b : Bool)
  /-- A number, as it is. -/
  | number (n : Number)

/-- The form of a value for running text; `strict` puts strings in quotes. -/
def interpolant (strict : Bool) : Json → Interpolant
  | .str s => .text (if strict then "\"" ++ s ++ "\"" else s)
  | .bool b => .boolean b
  | .num n => .number n
  | .arr items => .text (bracketed (literals items))
  | .null => .text (compact .null)
  | .obj members => .text (compact (.obj members))

end Json

end SchemaProse
