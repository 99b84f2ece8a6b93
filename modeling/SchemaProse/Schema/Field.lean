import SchemaProse.Keyword.Group
import SchemaProse.Schema.Basic
/-!
# Schema — fields

The values of single keywords in the form in which descriptions use them. A
keyword that is absent, empty or of another shape has no such value.
-/

namespace SchemaProse

namespace Value

/-- The number, if the value is one. -/
def number? : Value → Option Number
  | .data (.num n) => some n
  | _ => none

/-- The whole number, if the value is one. -/
def integer? : Value → Option Int
  | .data (.num (.int i)) => some i
  | _ => none

/-- The texts of a text or of a list of texts. -/
def texts? : Value → Option (List String)
  | .data (.str s) => some [s]
  | .data (.arr items) => some (items.filterMap Json.str?)
  | _ => none

/-- The entries of a map, none if the value is no map. -/
def members : Value → List (String × Value)
  | .map ms => ms
  | _ => []

/-- The items of a list of plain data, none if the value is no such list. -/
def dataItems : Value → List Json
  | .data (.arr items) => items
  | _ => []

/-- The value is `false`. -/
def isFalse : Value → Bool
  | .data (.bool false) => true
  | _ => false

/-- The value is `true`. -/
def isTrue : Value → Bool
  | .data (.bool true) => true
  | _ => false

end Value

namespace Schema

/-- The number under a keyword. -/
def number? (s : Schema) (k : Keyword) : Option Number :=
  (s.value? k).bind Value.number?

/-- The whole number under a keyword. -/
def integer? (s : Schema) (k : Keyword) : Option Int :=
  (s.value? k).bind Value.integer?

/-- The keyword is there and says `true`. -/
def affirms (s : Schema) (k : Keyword) : Bool :=
  (s.value? k).any Value.isTrue

/-- The names under `type`, as they stand there. -/
def typeNames? (s : Schema) : Option (List String) :=
  (s.value? .type).bind Value.texts?

/-- The allowed values under `enum`, none if there is no such list. -/
def enumItems (s : Schema) : List Json :=
  ((s.value? .enum).map Value.dataItems).getD []

/-- The entries of `dependencies`, none if there is no such map. -/
def dependencies (s : Schema) : List (String × Value) :=
  ((s.value? .dependencies).map Value.members).getD []

/-- The combinator that takes precedence, if the schema has one. -/
def combinator? (s : Schema) : Option Combinator :=
  Combinator.all.find? fun c => s.carries c.keyword

/-- No keyword of the schema turns a value away. -/
def isAny (s : Schema) : Bool :=
  !Keyword.constraining.any s.carries

end Schema

namespace Value

/-- The value is a node that accepts everything: `true`, or a schema without
constraining keywords. -/
def isAny : Value → Bool
  | .data (.bool b) => b
  | .schema s => s.isAny
  | _ => false

end Value

end SchemaProse
