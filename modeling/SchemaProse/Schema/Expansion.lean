import SchemaProse.Schema.Extension
import SchemaProse.Schema.TypeNames
/-!
# Schema — expansion

Whether a renderer has something to show below a node: members or items, the
schemas of a combinator, negation or condition, or extensions that are not
hidden by default.
-/

namespace SchemaProse

namespace Schema

/-- The schema may describe an object or an array. -/
def maybeContainer (s : Schema) : Bool :=
  s.possibleTypes.contains Json.Kind.object.name || s.possibleTypes.contains Json.Kind.array.name

/-- There is something to show below the schema. -/
def isExpandable (s : Schema) : Bool :=
  s.maybeContainer || Keyword.expanding.any s.carries || !(s.visibleExtensions {}).isEmpty

end Schema

namespace Value

/-- There is something to show below the value; only schemas have it. -/
def isExpandable : Value → Bool
  | .schema s => s.isExpandable
  | _ => false

end Value

end SchemaProse
