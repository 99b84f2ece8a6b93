import SchemaProse.Schema.Field
import SchemaProse.Synthesis.Wrapper
/-!
# Schema — dependencies

An entry of `dependencies` belongs to a property, its owner, and applies when
the owner is there. An entry that is a node asks for more of the object; one
that is a list of names makes properties required. Entries of any other kind
say nothing.
-/

namespace SchemaProse

namespace Schema

/-- The entries that are nodes, under their owners. -/
def dependentNodes (s : Schema) : List (String × Value) :=
  s.dependencies.filter fun m => m.2.isNode

/-- The owners whose presence makes a property required. -/
def requiredBy (s : Schema) (property : String) : List String :=
  (s.dependencies.filter fun m => (m.2.dataItems.filterMap Json.str?).contains property).map (·.1)

end Schema

namespace Value

/-- The entries that are nodes as one object schema, if there are any. -/
def dependentSchema? : Value → Option Schema
  | .schema s =>
    match s.dependentNodes with
    | [] => none
    | nodes => some (.wrapper nodes none)
  | _ => none

/-- The owners whose presence makes a property required, if there are any. -/
def requiredBy? (property : String) : Value → Option (List String)
  | .schema s =>
    match s.requiredBy property with
    | [] => none
    | owners => some owners
  | _ => none

end Value

end SchemaProse
