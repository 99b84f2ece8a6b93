import SchemaProse.Schema.Reading
import SchemaProse.Synthesis.Refusal
import SchemaProse.Synthesis.Wrapper
/-!
# Synthesis — server variables

A variable of a server address has allowed values, a default, a description
and examples; each may be left out. The variables of a server make an object
schema in which each of them is a required property of type `string`. A
variable may have other members, and those that are keywords of a schema have
to be readable as such.
-/

namespace SchemaProse

/-- A variable of a server address: its fields, and its other members. -/
structure ServerVariable where
  fields : List (String × Json)
  extra : List (String × Json)

namespace ServerVariable

/-- The fields and the shapes of their values. -/
def fieldShapes : List (String × Shape) :=
  [("enum", .textList), ("default", .text), ("description", .text), ("examples", .textList)]

/-- A member is acceptable as a field: it is empty or has the field's shape. -/
def fits (shape : Shape) (j : Json) : Bool :=
  j.isNull || (shape.scalar? j).isSome

/-- The fields whose values do not fit. -/
def refused (members : List (String × Json)) : List String :=
  (fieldShapes.filter fun f =>
    match members.lookup f.1 with
    | some j => !fits f.2 j
    | none => false).map (·.1)

/-- Reads a variable; or names the fields at fault. -/
def read : Json → Except Refusal ServerVariable
  | .obj members =>
    match refused members with
    | [] =>
      .ok ⟨fieldShapes.filterMap fun f => (members.lookup f.1).map (f.1, ·),
        members.filter fun m => (fieldShapes.lookup m.1).isNone⟩
    | bad => .error ⟨.serverVariable, bad⟩
  | _ => .error ⟨.serverVariable, []⟩

/-- The members as they are written: the fields first. -/
def members (v : ServerVariable) : List (String × Json) :=
  v.fields ++ v.extra

/-- Reads the variables of a collection in order, up to the first that is
refused. -/
def readAll : List (String × Json) → Except Refusal (List (String × ServerVariable)) :=
  readEach read

/-- The members of the property that a variable becomes: its own, with the
type `string` whatever type it names. -/
def propertyMembers (v : ServerVariable) : List (String × Json) :=
  v.members.filter (fun m => m.1 != Keyword.type.name) ++
    [(Keyword.type.name, .str Json.Kind.string.name)]

/-- The properties that some variables become; missing when one of them has a
member that a schema cannot have. -/
def properties? : List (String × ServerVariable) → Option (List (String × Value))
  | [] => some []
  | (name, v) :: vs => do
    let s ← (Schema.read v.propertyMembers).toOption
    let ps ← properties? vs
    some ((name, .schema s) :: ps)

/-- The object schema of some variables, if there are any; or the refusal of
its properties. -/
def schemaOf? : List (String × ServerVariable) → Except Refusal (Option Schema)
  | [] => .ok none
  | v :: vs =>
    match properties? (v :: vs) with
    | some properties => .ok (some (.wrapper properties (some ((v :: vs).map (·.1)))))
    | none => .error ⟨.schema, [Keyword.properties.name]⟩

end ServerVariable

end SchemaProse
