import SchemaProse.Schema.Reading
import SchemaProse.Synthesis.Refusal
import SchemaProse.Synthesis.Wrapper
/-!
# Synthesis — channel parameters

A channel parameter has a schema, a place in a message where its value is
found, and a description; each may be left out. The parameters of a channel
make an object schema in which each of them is a required property: its own
schema, with the parameter's description and place put in.
-/

namespace SchemaProse

/-- A parameter of a channel. -/
structure Parameter where
  schema : Option Value
  location : Option String
  description : Option String
  /-- The members that are no field. -/
  extra : List (String × Json)

namespace Parameter

/-- Reads a member that may be left out or empty. The outer result is missing
when the member cannot be read. -/
def field? {α : Type} (read : Json → Option α) (members : List (String × Json))
    (name : String) : Option (Option α) :=
  match members.lookup name with
  | none => some none
  | some .null => some none
  | some j => (read j).map some

/-- The names of the fields. -/
def fieldNames : List String :=
  ["schema", "location", "description"]

/-- Reads a parameter; or names the fields at fault. -/
def read : Json → Except Refusal Parameter
  | .obj members =>
    match field? (Value.read? .node) members "schema", field? Json.str? members "location",
      field? Json.str? members "description" with
    | some schema, some location, some description =>
      .ok ⟨schema, location, description, members.filter fun m => !fieldNames.contains m.1⟩
    | schema, location, description =>
      .error ⟨.channelParameter,
        (if schema.isNone then ["schema"] else []) ++
          (if location.isNone then ["location"] else []) ++
          (if description.isNone then ["description"] else [])⟩
  | _ => .error ⟨.channelParameter, []⟩

/-- A node as a schema: `true` is the empty schema and `false` the one that
negates it. -/
def nodeSchema : Option Value → Schema
  | some (.schema s) => s
  | some (.data (.bool false)) => ⟨[(.negation, .schema .empty)], []⟩
  | _ => .empty

/-- Puts a text under a keyword, if there is one. -/
def annotate (s : Schema) (k : Keyword) : Option String → Schema
  | some text => s.set k (.data (.str text))
  | none => s

/-- The property that a parameter becomes. -/
def toSchema (p : Parameter) : Schema :=
  annotate (annotate (nodeSchema p.schema) .description p.description)
    .parameterLocation p.location

/-- Reads the parameters of a collection in order, up to the first that is
refused. -/
def readAll : List (String × Json) → Except Refusal (List (String × Parameter)) :=
  readEach read

/-- The object schema of some parameters, if there are any. -/
def schemaOf? : List (String × Parameter) → Option Schema
  | [] => none
  | p :: ps =>
    some (.wrapper ((p :: ps).map fun p => (p.1, .schema p.2.toSchema))
      (some ((p :: ps).map (·.1))))

end Parameter

end SchemaProse
