import SchemaProse.Schema.Field
/-!
# Schema — type names

The names of the types that a schema may describe. A union of names is kept in
a normal form: each name once, where it first stood, and no `integer` beside a
`number`. A schema that declares no type is described by its constant, by its
allowed values or by the keywords it carries, the first of these that there
is.
-/

namespace SchemaProse

/-- The normal form of a union of type names. -/
def unionNames (names : List String) : List String :=
  let distinct := names.eraseDups
  if "number" ∈ distinct then distinct.filter (· != "integer") else distinct

/-- The type names of some values, each once. -/
def kindNames (values : List Json) : List String :=
  (values.map fun j => j.kind.name).eraseDups

namespace Schema

/-- The union under `type`. -/
def declaredTypes? (s : Schema) : Option (List String) :=
  s.typeNames?.map unionNames

/-- The types that the carried keywords make sense for. -/
def impliedTypes (s : Schema) : List String :=
  ((Keyword.implied.filter fun p => s.carries p.1).map fun p => p.2.name).eraseDups

/-- The names of the types that the schema may describe. -/
def possibleTypes (s : Schema) : List String :=
  match s.declaredTypes? with
  | some names => names
  | none =>
    match s.value? .const with
    | some v => [v.toJson.kind.name]
    | none => if s.enumItems.isEmpty then s.impliedTypes else kindNames s.enumItems

end Schema

end SchemaProse
