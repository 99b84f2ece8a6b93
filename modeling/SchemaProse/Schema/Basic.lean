import SchemaProse.Json.Basic
import SchemaProse.Keyword.Basic
/-!
# Schema — schemas and the values of their keywords

A schema holds the keywords that were given, in the order of `Keyword.all`,
and after them the members that are no keyword, as they came. A keyword's
value is plain data, a list of entries, a named collection of entries or a
schema; a *node* is a schema or a truth value, and an entry that is neither is
plain data. Writing a schema (`toJson`) lists its keywords first and then the
other members.
-/

namespace SchemaProse

mutual

/-- The value of a keyword. -/
inductive Value where
  /-- Data with no schema inside, truth values among them. -/
  | data (j : Json)
  /-- A list of entries. -/
  | list (entries : List Value)
  /-- Named entries. -/
  | map (members : List (String × Value))
  /-- A schema. -/
  | schema (s : Schema)

/-- A schema: its keywords and its other members. -/
structure Schema where
  declared : List (Keyword × Value)
  extra : List (String × Json)

end

mutual

/-- The JSON form of a value. -/
def Value.toJson : Value → Json
  | .data j => j
  | .list entries => .arr (Value.listToJson entries)
  | .map members => .obj (Value.membersToJson members)
  | .schema s => s.toJson

/-- The JSON form of a schema: the keywords first, then the other members. -/
def Schema.toJson : Schema → Json
  | ⟨declared, extra⟩ => .obj (Value.declaredToJson declared ++ extra)

/-- The JSON forms of a list's entries. -/
def Value.listToJson : List Value → List Json
  | [] => []
  | v :: vs => v.toJson :: Value.listToJson vs

/-- The JSON forms of named entries. -/
def Value.membersToJson : List (String × Value) → List (String × Json)
  | [] => []
  | (name, v) :: vs => (name, v.toJson) :: Value.membersToJson vs

/-- The JSON forms of keyword values, each under the keyword's name. -/
def Value.declaredToJson : List (Keyword × Value) → List (String × Json)
  | [] => []
  | (k, v) :: vs => (k.name, v.toJson) :: Value.declaredToJson vs

end

namespace Value

/-- The node that accepts everything, or the one that accepts nothing. -/
def bool (b : Bool) : Value :=
  .data (.bool b)

/-- The schema, if the value is one. -/
def schema? : Value → Option Schema
  | .schema s => some s
  | _ => none

/-- The value is a schema or a truth value. -/
def isNode : Value → Bool
  | .schema _ => true
  | .data (.bool _) => true
  | _ => false

/-- The value is an empty keyword's. -/
def isNull : Value → Bool
  | .data .null => true
  | _ => false

end Value

namespace Schema

/-- The value of a keyword, if it was given. -/
def value? (s : Schema) (k : Keyword) : Option Value :=
  s.declared.lookup k

/-- The keyword was given, be it empty. -/
def carries (s : Schema) (k : Keyword) : Bool :=
  (s.value? k).isSome

/-- The value of a member, by its name in the document. -/
def get? (s : Schema) (name : String) : Option Value :=
  match Keyword.ofName? name with
  | some k => s.value? k
  | none => (s.extra.lookup name).map .data

/-- The member is there, be it empty. -/
def has (s : Schema) (name : String) : Bool :=
  (s.get? name).isSome

/-- The names of the members, in the order in which they are written. -/
def keywords (s : Schema) : List String :=
  s.declared.map (·.1.name) ++ s.extra.map (·.1)

/-- Puts a value under a keyword, whether it was given before or not. -/
def set (s : Schema) (k : Keyword) (v : Value) : Schema :=
  { s with
    declared := Keyword.all.filterMap fun k' =>
      if k' = k then some (k, v) else (s.value? k').map (k', ·) }

/-- The schema with no member. -/
def empty : Schema :=
  ⟨[], []⟩

end Schema

end SchemaProse
