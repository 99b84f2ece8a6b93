import SchemaProse.Proofs.Schema.Spelling
import SchemaProse.Proofs.Synthesis.Example
/-!
# Synthesis — the document of a wrapper

A wrapper of properties is drafted as a document and then read. Whether it is
read depends on its properties alone (`read_draft`): if each of them is, the
result is the wrapper that holds what was read, and if one is not, the document
is refused for its properties and for nothing else.
-/

namespace SchemaProse

namespace Schema

/-- The members of the document that is drafted for a wrapper. -/
def draft (properties : List (String × Json)) (required : Option (List String)) :
    List (String × Json) :=
  Keyword.members <|
    [(.type, .str "object"), (.properties, .obj properties)] ++
      (required.map fun names => (.required, .arr (names.map .str))).toList ++
      Example.Markers.drafted.wrapper

variable {properties : List (String × Json)} {required : Option (List String)}

/-- A list of names is a list of texts. -/
theorem isTextList_map_str (names : List String) :
    (Json.arr (names.map .str)).isTextList = true := by
  simp [Json.isTextList, Json.isText]

/-- **A draft is read as its properties are.** -/
theorem read_draft (properties : List (String × Json)) (required : Option (List String)) :
    read (draft properties required) =
      match Value.readMembers? properties with
      | some vs => .ok (wrapper vs required)
      | none => .error [.properties] := by
  have hproperties : Value.readGiven? Keyword.properties.shape (.obj properties) =
      (Value.readMembers? properties).map .map := rfl
  have hrequired : ∀ names : List String,
      Value.readGiven? Keyword.required.shape (.arr (names.map .str)) =
        some (.data (.arr (names.map .str))) := fun names =>
    Value.read?_of_reads (.scalar (Shape.scalar?_of_holds (isTextList_map_str names)))
  -- the other members are read whatever the properties are, so only these decide
  rw [draft, read_members]
  cases required with
  | none =>
    simp only [Option.map_none, Option.toList_none, List.append_nil, List.cons_append,
      List.map_cons, hproperties]
    cases Value.readMembers? properties <;> rfl
  | some names =>
    simp only [Option.map_some, Option.toList_some, List.cons_append, List.map_cons,
      List.nil_append, hproperties, hrequired]
    cases Value.readMembers? properties <;> rfl

end Schema

end SchemaProse
