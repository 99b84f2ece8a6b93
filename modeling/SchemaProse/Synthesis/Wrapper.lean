import SchemaProse.Schema.Basic
/-!
# Synthesis — schemas made for display

Synthesized schemas carry private markers that tell a renderer what to leave
out. A wrapper only holds its properties or items together: neither its type
nor additional information about it is shown. A raw value is shown as its
text.
-/

namespace SchemaProse

namespace Schema

/-- An object schema made to hold properties, with the names that are
required, if any are named. -/
def wrapper (properties : List (String × Value)) (required : Option (List String)) : Schema :=
  { declared :=
      [(.type, .data (.str "object")), (.properties, .map properties)] ++
        (match required with
          | some names => [(.required, .data (.arr (names.map .str)))]
          | none => []) ++
        [(.renderType, .bool false), (.renderAdditionalInfo, .bool false)]
    extra := [] }

/-- An array schema made to hold items. -/
def arrayWrapper (items : List Value) : Schema :=
  { declared :=
      [(.type, .data (.str "array")), (.items, .list items),
        (.renderType, .bool false), (.renderAdditionalInfo, .bool false)]
    extra := [] }

/-- A schema that is shown as a text. -/
def rawText (text : String) : Schema :=
  { declared :=
      [(.type, .data (.str "string")), (.const, .data (.str text)),
        (.renderType, .bool false), (.rawValue, .bool true)]
    extra := [] }

end Schema

end SchemaProse
