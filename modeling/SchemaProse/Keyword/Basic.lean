/-!
# Keyword — the keywords of a schema

Each keyword has a name, which is the member name it has in a document, and a
shape, which is the form of value it takes. A keyword also has an identifier,
the spelling in lower case with underscores that programs use for it; a
document that carries an identifier instead of the name is read with the
keyword present but empty. `all` lists the keywords in the order in which a
schema is written.
-/

namespace SchemaProse

/-- The forms of value that keywords take. -/
inductive Shape where
  /-- Any value, kept as given. -/
  | anything
  /-- A list of any values, kept as given. -/
  | anyList
  /-- A text. -/
  | text
  /-- A list of texts. -/
  | textList
  /-- A text or a list of texts. -/
  | textOrList
  /-- A truth value. -/
  | flag
  /-- A whole number. -/
  | integer
  /-- A number. -/
  | number
  /-- A truth value or a number. -/
  | flagOrNumber
  /-- A schema or a truth value. -/
  | node
  /-- A list of entries, each of them a schema when it is an object. -/
  | nodeList
  /-- A single node, or a list of entries. -/
  | nodeOrList
  /-- An object whose members are entries. -/
  | nodeMap
deriving DecidableEq

/-- The keywords that a schema gives a meaning to. -/
inductive Keyword where
  | schemaId | dialect | reference | comment | title | description | defaultValue | examples
  | readOnly | writeOnly | deprecated
  | type | const | enum | format
  | multipleOf | minimum | maximum | exclusiveMinimum | exclusiveMaximum
  | minLength | maxLength | pattern | contentMediaType | contentEncoding
  | items | additionalItems | contains | minItems | maxItems | uniqueItems
  | properties | patternProperties | additionalProperties | propertyNames | required
  | minProperties | maxProperties | dependencies | definitions
  | negation | oneOf | anyOf | allOf | condition | consequent | alternative
  | renderType | renderAdditionalInfo | rawValue | parameterLocation
deriving DecidableEq

namespace Keyword

/-- What there is to know about a keyword. -/
structure Entry where
  name : String
  identifier : String
  shape : Shape

/-- The table of the keywords. -/
def entry : Keyword → Entry
  | schemaId => ⟨"$id", "id_", .text⟩
  | dialect => ⟨"$schema", "schema_dialect", .text⟩
  | reference => ⟨"$ref", "ref", .text⟩
  | comment => ⟨"$comment", "comment", .text⟩
  | title => ⟨"title", "title", .text⟩
  | description => ⟨"description", "description", .text⟩
  | defaultValue => ⟨"default", "default", .anything⟩
  | examples => ⟨"examples", "examples", .anyList⟩
  | readOnly => ⟨"readOnly", "read_only", .flag⟩
  | writeOnly => ⟨"writeOnly", "write_only", .flag⟩
  | deprecated => ⟨"deprecated", "deprecated", .flag⟩
  | type => ⟨"type", "type", .textOrList⟩
  | const => ⟨"const", "const", .anything⟩
  | enum => ⟨"enum", "enum", .anyList⟩
  | format => ⟨"format", "format", .text⟩
  | multipleOf => ⟨"multipleOf", "multiple_of", .number⟩
  | minimum => ⟨"minimum", "minimum", .number⟩
  | maximum => ⟨"maximum", "maximum", .number⟩
  | exclusiveMinimum => ⟨"exclusiveMinimum", "exclusive_minimum", .flagOrNumber⟩
  | exclusiveMaximum => ⟨"exclusiveMaximum", "exclusive_maximum", .flagOrNumber⟩
  | minLength => ⟨"minLength", "min_length", .integer⟩
  | maxLength => ⟨"maxLength", "max_length", .integer⟩
  | pattern => ⟨"pattern", "pattern", .text⟩
  | contentMediaType => ⟨"contentMediaType", "content_media_type", .text⟩
  | contentEncoding => ⟨"contentEncoding", "content_encoding", .text⟩
  | items => ⟨"items", "items", .nodeOrList⟩
  | additionalItems => ⟨"additionalItems", "additional_items", .node⟩
  | contains => ⟨"contains", "contains", .node⟩
  | minItems => ⟨"minItems", "min_items", .integer⟩
  | maxItems => ⟨"maxItems", "max_items", .integer⟩
  | uniqueItems => ⟨"uniqueItems", "unique_items", .flag⟩
  | properties => ⟨"properties", "properties", .nodeMap⟩
  | patternProperties => ⟨"patternProperties", "pattern_properties", .nodeMap⟩
  | additionalProperties => ⟨"additionalProperties", "additional_properties", .node⟩
  | propertyNames => ⟨"propertyNames", "property_names", .node⟩
  | required => ⟨"required", "required", .textList⟩
  | minProperties => ⟨"minProperties", "min_properties", .integer⟩
  | maxProperties => ⟨"maxProperties", "max_properties", .integer⟩
  | dependencies => ⟨"dependencies", "dependencies", .nodeMap⟩
  | definitions => ⟨"definitions", "definitions", .nodeMap⟩
  | negation => ⟨"not", "not_", .node⟩
  | oneOf => ⟨"oneOf", "one_of", .nodeList⟩
  | anyOf => ⟨"anyOf", "any_of", .nodeList⟩
  | allOf => ⟨"allOf", "all_of", .nodeList⟩
  | condition => ⟨"if", "if_", .node⟩
  | consequent => ⟨"then", "then", .node⟩
  | alternative => ⟨"else", "else_", .node⟩
  | renderType => ⟨"x-schema-private-render-type", "render_type", .flag⟩
  | renderAdditionalInfo =>
    ⟨"x-schema-private-render-additional-info", "render_additional_info", .flag⟩
  | rawValue => ⟨"x-schema-private-raw-value", "raw_value", .flag⟩
  | parameterLocation => ⟨"x-schema-private-parameter-location", "parameter_location", .text⟩

/-- The member name in a document. -/
def name (k : Keyword) : String :=
  k.entry.name

/-- The spelling with underscores. -/
def identifier (k : Keyword) : String :=
  k.entry.identifier

/-- The form of value the keyword takes. -/
def shape (k : Keyword) : Shape :=
  k.entry.shape

/-- The keywords in the order in which a schema is written. -/
def all : List Keyword :=
  [schemaId, dialect, reference, comment, title, description, defaultValue, examples,
    readOnly, writeOnly, deprecated,
    type, const, enum, format,
    multipleOf, minimum, maximum, exclusiveMinimum, exclusiveMaximum,
    minLength, maxLength, pattern, contentMediaType, contentEncoding,
    items, additionalItems, contains, minItems, maxItems, uniqueItems,
    properties, patternProperties, additionalProperties, propertyNames, required,
    minProperties, maxProperties, dependencies, definitions,
    negation, oneOf, anyOf, allOf, condition, consequent, alternative,
    renderType, renderAdditionalInfo, rawValue, parameterLocation]

/-- The list leaves out no keyword. -/
theorem mem_all (k : Keyword) : k ∈ all := by
  cases k <;> decide

/-- The keyword of a member name. -/
def ofName? (s : String) : Option Keyword :=
  all.find? fun k => k.name == s

/-- A keyword is found by its name. -/
theorem ofName?_name (k : Keyword) : ofName? k.name = some k := by
  cases k <;> decide

end Keyword

end SchemaProse
