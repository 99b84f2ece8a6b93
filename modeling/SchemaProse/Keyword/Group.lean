import SchemaProse.Json.Basic
import SchemaProse.Keyword.Basic
/-!
# Keyword — groups of keywords

The combinators in the order of their precedence, the private markers in the
order in which extensions list them, the keywords that imply a type, and from
these the constraining keywords: a schema that carries none of them accepts
every value.
-/

namespace SchemaProse

/-- The keywords that combine several schemas. -/
inductive Combinator where
  | oneOf | anyOf | allOf
deriving DecidableEq

namespace Combinator

/-- The keyword of the combinator. -/
def keyword : Combinator → Keyword
  | oneOf => .oneOf
  | anyOf => .anyOf
  | allOf => .allOf

/-- The name that a type signature ends with. -/
def name (c : Combinator) : String :=
  c.keyword.name

/-- The combinators, the one that takes precedence first. -/
def all : List Combinator :=
  [oneOf, anyOf, allOf]

end Combinator

namespace Keyword

/-- The keywords by which synthesized schemas tell a renderer what to show. -/
def markers : List Keyword :=
  [renderType, renderAdditionalInfo, rawValue, parameterLocation]

/-- The keywords that make sense for one type only, with that type. -/
def implied : List (Keyword × Json.Kind) :=
  [(maxLength, .string), (minLength, .string), (pattern, .string),
    (contentMediaType, .string), (contentEncoding, .string),
    (multipleOf, .number), (maximum, .number), (exclusiveMaximum, .number),
    (minimum, .number), (exclusiveMinimum, .number),
    (items, .array), (maxItems, .array), (minItems, .array), (uniqueItems, .array),
    (contains, .array), (additionalItems, .array),
    (maxProperties, .object), (minProperties, .object), (required, .object),
    (properties, .object), (patternProperties, .object), (propertyNames, .object),
    (dependencies, .object), (additionalProperties, .object)]

/-- The keywords that can turn a value away. -/
def constraining : List Keyword :=
  [type, const, enum, negation, condition, consequent, alternative] ++
    Combinator.all.map Combinator.keyword ++ implied.map Prod.fst

/-- The keywords whose schemas a renderer shows below the node. -/
def expanding : List Keyword :=
  Combinator.all.map Combinator.keyword ++ [negation, condition, consequent, alternative]

end Keyword

end SchemaProse
