import SchemaProse.Constraint.Phrase
import SchemaProse.Schema.Field
/-!
# Constraint — describing a schema

The validation keywords of a schema fall into five groups: the range of a
number, the step between numbers, the length of a text, the number of items
and the number of properties. Each group makes at most one phrase, whatever
the others say, and the phrases keep this order.
-/

namespace SchemaProse

namespace Schema

/-- One end of the number range. An exclusive bound that is a number takes the
place of the inclusive one; as a truth value it says whether the inclusive
bound is strict. -/
def bound? (s : Schema) (inclusive exclusive : Keyword) : Option Bound :=
  match s.value? exclusive with
  | some (.data (.num n)) => some ⟨n, true⟩
  | some (.data (.bool strict)) => (s.number? inclusive).map (⟨·, strict⟩)
  | _ => (s.number? inclusive).map (⟨·, false⟩)

/-- The phrase for the range of a number. -/
def rangePhrase? (s : Schema) : Option Phrase :=
  (Limits.of? (s.bound? .minimum .exclusiveMinimum) (s.bound? .maximum .exclusiveMaximum)).map
    Phrase.range

/-- The phrase for the step between numbers; steps of `0.1`, `0.01` and so on
read as decimal places. -/
def stepPhrase? (s : Schema) : Option Phrase :=
  (s.number? .multipleOf).map fun step =>
    match step.decimalPlaces? with
    | some places => .decimalPlaces places
    | none => .multipleOf step

/-- The phrase for a count. -/
def countPhrase? (s : Schema) (unit : CountUnit) (low high : Keyword) : Option Phrase :=
  (Limits.of? (s.integer? low) (s.integer? high)).map (Phrase.count unit)

/-- What items are called: unique when they have to be. -/
def itemUnit (s : Schema) : CountUnit :=
  if s.affirms .uniqueItems then .uniqueItems else .items

/-- The phrases for the validation keywords, in the order of their groups. -/
def phrases (s : Schema) : List Phrase :=
  [s.rangePhrase?, s.stepPhrase?,
    s.countPhrase? .characters .minLength .maxLength,
    s.countPhrase? s.itemUnit .minItems .maxItems,
    s.countPhrase? .properties .minProperties .maxProperties].filterMap id

end Schema

namespace Value

/-- The texts that describe the validation keywords of a schema, none for any
other value. -/
def constraintTexts : Value → List String
  | .schema s => s.phrases.map Phrase.text
  | _ => []

end Value

end SchemaProse
