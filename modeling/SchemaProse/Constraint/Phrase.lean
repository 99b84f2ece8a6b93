import SchemaProse.Number.Basic
/-!
# Constraint — phrases

A phrase says in words what a group of validation keywords demands: a range of
numbers, a step between numbers, or how many characters, items or properties
there may be. A range with both ends is written as an interval, whose brackets
are round where the end itself is left out.
-/

namespace SchemaProse

/-- Limits on one side or on both. -/
inductive Limits (α : Type) where
  | atLeast (low : α)
  | atMost (high : α)
  | between (low high : α)

/-- The limits that two optional ends make, if there is an end at all. -/
def Limits.of? {α : Type} : Option α → Option α → Option (Limits α)
  | some low, some high => some (.between low high)
  | some low, none => some (.atLeast low)
  | none, some high => some (.atMost high)
  | none, none => none

/-- An end of a range of numbers; a strict one is left out of the range. -/
structure Bound where
  value : Number
  strict : Bool
deriving DecidableEq

/-- What is counted. -/
inductive CountUnit where
  | characters | items | uniqueItems | properties
deriving DecidableEq

/-- What the counted things are called. -/
def CountUnit.name : CountUnit → String
  | characters => "characters"
  | items => "items"
  | uniqueItems => "unique items"
  | properties => "properties"

/-- What a group of validation keywords demands. -/
inductive Phrase where
  /-- A number within limits. -/
  | range (limits : Limits Bound)
  /-- A number with at most so many decimal places. -/
  | decimalPlaces (places : Nat)
  /-- A multiple of a number. -/
  | multipleOf (step : Number)
  /-- A number of things within limits. -/
  | count (unit : CountUnit) (limits : Limits Int)

namespace Phrase

/-- The text of a range of numbers. -/
def rangeText : Limits Bound → String
  | .between low high =>
    (if low.strict then "(" else "[") ++ " " ++ low.value.plain ++ " .. " ++ high.value.plain
      ++ " " ++ (if high.strict then ")" else "]")
  | .atLeast low => (if low.strict then ">" else ">=") ++ " " ++ low.value.plain
  | .atMost high => (if high.strict then "<" else "<=") ++ " " ++ high.value.plain

/-- An integer in decimal. -/
def intText (i : Int) : String :=
  String.ofList (intChars i)

/-- The text of a count. Equal limits are one number, and the limit "at least
one" has a word of its own that does not name what is counted. -/
def countText (unit : CountUnit) : Limits Int → String
  | .between low high =>
    if low = high then intText low ++ " " ++ unit.name
    else "[ " ++ intText low ++ " .. " ++ intText high ++ " ] " ++ unit.name
  | .atMost high => "<= " ++ intText high ++ " " ++ unit.name
  | .atLeast low =>
    if low = 1 then "non-empty" else ">= " ++ intText low ++ " " ++ unit.name

/-- The text of a phrase. -/
def text : Phrase → String
  | range limits => rangeText limits
  | decimalPlaces places => "decimal places <= " ++ intText places
  | multipleOf step => "multiple of " ++ step.plain
  | count unit limits => countText unit limits

end Phrase

end SchemaProse
