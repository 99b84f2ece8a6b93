import SchemaProse.Constraint.Phrase
import SchemaProse.Proofs.Number.Value
/-!
# Constraint — what a text demands

A reader takes the text of a constraint apart into its words and says what the
text demands: a number within limits, a number of decimal places, a multiple of
a number, or a count within limits (`Demand.ofText?`). It knows the words and
nothing of the schema. A numeral stands for the number that a reader of
documents makes of it, and limits admit the values between their edges, without
an edge that is strict (`Limits.admitted`).
-/

namespace SchemaProse

/-! ## Limits with edges -/

/-- One edge of a range; a strict one is left out of the range. -/
structure Edge (α : Type) where
  value : α
  strict : Bool
deriving DecidableEq

namespace Edge

variable {α β : Type}

/-- The edge at the value of a function. -/
def map (f : α → β) (e : Edge α) : Edge β :=
  ⟨f e.value, e.strict⟩

/-- The edge that belongs to the range. -/
def closed (a : α) : Edge α :=
  ⟨a, false⟩

/-- What is above the edge. -/
def above [Preorder α] (e : Edge α) : Set α :=
  if e.strict then Set.Ioi e.value else Set.Ici e.value

/-- What is below the edge. -/
def below [Preorder α] (e : Edge α) : Set α :=
  if e.strict then Set.Iio e.value else Set.Iic e.value

end Edge

namespace Limits

variable {α β γ : Type}

/-- The limits at the values of a function. -/
def map (f : α → β) : Limits α → Limits β
  | .atLeast low => .atLeast (f low)
  | .atMost high => .atMost (f high)
  | .between low high => .between (f low) (f high)

/-- The values within limits. -/
def admitted [Preorder α] : Limits (Edge α) → Set α
  | .atLeast low => low.above
  | .atMost high => high.below
  | .between low high => low.above ∩ high.below

theorem map_of? (f : α → β) (low high : Option α) :
    (of? low high).map (map f) = of? (low.map f) (high.map f) := by
  cases low <;> cases high <;> rfl

theorem of?_eq_none_iff {low high : Option α} : of? low high = none ↔ low = none ∧ high = none := by
  cases low <;> cases high <;> simp [of?]

/-- Limits tell the ends that they were made of. -/
theorem of?_inj {low high low' high' : Option α} :
    of? low high = of? low' high' ↔ low = low' ∧ high = high' := by
  cases low <;> cases high <;> cases low' <;> cases high' <;> simp [of?]

/-- Limits admit what is on the right side of each end, and everything where
there is no end. -/
theorem forall_mem_admitted_iff [Preorder α] {low high : Option (Edge α)} {a : α} :
    (∀ limits ∈ of? low high, a ∈ limits.admitted) ↔
      (∀ e ∈ low, a ∈ e.above) ∧ ∀ e ∈ high, a ∈ e.below := by
  cases low <;> cases high <;> simp [of?, admitted]

end Limits

/-! ## Reading -/

/-- What the text of a constraint demands. -/
inductive Demand where
  /-- A number within limits. -/
  | range (limits : Limits (Edge Quantity))
  /-- A number with at most so many decimal places. -/
  | decimalPlaces (places : ℤ)
  /-- A multiple of a number. -/
  | multipleOf (step : Quantity)
  /-- A number of things within limits; the text may leave open what is
  counted. -/
  | count (unit : Option CountUnit) (limits : Limits (Edge ℤ))

/-- The words of a text, between its blanks. -/
def words (text : String) : List String :=
  (text.toList.splitOn ' ').map String.ofList

/-- The value of a numeral. -/
def quantity? (word : String) : Option Quantity :=
  (Numeral.number? word.toList).map Number.value

/-- The value of a numeral for a whole number. -/
def wholeNumber? (word : String) : Option ℤ :=
  Numeral.integer? word.toList

/-- A bracket at the beginning of an interval, and whether it leaves out the
edge. -/
def openingStrict? : String → Option Bool
  | "(" => some true
  | "[" => some false
  | _ => none

/-- A bracket at the end of an interval, and whether it leaves out the edge. -/
def closingStrict? : String → Option Bool
  | ")" => some true
  | "]" => some false
  | _ => none

/-- Limits from their words: a single value, a comparison or an interval. -/
def limits? {α : Type} (value? : String → Option α) : List String → Option (Limits (Edge α))
  | [word] => (value? word).map fun a => .between (.closed a) (.closed a)
  | [">", low] => (value? low).map fun a => .atLeast ⟨a, true⟩
  | [">=", low] => (value? low).map fun a => .atLeast ⟨a, false⟩
  | ["<", high] => (value? high).map fun a => .atMost ⟨a, true⟩
  | ["<=", high] => (value? high).map fun a => .atMost ⟨a, false⟩
  | [left, low, "..", high, right] => do
    let low ← value? low
    let high ← value? high
    return .between ⟨low, ← openingStrict? left⟩ ⟨high, ← closingStrict? right⟩
  | _ => none

namespace Demand

/-- A count with the name of what is counted. -/
def count? (unit : CountUnit) (front : List String) : Option Demand :=
  (limits? wholeNumber? front).map (.count (some unit))

/-- A demand that does not name what is counted is told by how it begins. -/
def uncounted? : List String → Option Demand
  | ["non-empty"] => some (.count none (.atLeast (.closed 1)))
  | ["decimal", "places", "<=", places] => (wholeNumber? places).map .decimalPlaces
  | ["multiple", "of", step] => (quantity? step).map .multipleOf
  | ws => (limits? quantity? ws).map .range

/-- The demand in words: what is counted stands at the end. -/
def ofWords? (ws : List String) : Option Demand :=
  match ws.reverse with
  | "characters" :: front => count? .characters front.reverse
  | "items" :: "unique" :: front => count? .uniqueItems front.reverse
  | "items" :: front => count? .items front.reverse
  | "properties" :: front => count? .properties front.reverse
  | _ => uncounted? ws

/-- What a text demands, if it is the text of a constraint. -/
def ofText? (text : String) : Option Demand :=
  ofWords? (words text)

end Demand

/-! ## What phrases demand -/

/-- The edge of a range that a bound makes. -/
def Bound.edge (b : Bound) : Edge Number :=
  ⟨b.value, b.strict⟩

namespace Phrase

/-- What a count demands; the text for "at least one" leaves open what is
counted. -/
def countDemand (unit : CountUnit) : Limits ℤ → Demand
  | .atLeast low => .count (if low = 1 then none else some unit) (.atLeast (.closed low))
  | .atMost high => .count (some unit) (.atMost (.closed high))
  | .between low high => .count (some unit) (.between (.closed low) (.closed high))

/-- What a phrase demands. -/
def demand : Phrase → Demand
  | range limits => .range ((limits.map Bound.edge).map (Edge.map Number.value))
  | decimalPlaces places => .decimalPlaces places
  | multipleOf step => .multipleOf step.value
  | count unit limits => countDemand unit limits

end Phrase

end SchemaProse
