import SchemaProse.Number.Numeral
import SchemaProse.Json.Basic
import SchemaProse.Keyword.Basic
/-!
# Schema — reading scalar values

Keywords that take a truth value, a whole number or a number also accept other
spellings of one: numbers that equal a truth value, truth values and whole
binary64 numbers for an integer, and numerals in a text. Each reader answers
the value meant, or nothing when there is none. Texts and lists have no other
spelling.
-/

namespace SchemaProse

/-- The whole number that a number equals, if there is one. -/
def Number.toInt? : Number → Option Int
  | .int i => some i
  | .float x => x.toInt?

namespace Json

/-- A truth value as the whole number one or zero. -/
def boolInt (b : Bool) : Int :=
  if b then 1 else 0

/-- A truth value: itself, a number equal to zero or one, or a word. -/
def asFlag? : Json → Option Bool
  | .bool b => some b
  | .num n =>
    match n.toInt? with
    | some i => if i = 0 then some false else if i = 1 then some true else none
    | none => none
  | .str s => Numeral.flag? s.toList
  | _ => none

/-- A whole number: itself, a truth value, a whole binary64 number of at most
63 bits, or a numeral. -/
def asInteger? : Json → Option Int
  | .bool b => some (boolInt b)
  | .num (.int i) => some i
  | .num (.float x) =>
    match x.toInt? with
    | some i => if i.natAbs < Nat.pow 2 63 then some i else none
    | none => none
  | .str s => Numeral.integer? s.toList
  | _ => none

/-- A number: itself, a truth value or a numeral. -/
def asNumber? : Json → Option Number
  | .bool b => some (.int (boolInt b))
  | .num n => some n
  | .str s => Numeral.number? s.toList
  | _ => none

/-- A truth value or a number: itself, or a text that is either, the truth
value first. -/
def asFlagOrNumber? : Json → Option Json
  | .bool b => some (.bool b)
  | .num n => some (.num n)
  | .str s =>
    match Numeral.flag? s.toList with
    | some b => some (.bool b)
    | none => (Numeral.number? s.toList).map .num
  | _ => none

/-- The value is a text. -/
def isText : Json → Bool
  | .str _ => true
  | _ => false

/-- The value is a list of texts. -/
def isTextList : Json → Bool
  | .arr items => items.all isText
  | _ => false

/-- The value is a list. -/
def isList : Json → Bool
  | .arr _ => true
  | _ => false

/-- The value itself, if it has a property. -/
def given? (p : Json → Bool) (j : Json) : Option Json :=
  if p j then some j else none

end Json

/-- Reads the value of a keyword that holds no schema; the shapes that do hold
schemas have no such reading. -/
def Shape.scalar? : Shape → Json → Option Json
  | .anything, j => some j
  | .anyList, j => j.given? Json.isList
  | .text, j => j.given? Json.isText
  | .textList, j => j.given? Json.isTextList
  | .textOrList, j => j.given? fun j => j.isText || j.isTextList
  | .flag, j => j.asFlag?.map .bool
  | .integer, j => j.asInteger?.map fun i => .num (.int i)
  | .number, j => j.asNumber?.map .num
  | .flagOrNumber, j => j.asFlagOrNumber?
  | .node, _ | .nodeList, _ | .nodeOrList, _ | .nodeMap, _ => none

end SchemaProse
