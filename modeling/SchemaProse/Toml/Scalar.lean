import SchemaProse.Json.Basic
import SchemaProse.Number.Numeral
/-!
# Toml — bare values

The values that are written as one token without quotes: truth values, whole
numbers to four bases, binary64 numbers, dates and times. Dates and times have
no JSON form; they read as `null`, which no setting takes. Whole numbers may have
any number of digits: limits that an interpreter sets to them are left out.
-/

namespace SchemaProse

namespace Toml

/-- The characters of bare values. -/
def isTokenChar (c : Char) : Bool :=
  c.isAlphanum || c == '+' || c == '-' || c == '.' || c == '_' || c == ':'

/-- Runs of digits of a kind with single underscores between them, joined. -/
def groups? (isDigit : Char → Bool) (cs : List Char) : Option (List Char) :=
  let groups := cs.splitOn '_'
  if groups.all fun g => !g.isEmpty && g.all isDigit then some groups.flatten else none

/-- A whole number to a base other than ten. -/
def based? : List Char → Option Nat
  | '0' :: 'x' :: cs =>
    (groups? (fun c => c.isDigit || ('a' ≤ c.toLower && c.toLower ≤ 'f')) cs).map
      (Nat.ofDigitChars 16 · 0)
  | '0' :: 'o' :: cs => (groups? (fun c => '0' ≤ c && c ≤ '7') cs).map (Nat.ofDigitChars 8 · 0)
  | '0' :: 'b' :: cs => (groups? (fun c => c == '0' || c == '1') cs).map (Nat.ofDigitChars 2 · 0)
  | _ => none

/-- The exponent of a binary64 number. -/
def exponent? (cs : List Char) : Option Int :=
  let (neg, ds) := Numeral.takeSign cs
  (groups? Char.isDigit ds).map fun ds => Numeral.withSign neg (Numeral.ofDigits ds)

/-- The whole digits and the digits after the point, which has to be followed
by some. -/
def mantissa? (cs : List Char) : Option (List Char × List Char) :=
  match cs.splitOn '.' with
  | [whole] => (groups? Char.isDigit whole).map (·, [])
  | [whole, fraction] => do
    let whole ← groups? Char.isDigit whole
    let fraction ← groups? Char.isDigit fraction
    some (whole, fraction)
  | _ => none

/-- An unsigned number. -/
def magnitude? (neg : Bool) (cs : List Char) : Option Number :=
  if cs = ['i', 'n', 'f'] then some (.float (.infinity neg))
  else if cs = ['n', 'a', 'n'] then some (.float .nan)
  else
    let isMark (c : Char) := c == 'e' || c == 'E'
    match mantissa? (cs.takeWhile (!isMark ·)), cs.dropWhile (!isMark ·) with
    | some (whole, fraction), [] =>
      if !Numeral.isWhole whole then none
      else if fraction.isEmpty then some (.int (Numeral.withSign neg (Numeral.ofDigits whole)))
      else some (.float (.ofDecimal neg (Numeral.ofDigits (whole ++ fraction)) (-fraction.length)))
    | some (whole, fraction), _ :: e =>
      if !Numeral.isWhole whole then none
      else (exponent? e).map fun e =>
        .float (.ofDecimal neg (Numeral.ofDigits (whole ++ fraction)) (e - fraction.length))
    | none, _ => none

/-- A number. -/
def number? (cs : List Char) : Option Number :=
  match based? cs with
  | some n => some (.int n)
  | none =>
    let (neg, body) := Numeral.takeSign cs
    magnitude? neg body

/-- A field of a date or time: so many digits, and a value within limits. -/
def isField (digits low high : Nat) (cs : List Char) : Bool :=
  cs.length == digits && cs.all Char.isDigit &&
    low ≤ Numeral.ofDigits cs && Numeral.ofDigits cs ≤ high

/-- The number of days of a month. -/
def daysIn (year month : Nat) : Nat :=
  if month = 2 then
    if year % 4 = 0 ∧ (year % 100 ≠ 0 ∨ year % 400 = 0) then 29 else 28
  else if month = 4 ∨ month = 6 ∨ month = 9 ∨ month = 11 then 30
  else 31

/-- A date of the calendar. -/
def isDate (cs : List Char) : Bool :=
  match cs.splitOn '-' with
  | [y, m, d] =>
    isField 4 1 9999 y && isField 2 1 12 m &&
      isField 2 1 (daysIn (Numeral.ofDigits y) (Numeral.ofDigits m)) d
  | _ => false

/-- A time of the day, with seconds and possibly a fraction of them. -/
def isClock (cs : List Char) : Bool :=
  match cs.splitOn ':' with
  | [h, m, s] =>
    isField 2 0 23 h && isField 2 0 59 m &&
      match s.splitOn '.' with
      | [s] => isField 2 0 59 s
      | [s, fraction] => isField 2 0 59 s && Numeral.isDigits fraction
      | _ => false
  | _ => false

/-- The distance of a time zone, if there is any. -/
def isOffset : List Char → Bool
  | [] => true
  | ['Z'] | ['z'] => true
  | sign :: cs =>
    (sign == '+' || sign == '-') &&
      match cs.splitOn ':' with
      | [h, m] => isField 2 0 23 h && isField 2 0 59 m
      | _ => false

/-- A time of the day that may name a time zone. -/
def isZonedClock (cs : List Char) : Bool :=
  let inClock (c : Char) := c.isDigit || c == ':' || c == '.'
  isClock (cs.takeWhile inClock) && isOffset (cs.dropWhile inClock)

/-- A date, a time, or both with a letter between them. -/
def isMoment (cs : List Char) : Bool :=
  isDate cs || isClock cs ||
    (isDate (cs.take 10) &&
      match cs.drop 10 with
      | c :: rest => (c == 'T' || c == 't') && isZonedClock rest
      | [] => false)

/-- The value of one token. -/
def scalar? (token : List Char) : Option Json :=
  if token = ['t', 'r', 'u', 'e'] then some (.bool true)
  else if token = ['f', 'a', 'l', 's', 'e'] then some (.bool false)
  else if isMoment token then some .null
  else (number? token).map .num

/-- A bare value from the front of the text, and what follows it. A date may
be followed by a blank and a time that belongs to it. -/
def bareValue? (cs : List Char) : Option (Json × List Char) :=
  let token := cs.takeWhile isTokenChar
  let rest := cs.dropWhile isTokenChar
  let time := rest.tail.takeWhile isTokenChar
  if isDate token && rest.head? == some ' ' && isZonedClock time then
    some (.null, rest.tail.dropWhile isTokenChar)
  else (scalar? token).map (·, rest)

end Toml

end SchemaProse
