/-!
# Number — decimals and their two layouts

A decimal is `± c * 10 ^ e`. Laid out *positionally* it is a plain run of
digits with a point where needed and never an exponent; laid out
*scientifically* it is one digit, a point and the others if there are any, and
a signed exponent of at least two digits.
-/

namespace SchemaProse

/-- The decimal digits of a natural number, `['0']` for zero. -/
def digitChars (n : Nat) : List Char :=
  Nat.toDigits 10 n

/-- An integer in decimal, with a minus sign when it is negative. It may have
any number of digits: limits that an interpreter sets to the text of an integer
are left out. -/
def intChars (i : Int) : List Char :=
  if i < 0 then '-' :: digitChars i.natAbs else digitChars i.natAbs

/-- The decimal number `± coefficient * 10 ^ exponent`. -/
structure Decimal where
  neg : Bool
  coefficient : Nat
  exponent : Int
deriving DecidableEq

namespace Decimal

/-- Takes up to `n` trailing zeros off a coefficient and adds them to the
exponent. -/
def dropZeros : Nat → Nat → Int → Nat × Int
  | 0, c, e => (c, e)
  | n + 1, c, e => if c % 10 = 0 then dropZeros n (c / 10) (e + 1) else (c, e)

/-- The same number with the shortest coefficient; zero has exponent zero. -/
def reduced (d : Decimal) : Decimal :=
  if d.coefficient = 0 then { d with exponent := 0 }
  else
    let (c, e) := dropZeros (digitChars d.coefficient).length d.coefficient d.exponent
    { d with coefficient := c, exponent := e }

/-- The digits of the coefficient. -/
def digits (d : Decimal) : List Char :=
  digitChars d.coefficient

/-- A leading minus sign for a negative number. -/
def signed (d : Decimal) (text : List Char) : List Char :=
  if d.neg then '-' :: text else text

/-- The power of ten of the first digit. -/
def leadingExponent (d : Decimal) : Int :=
  d.exponent + d.digits.length - 1

/-- The digits before the point. -/
def wholeDigits (d : Decimal) : List Char :=
  if 0 ≤ d.exponent then d.digits ++ List.replicate d.exponent.toNat '0'
  else
    let places := (-d.exponent).toNat
    if d.digits.length ≤ places then ['0'] else d.digits.take (d.digits.length - places)

/-- The digits after the point, none for a coefficient that ends at the point
or before it. -/
def fractionDigits (d : Decimal) : List Char :=
  if 0 ≤ d.exponent then []
  else
    let places := (-d.exponent).toNat
    if d.digits.length ≤ places then
      List.replicate (places - d.digits.length) '0' ++ d.digits
    else d.digits.drop (d.digits.length - places)

/-- The number without an exponent: whole digits, then a point and the
fraction if there is one. -/
def positional (d : Decimal) : List Char :=
  d.signed <| match d.fractionDigits with
    | [] => d.wholeDigits
    | fraction => d.wholeDigits ++ '.' :: fraction

/-- An exponent after the letter `e`: always a sign, never a single digit. -/
def exponentChars (e : Int) : List Char :=
  let ds := digitChars e.natAbs
  'e' :: (if e < 0 then '-' else '+') :: (if ds.length < 2 then '0' :: ds else ds)

/-- The number as one digit, the others behind a point, and an exponent. -/
def scientific (d : Decimal) : List Char :=
  d.signed <| match d.digits with
    | [] => []
    | [c] => c :: exponentChars d.leadingExponent
    | c :: cs => c :: '.' :: cs ++ exponentChars d.leadingExponent

/-- The text that marks a number as a fraction: positional from `10 ^ (-4)`
up to `10 ^ 16`, with `.0` behind a whole number, and scientific outside. -/
def marked (d : Decimal) : List Char :=
  if -4 ≤ d.leadingExponent ∧ d.leadingExponent < 16 then
    match d.fractionDigits with
    | [] => d.positional ++ ['.', '0']
    | _ => d.positional
  else d.scientific

end Decimal

end SchemaProse
