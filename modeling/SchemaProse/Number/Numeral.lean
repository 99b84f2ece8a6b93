import SchemaProse.Number.Basic
import SchemaProse.Text.Trim
/-!
# Number — numerals

Readers for numbers and truth values that are written as text. Single
underscores may separate the digits of a number. A whole number may also have
zeros in front, a fraction of zeros, and blanks around it; the zeros in front
are taken off before anything else is looked at, so underscores among them
need not be single, and a minus sign may follow them. A binary64 number may
have either blanks around it or underscores inside, not both. A truth value is
one of twelve words.
-/

namespace SchemaProse

namespace Numeral

/-- The digits' value. -/
def ofDigits (ds : List Char) : Nat :=
  Nat.ofDigitChars 10 ds 0

/-- A run of one or more digits. -/
def isDigits (cs : List Char) : Bool :=
  !cs.isEmpty && cs.all Char.isDigit

/-- A run of digits without a superfluous zero in front. -/
def isWhole (cs : List Char) : Bool :=
  isDigits cs && (cs.head? != some '0' || cs.length == 1)

/-- Takes an optional sign off the front and says whether it is a minus. -/
def takeSign : List Char → Bool × List Char
  | '-' :: cs => (true, cs)
  | '+' :: cs => (false, cs)
  | cs => (false, cs)

/-- The integer of a sign and a magnitude. -/
def withSign (neg : Bool) (n : Nat) : Int :=
  if neg then -(n : Int) else n

/-- The text without its underscores, which have to be single and inside. -/
def joined? (cs : List Char) : Option (List Char) :=
  let groups := cs.splitOn '_'
  if groups.all (!·.isEmpty) then some groups.flatten else none

/-- The character belongs to the zeros in front of a number. -/
def isFiller (c : Char) : Bool :=
  c == '0' || c == '_'

/-- The text of a number from its first significant character on: without the
zeros in front and the underscores among them. What follows them is a digit or
a minus sign; before a point, or at the end, the last of them stays. -/
def significant? (cs : List Char) : Option (List Char) :=
  match cs with
  | '0' :: _ =>
    let filler := cs.takeWhile isFiller
    match cs.dropWhile isFiller with
    | [] => some [filler.getLastD '0']
    | c :: rest =>
      if c.isDigit || c == '-' then some (c :: rest)
      else if c == '.' then some (filler.getLastD '0' :: c :: rest)
      else none
  | c :: _ => if c.isDigit then some cs else none
  | [] => none

/-- The text before a point that has only zeros behind it. -/
def dropZeroFraction (cs : List Char) : List Char :=
  match cs.splitOn '.' with
  | [whole, fraction] => if isDigits fraction && fraction.all (· == '0') then whole else cs
  | _ => cs

/-- A whole number in its strict form: digits without a superfluous zero in
front, and a minus sign if it is negative. -/
def strictInteger? (cs : List Char) : Option Int :=
  let (neg, ds) := match cs with
    | '-' :: ds => (true, ds)
    | ds => (false, ds)
  if isWhole ds then some (withSign neg (ofDigits ds)) else none

/-- A whole number: blanks around it, a sign, zeros in front, digits and
possibly a point with zeros behind it. It may have any number of digits: limits
that an interpreter sets to the text of an integer are left out. -/
def integer? (cs : List Char) : Option Int := do
  let (neg, body) := takeSign (Text.trim Text.isSpace cs)
  let digits ← joined? (dropZeroFraction (← significant? body))
  strictInteger? (if neg then '-' :: digits else digits)

/-- The exponent after the digits: nothing, or a letter `e`, a sign and
digits. -/
def exponent? : List Char → Option Int
  | [] => some 0
  | c :: cs =>
    let (neg, ds) := takeSign cs
    if (c == 'e' || c == 'E') && isDigits ds then some (withSign neg (ofDigits ds)) else none

/-- An unsigned decimal as a coefficient and a power of ten: digits with at
most one point among them, at least one digit, then the exponent. -/
def decimal? (cs : List Char) : Option (Nat × Int) :=
  let whole := cs.takeWhile Char.isDigit
  let (fraction, rest) := match cs.dropWhile Char.isDigit with
    | '.' :: r => (r.takeWhile Char.isDigit, r.dropWhile Char.isDigit)
    | r => ([], r)
  if whole.isEmpty && fraction.isEmpty then none
  else (exponent? rest).map fun e => (ofDigits (whole ++ fraction), e - fraction.length)

/-- A binary64 number without a sign: an infinity or NaN by name in any case of
its letters, or the number nearest to a decimal. -/
def magnitude? (neg : Bool) (cs : List Char) : Option Binary64 :=
  let word := String.ofList (cs.map Char.toLower)
  if word = "inf" ∨ word = "infinity" then some (.infinity neg)
  else if word = "nan" then some .nan
  else (decimal? cs).map fun (c, e) => Binary64.ofDecimal neg c e

/-- A binary64 number with an optional sign and nothing else. -/
def strictFloat? (cs : List Char) : Option Binary64 :=
  let (neg, body) := takeSign cs
  magnitude? neg body

/-- A binary64 number: with blanks around it, or with underscores inside. -/
def float? (cs : List Char) : Option Binary64 :=
  match strictFloat? (Text.trim Text.isSpace cs) with
  | some x => some x
  | none => (joined? cs).bind strictFloat?

/-- A whole number if the text is one, else a binary64 number. -/
def number? (cs : List Char) : Option Number :=
  match integer? cs with
  | some i => some (.int i)
  | none => (float? cs).map .float

/-- A truth value by name, in any case of its letters. -/
def flag? (cs : List Char) : Option Bool :=
  let word := String.ofList (cs.map Char.toLower)
  if word ∈ ["0", "off", "f", "false", "n", "no"] then some false
  else if word ∈ ["1", "on", "t", "true", "y", "yes"] then some true
  else none

end Numeral

end SchemaProse
