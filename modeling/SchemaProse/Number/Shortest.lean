import SchemaProse.Number.Decimal
import SchemaProse.Number.Rounding
/-!
# Number — the shortest decimal that reads back

Every finite binary64 number has a decimal of at most 17 digits that rounds to
it. `shortest` takes the fewest digits that do: for `1, 2, …, 17` digits it
tries the number's two neighbours on that grid of decimals, the nearer first,
and the first one that reads back wins. By construction the result either has
been read back or is the number's exact decimal expansion.
-/

namespace SchemaProse

namespace Binary64

/-- The number nearest to the decimal `± c * 10 ^ e`. The two outer tests only
keep the powers of ten small: from `10 ^ 310` on everything is infinite, and
below `10 ^ (-330)` everything is zero. -/
def ofDecimal (neg : Bool) (c : Nat) (e : Int) : Binary64 :=
  if c = 0 then .finite (.zero neg)
  else if 310 < e then .infinity neg
  else if e + (digitChars c).length < -330 then .finite (.zero neg)
  else ofRatio neg (c * wholePower 10 e) (wholePower 10 (-e))

end Binary64

namespace FiniteBinary64

/-- The power of ten of the first digit of a positive quotient: the `k` with
`10 ^ k ≤ num / den < 10 ^ (k + 1)`. -/
def decade (num den : Nat) : Int :=
  if den ≤ num then ((digitChars (num / den)).length : Int) - 1
  else -((digitChars ((den - 1) / num)).length : Int)

/-- The exact decimal expansion. -/
def exactDecimal (x : FiniteBinary64) : Decimal :=
  if 0 ≤ x.exponent then ⟨x.neg, x.numerator, 0⟩
  else ⟨x.neg, x.mantissa * wholePower 5 (-x.exponent), x.exponent⟩

/-- A decimal that rounds to the number. -/
def readsBack (x : FiniteBinary64) (d : Decimal) : Bool :=
  Binary64.ofDecimal d.neg d.coefficient d.exponent == .finite x

/-- The two multiples of `10 ^ g` around the number, the nearer first; of two
equally near ones the even first. -/
def neighbours (x : FiniteBinary64) (g : Int) : List Decimal :=
  let num := x.numerator * wholePower 10 (-g)
  let den := x.denominator * wholePower 10 g
  let below := num / den
  let near := nearestEven num den
  let far := if near = below then below + 1 else below
  [⟨x.neg, near, g⟩, ⟨x.neg, far, g⟩]

/-- The shortest decimal that reads back as the number and, of those, the
nearest. -/
def shortest (x : FiniteBinary64) : Decimal :=
  if x.mantissa = 0 then ⟨x.neg, 0, 0⟩
  else
    let k := decade x.numerator x.denominator
    let grids := (List.range 17).map fun (n : Nat) => k - n
    match grids.findSome? fun g => (x.neighbours g).find? fun d => x.readsBack d with
    | some d => d.reduced
    | none => x.exactDecimal.reduced

end FiniteBinary64

end SchemaProse
