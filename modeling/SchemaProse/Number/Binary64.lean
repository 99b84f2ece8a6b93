/-!
# Number — the binary64 format

A finite number of the format is `± m * 2 ^ e` with at most 53 bits in `m`
and `e` between `-1074` and `971`; asking for the leading bit unless `e` is
already the least exponent makes the pair `(m, e)` unique. Beside the finite
numbers stand two infinities and one NaN: no answer of this library depends
on the payload of a NaN.
-/

namespace SchemaProse

/-- The power `base ^ e`, or one when `e` is negative: the factor that a power
puts above the line of a fraction. The power of `-e` is the one below. -/
def wholePower (base : Nat) (e : Int) : Nat :=
  Nat.pow base e.toNat

theorem wholePower_pos {base : Nat} (h : 0 < base) (e : Int) : 0 < wholePower base e :=
  Nat.pow_pos h

/-- The pairs `(m, e)` that stand for a magnitude `m * 2 ^ e` of the format. -/
def Canonical (mantissa : Nat) (exponent : Int) : Prop :=
  mantissa < Nat.pow 2 53 ∧ -1074 ≤ exponent ∧ exponent ≤ 971 ∧
    (Nat.pow 2 52 ≤ mantissa ∨ exponent = -1074)

instance (mantissa : Nat) (exponent : Int) : Decidable (Canonical mantissa exponent) := by
  unfold Canonical; infer_instance

/-- A finite number of the format: `± mantissa * 2 ^ exponent`. Both zeros
are here, told apart by their sign. -/
structure FiniteBinary64 where
  neg : Bool
  mantissa : Nat
  exponent : Int
  canonical : Canonical mantissa exponent
deriving DecidableEq

/-- A number of the binary64 format. -/
inductive Binary64 where
  /-- A finite number. -/
  | finite (x : FiniteBinary64)
  /-- An infinity, negative or positive. -/
  | infinity (neg : Bool)
  /-- Not a number. -/
  | nan
deriving DecidableEq

namespace FiniteBinary64

/-- The zero of either sign. -/
def zero (neg : Bool) : FiniteBinary64 :=
  ⟨neg, 0, -1074, by decide⟩

/-- The magnitude is `numerator / denominator`. -/
def numerator (x : FiniteBinary64) : Nat :=
  x.mantissa * wholePower 2 x.exponent

/-- A power of two, `1` when the exponent is not negative. -/
def denominator (x : FiniteBinary64) : Nat :=
  wholePower 2 (-x.exponent)

theorem denominator_pos (x : FiniteBinary64) : 0 < x.denominator :=
  wholePower_pos (by decide) _

/-- The number is whole. -/
def isIntegral (x : FiniteBinary64) : Bool :=
  x.numerator % x.denominator == 0

/-- The number with its fraction cut off; the number itself when it is whole. -/
def truncate (x : FiniteBinary64) : Int :=
  if x.neg then -((x.numerator / x.denominator : Nat) : Int)
  else ((x.numerator / x.denominator : Nat) : Int)

/-- The whole number that this number equals, if there is one. -/
def toInt? (x : FiniteBinary64) : Option Int :=
  if x.isIntegral then some x.truncate else none

end FiniteBinary64

namespace Binary64

/-- The whole number that this number equals, if there is one. -/
def toInt? : Binary64 → Option Int
  | finite x => x.toInt?
  | _ => none

end Binary64

end SchemaProse
