import SchemaProse.Number.Binary64
/-!
# Number — rounding a quotient to binary64

A positive quotient lies in one binade `[2 ^ k, 2 ^ (k + 1))`. The format's
numbers there are the multiples of `2 ^ (k - 52)`, or of the least power
`2 ^ (-1074)` when that is larger, and the quotient goes to the nearest of
them, a half to the even one. Decimals are rounded as the quotients they are.
-/

namespace SchemaProse

/-- The natural number nearest to `num / den`, a half going to the even
neighbour. -/
def nearestEven (num den : Nat) : Nat :=
  let q := num / den
  let r := num % den
  if 2 * r < den then q else if den < 2 * r then q + 1 else q + q % 2

/-- A quotient without remainder stays as it is. -/
theorem nearestEven_mul_self (n : Nat) {den : Nat} (h : 0 < den) :
    nearestEven (n * den) den = n := by
  simp [nearestEven, Nat.mul_div_cancel _ h, h]

/-- The binade of a positive quotient: the `k` with
`2 ^ k ≤ num / den < 2 ^ (k + 1)`. The lengths of the two numbers leave two
candidates. -/
def binade (num den : Nat) : Int :=
  let k : Int := (num.log2 : Int) - den.log2
  if den * wholePower 2 k ≤ num * wholePower 2 (-k) then k else k - 1

namespace Binary64

/-- The number `± m * 2 ^ e` for a mantissa that may have just filled up its
53 bits; beyond the largest finite number, an infinity. -/
def ofScaled (neg : Bool) (m : Nat) (e : Int) : Binary64 :=
  if h : Canonical m e then .finite ⟨neg, m, e, h⟩
  else if h : Canonical (m / 2) (e + 1) then .finite ⟨neg, m / 2, e + 1, h⟩
  else .infinity neg

/-- The number of the format nearest to `± num / den`, ties to even. -/
def ofRatio (neg : Bool) (num den : Nat) : Binary64 :=
  if num = 0 then .finite (.zero neg)
  else
    let e := max (-1074) (binade num den - 52)
    ofScaled neg (nearestEven (num * wholePower 2 (-e)) (den * wholePower 2 e)) e

end Binary64

end SchemaProse
