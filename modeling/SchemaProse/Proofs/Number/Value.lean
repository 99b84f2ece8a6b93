import SchemaProse.Proofs.Number.Shortest
import SchemaProse.Schema.Scalar
/-!
# Number — the value of a number

What a number stands for is a rational number, an infinity of either sign or no
number at all. A whole number and a binary64 number may have the same value, as
may the two zeros. A binary64 number equals a whole one exactly when that is
its value (`toInt?_eq_some_iff`).
-/

namespace SchemaProse

/-- What a number stands for. -/
inductive Quantity where
  /-- A rational number. -/
  | rational (q : ℚ)
  /-- An infinity, negative or positive. -/
  | infinity (neg : Bool)
  /-- Not a number. -/
  | nan
deriving DecidableEq

namespace FiniteBinary64

/-- The rational number. -/
def value (x : FiniteBinary64) : ℚ :=
  if x.neg then -x.magnitude else x.magnitude

theorem magnitude_nonneg (x : FiniteBinary64) : 0 ≤ x.magnitude := by
  unfold magnitude
  positivity

theorem magnitude_eq_abs (x : FiniteBinary64) : x.magnitude = |x.value| := by
  have h := x.magnitude_nonneg
  unfold value
  split
  · rw [abs_neg, abs_of_nonneg h]
  · rw [abs_of_nonneg h]

/-- The magnitude is whole when the denominator goes into the numerator. -/
theorem magnitude_eq_natCast_iff {x : FiniteBinary64} {k : ℕ} :
    x.magnitude = k ↔ x.numerator = k * x.denominator := by
  have hden : (x.denominator : ℚ) ≠ 0 := by exact_mod_cast x.denominator_pos.ne'
  rw [← x.numerator_div_denominator, div_eq_iff hden]
  norm_cast

/-- **A number equals a whole number when that is its value.** -/
theorem toInt?_eq_some_iff {x : FiniteBinary64} {i : ℤ} : x.toInt? = some i ↔ x.value = i := by
  unfold toInt? isIntegral
  constructor
  · intro h
    rw [Option.ite_none_right_eq_some, beq_iff_eq, Option.some.injEq] at h
    obtain ⟨hmod, rfl⟩ := h
    have hmagnitude : x.magnitude = (x.numerator / x.denominator : ℕ) :=
      magnitude_eq_natCast_iff.2 (Nat.div_mul_cancel (Nat.dvd_of_mod_eq_zero hmod)).symm
    unfold value truncate
    split <;> simp only [hmagnitude, Int.cast_neg, Int.cast_natCast]
  · intro h
    have hmagnitude : x.magnitude = i.natAbs := by
      rw [magnitude_eq_abs, h, Nat.cast_natAbs, Int.cast_abs]
    have hnum := magnitude_eq_natCast_iff.1 hmagnitude
    have htruncate : (x.truncate : ℚ) = i := by
      rw [← h, value, hmagnitude, truncate, hnum, Nat.mul_div_cancel _ x.denominator_pos]
      split <;> simp
    rw [Option.ite_none_right_eq_some, beq_iff_eq, hnum, Nat.mul_mod_left, Option.some.injEq]
    exact ⟨rfl, by exact_mod_cast htruncate⟩

/-- A number with a whole magnitude equals a whole number. -/
theorem magnitude_ne_of_toInt?_eq_none {x : FiniteBinary64} (h : x.toInt? = none) (k : ℕ) :
    x.magnitude ≠ k := by
  intro hk
  have hvalue : x.value = ((if x.neg then -(k : ℤ) else k : ℤ) : ℚ) := by
    unfold value
    split <;> simp [hk]
  rw [toInt?_eq_some_iff.2 hvalue] at h
  cases h

end FiniteBinary64

/-- What a binary64 number stands for. -/
def Binary64.value : Binary64 → Quantity
  | .finite x => .rational x.value
  | .infinity neg => .infinity neg
  | .nan => .nan

/-- What a number stands for. -/
def Number.value : Number → Quantity
  | .int i => .rational i
  | .float x => x.value

/-- A number of either kind equals a whole number when that is its value. -/
theorem Number.toInt?_eq_some_iff {n : Number} {i : ℤ} :
    n.toInt? = some i ↔ n.value = .rational i := by
  cases n with
  | int k => rw [toInt?, value, Option.some_inj, Quantity.rational.injEq, Int.cast_inj]
  | float x =>
    cases x with
    | finite x =>
      rw [toInt?, Binary64.toInt?, FiniteBinary64.toInt?_eq_some_iff, value, Binary64.value,
        Quantity.rational.injEq]
    | _ => exact iff_of_false (by rintro ⟨⟩) (by rintro ⟨⟩)

end SchemaProse
