import Mathlib.Algebra.Order.Field.Power
import Mathlib.Data.Int.Log
import Mathlib.Data.Nat.Cast.Order.Field
import Mathlib.Data.Rat.Floor
import Mathlib.Tactic.FieldSimp
import Mathlib.Tactic.Linarith
import Mathlib.Tactic.NormNum
import Mathlib.Tactic.Positivity
import Mathlib.Tactic.Ring
import SchemaProse.Number.Shortest
/-!
# Number — rounding depends on the quotient only

The number that a quotient is rounded to depends on the rational number that
the quotient stands for and not on how it is written (`ofRatio_congr`): its
binade is the integer logarithm (`binade_eq_log`), and within the binade only
the ratio is looked at. A magnitude of the format is rounded to itself
(`ofRatio_of_div_eq_magnitude`), and a natural number to a whole one. A decimal
is rounded as the rational number it is (`ofDecimal_congr`): the tests that
keep the powers of ten small change nothing (`ofDecimal_eq_ofRatio`).
-/

namespace SchemaProse

/-! ## Powers above and below the line -/

theorem wholePower_natCast (base n : ℕ) : wholePower base n = base ^ n :=
  rfl

theorem wholePower_neg_natCast (base n : ℕ) : wholePower base (-n) = 1 := by
  rw [wholePower, Int.toNat_neg_natCast]
  rfl

theorem wholePower_mono {base : ℕ} (h : 0 < base) {e e' : ℤ} (he : e ≤ e') :
    wholePower base e ≤ wholePower base e' :=
  Nat.pow_le_pow_right h (Int.toNat_le_toNat he)

theorem wholePower_add (base : ℕ) {e e' : ℤ} (h : 0 ≤ e) (h' : 0 ≤ e') :
    wholePower base (e + e') = wholePower base e * wholePower base e' := by
  rw [wholePower, wholePower, wholePower, Int.toNat_add h h']
  exact Nat.pow_add base _ _

/-- The factors above and below the line make the power. -/
theorem wholePower_div (base : ℕ) (e : ℤ) :
    (wholePower base e : ℚ) / wholePower base (-e) = (base : ℚ) ^ e := by
  obtain ⟨n, rfl | rfl⟩ := e.eq_nat_or_neg
  · rw [wholePower_natCast, wholePower_neg_natCast]
    simp
  · rw [wholePower_neg_natCast, neg_neg, wholePower_natCast]
    simp

/-! ## The nearest natural number -/

/-- A common factor changes nothing. -/
theorem nearestEven_mul_right (a b : ℕ) {t : ℕ} (ht : 0 < t) :
    nearestEven (a * t) (b * t) = nearestEven a b := by
  have hremainder : a * t % (b * t) = a % b * t := Nat.mul_mod_mul_right t a b
  have hbelow : 2 * (a % b * t) < b * t ↔ 2 * (a % b) < b := by
    rw [← Nat.mul_assoc, Nat.mul_lt_mul_right ht]
  have habove : b * t < 2 * (a % b * t) ↔ b < 2 * (a % b) := by
    rw [← Nat.mul_assoc, Nat.mul_lt_mul_right ht]
  simp only [nearestEven, Nat.mul_div_mul_right a b ht, hremainder, hbelow, habove]

/-- Only the ratio counts. -/
theorem nearestEven_congr {a b c d : ℕ} (hb : 0 < b) (hd : 0 < d) (h : a * d = c * b) :
    nearestEven a b = nearestEven c d := by
  calc nearestEven a b = nearestEven (a * d) (b * d) := (nearestEven_mul_right a b hd).symm
    _ = nearestEven (c * b) (d * b) := by rw [h, Nat.mul_comm b d]
    _ = nearestEven c d := nearestEven_mul_right c d hb

/-- What is less than a half goes to zero. -/
theorem nearestEven_eq_zero {a b : ℕ} (h : 2 * a < b) : nearestEven a b = 0 := by
  have hlt : a < b := by omega
  simp only [nearestEven, Nat.div_eq_of_lt hlt, Nat.mod_eq_of_lt hlt, if_pos h]

/-- Rounding adds less than one. -/
theorem nearestEven_le (a b : ℕ) : nearestEven a b ≤ a / b + 1 := by
  have hodd : a / b % 2 ≤ 1 := Nat.le_of_lt_succ (Nat.mod_lt _ two_pos)
  simp only [nearestEven]
  split
  · exact Nat.le_succ _
  · split
    · exact le_rfl
    · exact Nat.add_le_add_left hodd _

/-! ## The binade -/

/-- The two powers around a number determine its logarithm. -/
theorem log_two_eq {q : ℚ} {k : ℤ} (hlow : (2 : ℚ) ^ k ≤ q) (hhigh : q < (2 : ℚ) ^ (k + 1)) :
    Int.log 2 q = k := by
  have hq : 0 < q := lt_of_lt_of_le (by positivity) hlow
  have hge : k ≤ Int.log 2 q := (Int.zpow_le_iff_le_log (by decide) hq).1 (by simpa using hlow)
  have hlt : Int.log 2 q < k + 1 :=
    (Int.lt_zpow_iff_log_lt (by decide) hq).1 (by simpa using hhigh)
  omega

/-- The test for a binade compares the quotient with a power. -/
theorem mul_wholePower_le_iff {num den : ℕ} (hden : 0 < den) (k : ℤ) :
    den * wholePower 2 k ≤ num * wholePower 2 (-k) ↔ (2 : ℚ) ^ k ≤ (num : ℚ) / den := by
  have hbelow : (0 : ℚ) < wholePower 2 (-k) := by exact_mod_cast wholePower_pos (by decide) (-k)
  have hden' : (0 : ℚ) < den := by exact_mod_cast hden
  have hpower := wholePower_div 2 k
  rw [Nat.cast_ofNat] at hpower
  rw [← hpower, div_le_div_iff₀ hbelow hden', mul_comm (wholePower 2 k : ℚ)]
  norm_cast

/-- **The binade of a quotient is its integer logarithm.** -/
theorem binade_eq_log {num den : ℕ} (hnum : 0 < num) (hden : 0 < den) :
    binade num den = Int.log 2 ((num : ℚ) / den) := by
  have hden' : (0 : ℚ) < den := by exact_mod_cast hden
  have hnumLow : (2 : ℚ) ^ (num.log2 : ℤ) ≤ num := by
    exact_mod_cast Nat.log2_self_le hnum.ne'
  have hnumHigh : (num : ℚ) < 2 ^ ((num.log2 : ℤ) + 1) := by
    exact_mod_cast Nat.lt_log2_self (n := num)
  have hdenLow : (2 : ℚ) ^ (den.log2 : ℤ) ≤ den := by
    exact_mod_cast Nat.log2_self_le hden.ne'
  have hdenHigh : (den : ℚ) < 2 ^ ((den.log2 : ℤ) + 1) := by
    exact_mod_cast Nat.lt_log2_self (n := den)
  -- the lengths of the two numbers leave the binade `k` and the one below it
  have hbelow : (2 : ℚ) ^ ((num.log2 : ℤ) - den.log2 - 1) ≤ num / den := by
    rw [le_div_iff₀ hden']
    calc (2 : ℚ) ^ ((num.log2 : ℤ) - den.log2 - 1) * den
        ≤ 2 ^ ((num.log2 : ℤ) - den.log2 - 1) * 2 ^ ((den.log2 : ℤ) + 1) := by gcongr
      _ = 2 ^ (num.log2 : ℤ) := by
        rw [← zpow_add₀ two_ne_zero]
        congr 1
        omega
      _ ≤ num := hnumLow
  have habove : (num : ℚ) / den < 2 ^ ((num.log2 : ℤ) - den.log2 + 1) := by
    rw [div_lt_iff₀ hden']
    calc (num : ℚ) < 2 ^ ((num.log2 : ℤ) + 1) := hnumHigh
      _ = 2 ^ ((num.log2 : ℤ) - den.log2 + 1) * 2 ^ (den.log2 : ℤ) := by
        rw [← zpow_add₀ two_ne_zero]
        congr 1
        omega
      _ ≤ 2 ^ ((num.log2 : ℤ) - den.log2 + 1) * den := by gcongr
  simp only [binade, mul_wholePower_le_iff hden]
  split
  next hreached => exact (log_two_eq hreached habove).symm
  next hmissed =>
    refine (log_two_eq hbelow ?_).symm
    rw [sub_add_cancel]
    exact not_le.1 hmissed

namespace Binary64

/-! ## Rounding a quotient -/

/-- **Rounding depends on the quotient only.** -/
theorem ofRatio_congr (neg : Bool) {num den num' den' : ℕ} (hden : 0 < den) (hden' : 0 < den')
    (h : (num : ℚ) / den = num' / den') : ofRatio neg num den = ofRatio neg num' den' := by
  have hcross : num * den' = num' * den := by
    rw [div_eq_div_iff (by exact_mod_cast hden.ne') (by exact_mod_cast hden'.ne')] at h
    exact_mod_cast h
  have hzero : num = 0 ↔ num' = 0 := by
    constructor
    · rintro rfl
      simpa [hden.ne'] using hcross.symm
    · rintro rfl
      simpa [hden'.ne'] using hcross
  unfold ofRatio
  by_cases hnum : num = 0
  · rw [if_pos hnum, if_pos (hzero.1 hnum)]
  · have hnum' : num' ≠ 0 := fun h' => hnum (hzero.2 h')
    rw [if_neg hnum, if_neg hnum', binade_eq_log (Nat.pos_of_ne_zero hnum) hden,
      binade_eq_log (Nat.pos_of_ne_zero hnum') hden', h]
    dsimp only
    generalize max (-1074) (Int.log 2 ((num' : ℚ) / den') - 52) = e
    have hscaled : num * wholePower 2 (-e) * (den' * wholePower 2 e) =
        num' * wholePower 2 (-e) * (den * wholePower 2 e) := by
      calc num * wholePower 2 (-e) * (den' * wholePower 2 e)
          = num * den' * (wholePower 2 (-e) * wholePower 2 e) := by ring
        _ = num' * den * (wholePower 2 (-e) * wholePower 2 e) := by rw [hcross]
        _ = num' * wholePower 2 (-e) * (den * wholePower 2 e) := by ring
    rw [nearestEven_congr (Nat.mul_pos hden (wholePower_pos (by decide) e))
      (Nat.mul_pos hden' (wholePower_pos (by decide) e)) hscaled]

/-- Beyond the largest binade everything is infinite. -/
theorem ofRatio_of_le {num den : ℕ} (hden : 0 < den) (h : den * wholePower 2 1024 ≤ num)
    (neg : Bool) : ofRatio neg num den = .infinity neg := by
  have hnum : 0 < num := lt_of_lt_of_le (Nat.mul_pos hden (wholePower_pos (by decide) _)) h
  have hquotient : (0 : ℚ) < num / den := div_pos (by exact_mod_cast hnum) (by exact_mod_cast hden)
  have hlow : (2 : ℚ) ^ (1024 : ℤ) ≤ num / den := by
    rw [← mul_wholePower_le_iff hden, show wholePower 2 (-1024) = 1 from rfl, Nat.mul_one]
    exact h
  have hlog : 1024 ≤ Int.log 2 ((num : ℚ) / den) :=
    (Int.zpow_le_iff_le_log (by decide) hquotient).1 hlow
  rw [ofRatio, if_neg hnum.ne', binade_eq_log hnum hden]
  dsimp only
  generalize nearestEven _ _ = m
  rw [ofScaled, dif_neg, dif_neg]
  · rintro ⟨-, -, hmax, -⟩
    omega
  · rintro ⟨-, -, hmax, -⟩
    omega

/-- Below half of the least positive number everything is zero. -/
theorem ofRatio_of_lt {num den : ℕ} (h : num * wholePower 2 1075 < den) (neg : Bool) :
    ofRatio neg num den = .finite (.zero neg) := by
  by_cases hnum : num = 0
  · rw [ofRatio, if_pos hnum]
  have hden : 0 < den := Nat.zero_lt_of_lt h
  have hquotient : (0 : ℚ) < num / den :=
    div_pos (by exact_mod_cast Nat.pos_of_ne_zero hnum) (by exact_mod_cast hden)
  have hhigh : (num : ℚ) / den < 2 ^ (-1075 : ℤ) := by
    rw [← not_le, ← mul_wholePower_le_iff hden, not_le, neg_neg,
      show wholePower 2 (-1075) = 1 from rfl, Nat.mul_one]
    exact h
  have hlog : Int.log 2 ((num : ℚ) / den) < -1075 :=
    (Int.lt_zpow_iff_log_lt (by decide) hquotient).1 hhigh
  have he : max (-1074) (Int.log 2 ((num : ℚ) / den) - 52) = -1074 := by omega
  have hhalf : 2 * (num * wholePower 2 1074) < den * 1 := by
    have hdouble : wholePower 2 1075 = 2 * wholePower 2 1074 := by decide +kernel
    rw [Nat.mul_one, Nat.mul_left_comm, ← hdouble]
    exact h
  rw [ofRatio, if_neg hnum, binade_eq_log (Nat.pos_of_ne_zero hnum) hden]
  dsimp only
  rw [he, neg_neg, show wholePower 2 (-1074) = 1 from rfl, nearestEven_eq_zero hhalf]
  rfl

/-- What a mantissa that may have filled up is scaled to. -/
theorem ofScaled_eq_finite {neg : Bool} {m : ℕ} {e : ℤ} {x : FiniteBinary64}
    (h : ofScaled neg m e = .finite x) :
    (x.mantissa = m ∧ x.exponent = e) ∨ (x.mantissa = m / 2 ∧ x.exponent = e + 1) := by
  unfold ofScaled at h
  split at h
  · obtain rfl := Binary64.finite.inj h
    exact .inl ⟨rfl, rfl⟩
  · split at h
    · obtain rfl := Binary64.finite.inj h
      exact .inr ⟨rfl, rfl⟩
    · cases h

end Binary64

namespace FiniteBinary64

/-- The distance from zero. -/
def magnitude (x : FiniteBinary64) : ℚ :=
  x.mantissa * (2 : ℚ) ^ x.exponent

theorem numerator_div_denominator (x : FiniteBinary64) :
    (x.numerator : ℚ) / x.denominator = x.magnitude := by
  have hpower := wholePower_div 2 x.exponent
  rw [numerator, denominator, Nat.cast_mul, mul_div_assoc, hpower, magnitude, Nat.cast_ofNat]

/-- A number that is not far from zero has the least exponent. -/
theorem eq_zero_of_mantissa {x : FiniteBinary64} (h : x.mantissa = 0) : x = .zero x.neg := by
  obtain ⟨neg, m, e, hmax, hlow, hhigh, hlead⟩ := x
  obtain rfl : m = 0 := h
  have he : e = -1074 := hlead.resolve_left (by decide)
  subst he
  rfl

/-- The exponent is the one that the magnitude's binade asks for. -/
theorem exponent_eq {x : FiniteBinary64} (h : x.mantissa ≠ 0) :
    max (-1074) (Int.log 2 x.magnitude - 52) = x.exponent := by
  obtain ⟨hmax, hlow, -, hlead⟩ := x.canonical
  have hmantissa : (0 : ℚ) < x.mantissa := by exact_mod_cast Nat.pos_of_ne_zero h
  have hmagnitude : 0 < x.magnitude := by
    unfold magnitude
    positivity
  have hfits : x.magnitude < (2 : ℚ) ^ (53 + x.exponent) := by
    rw [magnitude, zpow_add₀ two_ne_zero]
    gcongr
    exact_mod_cast hmax
  have hlog : Int.log 2 x.magnitude < 53 + x.exponent :=
    (Int.lt_zpow_iff_log_lt (by decide) hmagnitude).1 (by exact_mod_cast hfits)
  rcases hlead with hfull | hleast
  · have hreaches : (2 : ℚ) ^ (52 + x.exponent) ≤ x.magnitude := by
      rw [magnitude, zpow_add₀ two_ne_zero]
      gcongr
      exact_mod_cast hfull
    have hlog' : 52 + x.exponent ≤ Int.log 2 x.magnitude :=
      (Int.zpow_le_iff_le_log (by decide) hmagnitude).1 (by exact_mod_cast hreaches)
    omega
  · omega

end FiniteBinary64

namespace Binary64

/-- **A magnitude of the format is rounded to itself.** -/
theorem ofRatio_of_div_eq_magnitude {x : FiniteBinary64} {num den : ℕ} (hden : 0 < den)
    (h : (num : ℚ) / den = x.magnitude) : ofRatio x.neg num den = .finite x := by
  rw [← x.numerator_div_denominator] at h
  rw [ofRatio_congr x.neg hden x.denominator_pos h]
  by_cases hm : x.mantissa = 0
  · rw [FiniteBinary64.numerator, hm, Nat.zero_mul, ofRatio, if_pos rfl,
      ← FiniteBinary64.eq_zero_of_mantissa hm]
  · have hnum : 0 < x.numerator :=
      Nat.mul_pos (Nat.pos_of_ne_zero hm) (wholePower_pos (by decide) _)
    have hscaled : x.numerator * wholePower 2 (-x.exponent) =
        x.mantissa * (x.denominator * wholePower 2 x.exponent) := by
      rw [FiniteBinary64.numerator, FiniteBinary64.denominator]
      ring
    rw [ofRatio, if_neg hnum.ne', binade_eq_log hnum x.denominator_pos,
      x.numerator_div_denominator, FiniteBinary64.exponent_eq hm]
    dsimp only
    rw [hscaled, nearestEven_mul_self _
      (Nat.mul_pos x.denominator_pos (wholePower_pos (by decide) _)), ofScaled,
      dif_pos x.canonical]

/-- A natural number is rounded to a whole number. -/
theorem exists_natCast_of_ofRatio {neg : Bool} {n : ℕ} {x : FiniteBinary64}
    (h : ofRatio neg n 1 = .finite x) : ∃ k : ℕ, x.magnitude = k := by
  unfold ofRatio at h
  split at h
  · obtain rfl := Binary64.finite.inj h
    exact ⟨0, by simp [FiniteBinary64.magnitude, FiniteBinary64.zero]⟩
  · dsimp only at h
    generalize max (-1074) (binade n 1 - 52) = e at h
    rcases lt_or_ge e 0 with hneg | hpos
    · -- the number is a multiple of the quantum, which is the inverse of a power of two
      obtain ⟨j, hj⟩ : ∃ j : ℕ, e = -((j + 1 : ℕ) : ℤ) := ⟨(-e).toNat - 1, by omega⟩
      subst hj
      rw [neg_neg, wholePower_neg_natCast, wholePower_natCast,
        ← Nat.mul_one (n * 2 ^ (j + 1)), Nat.mul_one 1, nearestEven_mul_self _ Nat.one_pos] at h
      refine ⟨n, ?_⟩
      rcases ofScaled_eq_finite h with ⟨hm, he⟩ | ⟨hm, he⟩
      · rw [FiniteBinary64.magnitude, hm, he]
        push_cast
        rw [mul_assoc, ← zpow_natCast, ← zpow_add₀ two_ne_zero]
        simp
      · have hhalf : n * 2 ^ (j + 1) / 2 = n * 2 ^ j := by
          rw [pow_succ, ← mul_assoc, Nat.mul_div_cancel _ two_pos]
        rw [FiniteBinary64.magnitude, hm, he, hhalf]
        push_cast
        rw [mul_assoc, ← zpow_natCast, ← zpow_add₀ two_ne_zero]
        simp
    · have hexponent : 0 ≤ x.exponent := by
        rcases ofScaled_eq_finite h with ⟨-, he⟩ | ⟨-, he⟩ <;> omega
      obtain ⟨j, hj⟩ := Int.eq_ofNat_of_zero_le hexponent
      refine ⟨x.mantissa * 2 ^ j, ?_⟩
      rw [FiniteBinary64.magnitude, hj]
      push_cast
      rfl

/-- **Rounding adds no more than one quantum.** -/
theorem magnitude_le_of_ofRatio {neg : Bool} {num den : ℕ} {x : FiniteBinary64}
    (h : ofRatio neg num den = .finite x) :
    x.magnitude ≤ (num : ℚ) / den + 2 ^ max (-1074) (binade num den - 52) := by
  unfold ofRatio at h
  split at h
  next hnum =>
    obtain rfl := Binary64.finite.inj h
    simp only [FiniteBinary64.magnitude, FiniteBinary64.zero, hnum, Nat.cast_zero, zero_mul,
      zero_div, zero_add]
    positivity
  next =>
    dsimp only at h
    generalize max (-1074) (binade num den - 52) = e at h ⊢
    generalize hm : nearestEven (num * wholePower 2 (-e)) (den * wholePower 2 e) = m at h
    have hscaled : x.magnitude ≤ m * (2 : ℚ) ^ e := by
      rcases ofScaled_eq_finite h with ⟨hmantissa, hexponent⟩ | ⟨hmantissa, hexponent⟩
      · rw [FiniteBinary64.magnitude, hmantissa, hexponent]
      · have hhalf : ((m / 2 : ℕ) : ℚ) * 2 ≤ m := by exact_mod_cast Nat.div_mul_le_self m 2
        calc x.magnitude = ((m / 2 : ℕ) : ℚ) * 2 * 2 ^ e := by
              rw [FiniteBinary64.magnitude, hmantissa, hexponent, zpow_add_one₀ two_ne_zero]
              ring
          _ ≤ m * (2 : ℚ) ^ e := by gcongr
    have hquotient :
        (num : ℚ) * wholePower 2 (-e) / (den * wholePower 2 e) * 2 ^ e = num / den := by
      have hpower := wholePower_div 2 e
      have hbelow : (wholePower 2 (-e) : ℚ) ≠ 0 := by
        exact_mod_cast (wholePower_pos (by decide) _).ne'
      have habove : (wholePower 2 e : ℚ) ≠ 0 := by exact_mod_cast (wholePower_pos (by decide) _).ne'
      rw [Nat.cast_ofNat] at hpower
      rw [← hpower, mul_div_mul_comm, mul_assoc, div_mul_div_cancel₀ habove, div_self hbelow,
        mul_one]
    have hrounded : (m : ℚ) ≤ num * wholePower 2 (-e) / (den * wholePower 2 e) + 1 := by
      have hle : (m : ℚ) ≤
          ((num * wholePower 2 (-e) / (den * wholePower 2 e) : ℕ) : ℚ) + 1 := by
        rw [← hm]
        exact_mod_cast nearestEven_le _ _
      have hdiv := Nat.cast_div_le (α := ℚ) (m := num * wholePower 2 (-e))
        (n := den * wholePower 2 e)
      push_cast at hdiv
      exact hle.trans (add_le_add_left hdiv 1)
    calc x.magnitude ≤ m * (2 : ℚ) ^ e := hscaled
      _ ≤ (num * wholePower 2 (-e) / (den * wholePower 2 e) + 1) * (2 : ℚ) ^ e := by gcongr
      _ = num / den + 2 ^ e := by rw [add_mul, hquotient, one_mul]

/-! ## Rounding a decimal -/

/-- A decimal as a quotient. -/
theorem decimal_quotient (c : ℕ) (e : ℤ) :
    ((c * wholePower 10 e : ℕ) : ℚ) / wholePower 10 (-e) = c * 10 ^ e := by
  have hpower := wholePower_div 10 e
  rw [Nat.cast_mul, mul_div_assoc, hpower, Nat.cast_ofNat]

theorem wholePower_two_le_ten :
    wholePower 2 1024 ≤ wholePower 10 310 ∧ wholePower 2 1075 ≤ wholePower 10 330 := by
  decide +kernel

/-- **The tests that keep the powers of ten small change nothing.** -/
theorem ofDecimal_eq_ofRatio (neg : Bool) {c : ℕ} (hc : c ≠ 0) (e : ℤ) :
    ofDecimal neg c e = ofRatio neg (c * wholePower 10 e) (wholePower 10 (-e)) := by
  have hden : 0 < wholePower 10 (-e) := wholePower_pos (by decide) _
  rw [ofDecimal, if_neg hc]
  split
  next hlarge =>
    refine (ofRatio_of_le hden ?_ neg).symm
    obtain ⟨n, rfl⟩ := Int.eq_ofNat_of_zero_le (by omega : 0 ≤ e)
    rw [wholePower_neg_natCast, Nat.one_mul]
    calc wholePower 2 1024 ≤ wholePower 10 310 := wholePower_two_le_ten.1
      _ ≤ wholePower 10 n := wholePower_mono (by decide) hlarge.le
      _ ≤ c * wholePower 10 n := Nat.le_mul_of_pos_left _ (Nat.pos_of_ne_zero hc)
  next =>
    split
    next hsmall =>
      refine (ofRatio_of_lt ?_ neg).symm
      obtain ⟨n, hn⟩ := Int.eq_ofNat_of_zero_le (by omega : 0 ≤ -e)
      obtain rfl : e = -n := by omega
      have hdigits : c < wholePower 10 (digitChars c).length :=
        (Nat.length_toDigits_le_iff (by decide) Nat.length_toDigits_pos).1 le_rfl
      rw [neg_neg, wholePower_neg_natCast, Nat.mul_one]
      calc c * wholePower 2 1075 ≤ c * wholePower 10 330 := by
            gcongr
            exact wholePower_two_le_ten.2
        _ < wholePower 10 (digitChars c).length * wholePower 10 330 := by
            gcongr
            exact wholePower_pos (by decide) _
        _ = wholePower 10 ((digitChars c).length + 330) :=
            (wholePower_add 10 (by omega) (by decide)).symm
        _ ≤ wholePower 10 n := wholePower_mono (by decide) (by omega)
    next => rfl

/-- **A decimal is rounded as the rational number it is.** -/
theorem ofDecimal_congr (neg : Bool) {c c' : ℕ} {e e' : ℤ}
    (h : (c : ℚ) * 10 ^ e = c' * 10 ^ e') : ofDecimal neg c e = ofDecimal neg c' e' := by
  have hpower : ∀ e : ℤ, (10 : ℚ) ^ e ≠ 0 := fun e => zpow_ne_zero e (by norm_num)
  by_cases hc : c = 0
  · have hc' : c' = 0 := by simpa [hc, hpower] using h.symm
    rw [hc, hc', ofDecimal, ofDecimal, if_pos rfl, if_pos rfl]
  · have hc' : c' ≠ 0 := by
      rintro rfl
      simp [hc, hpower] at h
    rw [ofDecimal_eq_ofRatio neg hc, ofDecimal_eq_ofRatio neg hc']
    refine ofRatio_congr neg (wholePower_pos (by decide) _) (wholePower_pos (by decide) _) ?_
    rw [decimal_quotient, decimal_quotient, h]

/-- The magnitude of a number, written as a decimal, is rounded to the number. -/
theorem ofDecimal_of_eq_magnitude {x : FiniteBinary64} {c : ℕ} {e : ℤ}
    (h : (c : ℚ) * 10 ^ e = x.magnitude) : ofDecimal x.neg c e = .finite x := by
  by_cases hc : c = 0
  · have hpower : (2 : ℚ) ^ x.exponent ≠ 0 := zpow_ne_zero _ two_ne_zero
    have hm : x.mantissa = 0 := by
      rw [hc, Nat.cast_zero, zero_mul, FiniteBinary64.magnitude, zero_eq_mul] at h
      exact_mod_cast h.resolve_right hpower
    rw [ofDecimal, if_pos hc, ← FiniteBinary64.eq_zero_of_mantissa hm]
  · rw [ofDecimal_eq_ofRatio _ hc]
    refine ofRatio_of_div_eq_magnitude (wholePower_pos (by decide) _) ?_
    rw [decimal_quotient, h]

/-- A decimal without places is rounded to a whole number. -/
theorem exists_natCast_of_ofDecimal {neg : Bool} {c : ℕ} {e : ℤ} {x : FiniteBinary64}
    (he : 0 ≤ e) (h : ofDecimal neg c e = .finite x) : ∃ k : ℕ, x.magnitude = k := by
  by_cases hc : c = 0
  · rw [ofDecimal, if_pos hc] at h
    obtain rfl := Binary64.finite.inj h
    exact ⟨0, by simp [FiniteBinary64.magnitude, FiniteBinary64.zero]⟩
  · obtain ⟨n, rfl⟩ := Int.eq_ofNat_of_zero_le he
    rw [ofDecimal_eq_ofRatio neg hc, wholePower_neg_natCast] at h
    exact exists_natCast_of_ofRatio h

/-- A decimal up to one half is rounded to less than one. -/
theorem magnitude_lt_one_of_ofDecimal {neg : Bool} {c : ℕ} {e : ℤ} {x : FiniteBinary64}
    (hhalf : (c : ℚ) * 10 ^ e ≤ 1 / 2) (h : ofDecimal neg c e = .finite x) : x.magnitude < 1 := by
  by_cases hc : c = 0
  · rw [ofDecimal, if_pos hc] at h
    obtain rfl := Binary64.finite.inj h
    simp [FiniteBinary64.magnitude, FiniteBinary64.zero]
  · have hnum : 0 < c * wholePower 10 e :=
      Nat.mul_pos (Nat.pos_of_ne_zero hc) (wholePower_pos (by decide) _)
    have hden : 0 < wholePower 10 (-e) := wholePower_pos (by decide) _
    have hpos : (0 : ℚ) < c * 10 ^ e := by
      have hc' : (0 : ℚ) < c := by exact_mod_cast Nat.pos_of_ne_zero hc
      positivity
    have hlog : Int.log 2 ((c : ℚ) * 10 ^ e) < 0 := by
      refine (Int.lt_zpow_iff_log_lt (by decide) hpos).1 ?_
      rw [zpow_zero]
      linarith
    rw [ofDecimal_eq_ofRatio neg hc] at h
    have hle := magnitude_le_of_ofRatio h
    rw [binade_eq_log hnum hden, decimal_quotient] at hle
    have hquantum : (2 : ℚ) ^ max (-1074) (Int.log 2 ((c : ℚ) * 10 ^ e) - 52) ≤ 2 ^ (-53 : ℤ) :=
      zpow_le_zpow_right₀ one_le_two (by omega)
    calc x.magnitude ≤ _ := hle
      _ ≤ 1 / 2 + 2 ^ (-53 : ℤ) := add_le_add hhalf hquantum
      _ < 1 := by norm_num

end Binary64

end SchemaProse
