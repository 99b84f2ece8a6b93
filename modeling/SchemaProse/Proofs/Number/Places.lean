import SchemaProse.Proofs.Number.Denoted
/-!
# Number — steps that are decimal places

A number is written as one decimal: a whole number as itself, and any other one
as its exact text, which reads back as the number (`Number.written?`). Only when
this decimal is a tenth, a hundredth and so on does the number count as a number of
decimal places (`decimalPlaces?_eq_some_iff`): the coefficient of a shortest
decimal does not end in zero, and no whole number is near enough to a tenth to be
read from it. The multiples of such a decimal are the numbers with that many
places (`exists_eq_mul_iff_hasPlaces`).
-/

namespace SchemaProse

/-! ## The decimal that a number is written as -/

namespace Number

variable {n : Number} {q d : ℚ}

/-- The decimal that a number is written as: a whole number itself, and otherwise
what the exact text denotes. -/
def written? (n : Number) : Option ℚ :=
  match n.value with
  | .rational q => if q.den = 1 then some q else Numeral.denoted? n.exactChars
  | _ => none

theorem written?_of_intCast {i : ℤ} (h : n.value = .rational i) : n.written? = some (i : ℚ) := by
  simp [written?, h]

theorem written?_of_fraction (h : n.value = .rational q) (hq : ∀ i : ℤ, q ≠ i) :
    n.written? = Numeral.denoted? n.exactChars := by
  have hden : q.den ≠ 1 := fun hden => hq q.num (Rat.coe_int_num_of_den_eq_one hden).symm
  simp [written?, h, hden]

/-- A number that is not whole is written as its shortest decimal. -/
theorem written?_finite {x : FiniteBinary64} (h : x.toInt? = none) :
    (Number.float (.finite x)).written? =
      some (if x.neg then -x.shortest.magnitude else x.shortest.magnitude) := by
  have hq : ∀ i : ℤ, x.value ≠ i := by
    intro i hi
    rw [FiniteBinary64.toInt?_eq_some_iff.2 hi] at h
    cases h
  obtain ⟨l, -, hmagnitude, hchars⟩ := x.exists_exactChars_eq
  rw [written?_of_fraction rfl hq, hchars, Numeral.denoted?_signed, hmagnitude]

/-- **The plain text denotes the decimal that a number is written as.** -/
theorem exists_written? (h : n.value = .rational q) :
    ∃ d, n.written? = some d ∧ Numeral.IsPlain n.plain.toList ∧
      Numeral.denoted? n.plain.toList = some d := by
  have htells := tellsValue h
  by_cases hq : ∃ i : ℤ, q = i
  · obtain ⟨i, rfl⟩ := hq
    exact ⟨i, written?_of_intCast h, htells.isPlain, (htells.whole i rfl).2⟩
  · obtain ⟨d, hplain, hexact⟩ := htells.fraction (not_exists.1 hq)
    exact ⟨d, (written?_of_fraction h (not_exists.1 hq)).trans hexact, htells.isPlain, hplain⟩

/-! ## Decimal places -/

/-- The number of decimal places is read off the shortest decimal. -/
theorem decimalPlaces?_eq_some_iff_shortest {k : ℕ} :
    n.decimalPlaces? = some k ↔
      1 ≤ k ∧ ∃ x, n = .float (.finite x) ∧ x.shortest = ⟨false, 1, -k⟩ := by
  match n with
  | .int i => simp [decimalPlaces?]
  | .float .nan => simp [decimalPlaces?]
  | .float (.infinity neg) => simp [decimalPlaces?]
  | .float (.finite x) =>
    simp only [decimalPlaces?, Option.ite_none_right_eq_some, Option.some.injEq, Number.float.injEq,
      Binary64.finite.injEq, exists_eq_left']
    obtain ⟨neg, c, e⟩ := x.shortest
    rw [Decimal.mk.injEq]
    dsimp only
    constructor
    · rintro ⟨⟨hneg, hcoefficient, hexponent⟩, hk⟩
      exact ⟨by omega, hneg, hcoefficient, by omega⟩
    · rintro ⟨hk, hneg, hcoefficient, hexponent⟩
      exact ⟨⟨hneg, hcoefficient, by omega⟩, by omega⟩

/-- A power of ten with places is less than one half. -/
theorem tenth_pow_le_half {k : ℕ} (hk : 1 ≤ k) : (10 : ℚ) ^ (-(k : ℤ)) ≤ 1 / 2 := by
  calc (10 : ℚ) ^ (-(k : ℤ)) ≤ 10 ^ (-1 : ℤ) := zpow_le_zpow_right₀ (by norm_num) (by omega)
    _ ≤ 1 / 2 := by norm_num

/-- A number whose shortest decimal is a power of ten with places is not whole. -/
theorem toInt?_eq_none_of_shortest {x : FiniteBinary64} {k : ℕ} (hk : 1 ≤ k)
    (h : x.shortest = ⟨false, 1, -k⟩) : x.toInt? = none := by
  have hmantissa : x.mantissa ≠ 0 := by
    intro hzero
    rw [FiniteBinary64.shortest, if_pos hzero] at h
    exact zero_ne_one (congrArg Decimal.coefficient h)
  have hreads := x.ofDecimal_shortest
  rw [h] at hreads
  have hlt : x.magnitude < 1 := by
    refine Binary64.magnitude_lt_one_of_ofDecimal ?_ hreads
    rw [Nat.cast_one, one_mul]
    exact tenth_pow_le_half hk
  refine Option.eq_none_iff_forall_ne_some.2 fun i hi => ?_
  -- a whole number less than one is zero, and zero has no such decimal
  rw [FiniteBinary64.magnitude_eq_abs, FiniteBinary64.toInt?_eq_some_iff.1 hi] at hlt
  have hzero : i = 0 := Int.abs_lt_one_iff.1 (by exact_mod_cast hlt)
  have hvalue := FiniteBinary64.toInt?_eq_some_iff.1 hi
  have hmagnitude : x.magnitude = 0 := by
    rw [FiniteBinary64.magnitude_eq_abs, hvalue, hzero, Int.cast_zero, abs_zero]
  have hpower : (2 : ℚ) ^ x.exponent ≠ 0 := zpow_ne_zero _ two_ne_zero
  rw [FiniteBinary64.magnitude, mul_eq_zero, or_iff_left hpower] at hmagnitude
  exact hmantissa (by exact_mod_cast hmagnitude)

/-- Nor is such a power itself. -/
theorem intCast_ne_tenth_pow {k : ℕ} (hk : 1 ≤ k) (i : ℤ) : (i : ℚ) ≠ 10 ^ (-(k : ℤ)) := by
  intro h
  have hpos : (0 : ℚ) < i := h ▸ by positivity
  have hhalf : (i : ℚ) ≤ 1 / 2 := h ▸ tenth_pow_le_half hk
  have hone : (i : ℚ) < 1 := hhalf.trans_lt (by norm_num)
  have hlow : 0 < i := by exact_mod_cast hpos
  have hhigh : i < 1 := by exact_mod_cast hone
  omega

/-- The shortest decimal is a power of ten when that is its value. -/
theorem shortest_eq_of_value {x : FiniteBinary64} (hnone : x.toInt? = none) {k : ℕ}
    (h : (if x.neg then -x.shortest.magnitude else x.shortest.magnitude) = 10 ^ (-(k : ℤ))) :
    x.shortest = ⟨false, 1, -k⟩ := by
  have hmantissa : x.mantissa ≠ 0 := fun hzero =>
    FiniteBinary64.magnitude_ne_of_toInt?_eq_none hnone 0
      (by simp [FiniteBinary64.magnitude, hzero])
  have hnonneg : 0 ≤ x.shortest.magnitude := by
    unfold Decimal.magnitude
    positivity
  have hneg : x.neg = false := by
    rw [Bool.eq_false_iff]
    intro hneg
    have hpos : (0 : ℚ) < 10 ^ (-(k : ℤ)) := by positivity
    rw [if_pos hneg] at h
    linarith
  rw [hneg, if_neg Bool.false_ne_true, ← one_mul ((10 : ℚ) ^ _), ← Nat.cast_one] at h
  obtain ⟨hcoefficient, hexponent⟩ := Decimal.coefficient_eq_of_mul_eq
    (FiniteBinary64.shortest_mod_ten_ne_zero hmantissa) (by decide) h
  have hsign := x.neg_shortest.trans hneg
  rw [← hsign, ← hcoefficient, ← hexponent]

/-- Only a number with a finite value is written as a decimal. -/
theorem exists_value_of_written? (h : n.written? = some d) : ∃ q, n.value = .rational q := by
  unfold written? at h
  split at h
  next q hq => exact ⟨q, hq⟩
  next => cases h

/-- **A number counts as decimal places when it is written as that power of
ten.** -/
theorem decimalPlaces?_eq_some_iff (hd : n.written? = some d) {k : ℕ} :
    n.decimalPlaces? = some k ↔ 1 ≤ k ∧ d = 10 ^ (-(k : ℤ)) := by
  rw [decimalPlaces?_eq_some_iff_shortest]
  refine and_congr_right fun hk => ⟨?_, fun hpower => ?_⟩
  · rintro ⟨x, rfl, hshortest⟩
    rw [written?_finite (toInt?_eq_none_of_shortest hk hshortest), Option.some.injEq] at hd
    rw [← hd, ← x.neg_shortest, hshortest]
    simp [Decimal.magnitude]
  · obtain ⟨q, hq⟩ := exists_value_of_written? hd
    by_cases hwhole : ∃ i : ℤ, q = i
    · obtain ⟨i, rfl⟩ := hwhole
      rw [written?_of_intCast hq, Option.some.injEq] at hd
      exact absurd (hd.trans hpower) (intCast_ne_tenth_pow hk i)
    · obtain ⟨x, rfl, -, hnone⟩ := exists_finite_of_value hq (not_exists.1 hwhole)
      rw [written?_finite hnone, Option.some.injEq] at hd
      exact ⟨x, rfl, shortest_eq_of_value hnone (hd.trans hpower)⟩

/-- The same for an integer, of which only positive ones are numbers of places. -/
theorem exists_decimalPlaces?_iff (hd : n.written? = some d) {k : ℤ} :
    (∃ places : ℕ, n.decimalPlaces? = some places ∧ (places : ℤ) = k) ↔
      1 ≤ k ∧ d = 10 ^ (-k) := by
  constructor
  · rintro ⟨places, hplaces, rfl⟩
    obtain ⟨hpos, hpower⟩ := (decimalPlaces?_eq_some_iff hd).1 hplaces
    exact ⟨by exact_mod_cast hpos, hpower⟩
  · rintro ⟨hpos, hpower⟩
    obtain ⟨places, rfl⟩ := Int.eq_ofNat_of_zero_le (by omega : 0 ≤ k)
    exact ⟨places, (decimalPlaces?_eq_some_iff hd).2 ⟨by exact_mod_cast hpos, hpower⟩, rfl⟩

/-- It does not when it is written as any other decimal. -/
theorem decimalPlaces?_eq_none_iff (hd : n.written? = some d) :
    n.decimalPlaces? = none ↔ ∀ k : ℤ, 1 ≤ k → d ≠ 10 ^ (-k) := by
  rw [Option.eq_none_iff_forall_ne_some]
  constructor
  · intro hnone k hpos hpower
    obtain ⟨places, hplaces, -⟩ := (exists_decimalPlaces?_iff hd).2 ⟨hpos, hpower⟩
    exact hnone places hplaces
  · intro hother places hplaces
    obtain ⟨hpos, hpower⟩ := (exists_decimalPlaces?_iff hd).1 ⟨places, hplaces, rfl⟩
    exact hother places hpos hpower

end Number

/-! ## Numbers with some decimal places -/

/-- The number is denoted by a plain decimal with at most `k` digits behind the
point. -/
def HasPlaces (k : ℤ) (x : ℚ) : Prop :=
  ∃ (neg : Bool) (l : DecimalLiteral), l.exponent = none ∧ (l.fraction.length : ℤ) ≤ k ∧
    Numeral.denoted? (Numeral.signed neg l.chars) = some x

/-- **The multiples of a power of ten are the numbers with so many places.** -/
theorem exists_eq_mul_iff_hasPlaces {k : ℤ} (hk : 1 ≤ k) {x : ℚ} :
    (∃ i : ℤ, x = i * 10 ^ (-k)) ↔ HasPlaces k x := by
  constructor
  · rintro ⟨i, rfl⟩
    let d : Decimal := ⟨decide (i < 0), i.natAbs, -k⟩
    have hexponent : d.exponent < 0 := Int.neg_neg_of_pos hk
    refine ⟨d.neg, d.pointLiteral hexponent, rfl, ?_, ?_⟩
    · have hlength := Decimal.length_fractionDigits hexponent
      exact hlength.trans_le (neg_neg k).le
    · have habs : ((i.natAbs : ℕ) : ℚ) = |(i : ℚ)| := by rw [Nat.cast_natAbs, Int.cast_abs]
      rw [Numeral.denoted?_signed, d.magnitude_pointLiteral, Decimal.magnitude, Option.some.injEq]
      change (if decide (i < 0) = true then _ else _) = _
      by_cases hneg : i < 0
      · have hneg' : (i : ℚ) < 0 := by exact_mod_cast hneg
        simp [d, hneg, habs, abs_of_neg hneg']
      · have hpos : (0 : ℚ) ≤ i := by exact_mod_cast not_lt.1 hneg
        simp [d, hneg, habs, abs_of_nonneg hpos]
  · rintro ⟨neg, l, hexponent, hlength, hx⟩
    obtain ⟨n, hn⟩ := Int.eq_ofNat_of_zero_le (sub_nonneg.2 hlength)
    have hmagnitude : l.magnitude = (l.coefficient * 10 ^ n : ℕ) * (10 : ℚ) ^ (-k) := by
      have hpower : l.power = (n : ℤ) + -k := by
        rw [DecimalLiteral.power, hexponent, Option.getD_none]
        omega
      rw [DecimalLiteral.magnitude, hpower, zpow_add₀ (by norm_num), zpow_natCast]
      push_cast
      ring
    rw [Numeral.denoted?_signed, Option.some.injEq, hmagnitude] at hx
    refine ⟨Numeral.withSign neg (l.coefficient * 10 ^ n), ?_⟩
    rw [← hx]
    cases neg <;> simp [Numeral.withSign]

end SchemaProse
