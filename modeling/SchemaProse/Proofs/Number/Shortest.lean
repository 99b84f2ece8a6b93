import SchemaProse.Proofs.Number.Rounding
/-!
# Number — the shortest decimal reads back

Taking the zeros off the end of a coefficient changes neither the sign nor the
magnitude of a decimal (`magnitude_reduced`) and leaves a coefficient that does
not end in zero. So the shortest decimal is read back as the number that it was
made for, whether it was found on one of the grids or is the exact expansion
(`ofDecimal_shortest`), and no two numbers have the same one.
-/

namespace SchemaProse

namespace Decimal

/-- The distance from zero. -/
def magnitude (d : Decimal) : ℚ :=
  d.coefficient * (10 : ℚ) ^ d.exponent

/-- A zero that is taken off the coefficient goes to the exponent. -/
theorem magnitude_dropZeros (n c : ℕ) (e : ℤ) :
    ((dropZeros n c e).1 : ℚ) * 10 ^ (dropZeros n c e).2 = c * 10 ^ e := by
  induction n generalizing c e with
  | zero => rfl
  | succ n ih =>
    rw [dropZeros]
    split
    next hzero =>
      have hc : c = c / 10 * 10 := by omega
      rw [ih, zpow_add_one₀ (by norm_num)]
      conv_rhs => rw [hc]
      push_cast
      ring
    next => rfl

/-- With as many attempts as there are digits, no zero is left. -/
theorem dropZeros_mod_ten_ne_zero {n c : ℕ} (e : ℤ) (hc : 0 < c) (hn : c < 10 ^ n) :
    (dropZeros n c e).1 % 10 ≠ 0 := by
  induction n generalizing c e with
  | zero => omega
  | succ n ih =>
    rw [dropZeros]
    split
    next hzero =>
      rw [pow_succ] at hn
      exact ih (e + 1) (by omega) (by omega)
    next hlast => exact hlast

theorem neg_reduced (d : Decimal) : d.reduced.neg = d.neg := by
  unfold reduced
  split <;> rfl

/-- **The shortest coefficient makes the same number.** -/
theorem magnitude_reduced (d : Decimal) : d.reduced.magnitude = d.magnitude := by
  unfold reduced
  split
  next hzero => simp [magnitude, hzero]
  next => exact magnitude_dropZeros _ _ _

/-- And it does not end in zero. -/
theorem reduced_mod_ten_ne_zero {d : Decimal} (h : d.coefficient ≠ 0) :
    d.reduced.coefficient % 10 ≠ 0 := by
  unfold reduced
  rw [if_neg h]
  exact dropZeros_mod_ten_ne_zero _ (Nat.pos_of_ne_zero h)
    ((Nat.length_toDigits_le_iff (by decide) Nat.length_toDigits_pos).1 le_rfl)

/-- A coefficient that does not end in zero belongs to the greatest exponent. -/
theorem exponent_le_of_mul_eq {c c' : ℕ} {e e' : ℤ} (hc : c % 10 ≠ 0)
    (h : (c : ℚ) * 10 ^ e = c' * 10 ^ e') : e' ≤ e := by
  by_contra hlt
  obtain ⟨n, hn⟩ : ∃ n : ℕ, e' = e + (n + 1 : ℕ) := ⟨(e' - e).toNat - 1, by omega⟩
  have hpower : (10 : ℚ) ^ e ≠ 0 := zpow_ne_zero _ (by norm_num)
  have hfactor : (c : ℚ) = c' * 10 ^ (n + 1) := by
    rw [hn, zpow_add₀ (by norm_num), zpow_natCast, mul_left_comm, mul_comm] at h
    exact mul_left_cancel₀ hpower h
  have hdvd : 10 ∣ c := ⟨c' * 10 ^ n, by
    have hc' : c = c' * 10 ^ (n + 1) := by exact_mod_cast hfactor
    rw [hc', pow_succ]
    ring⟩
  exact hc (Nat.mod_eq_zero_of_dvd hdvd)

/-- **Decimals of the same magnitude are the same** when their coefficients do not
end in zero. -/
theorem coefficient_eq_of_mul_eq {c c' : ℕ} {e e' : ℤ} (hc : c % 10 ≠ 0) (hc' : c' % 10 ≠ 0)
    (h : (c : ℚ) * 10 ^ e = c' * 10 ^ e') : c = c' ∧ e = e' := by
  have he : e = e' := le_antisymm (exponent_le_of_mul_eq hc' h.symm) (exponent_le_of_mul_eq hc h)
  subst he
  have hpower : (10 : ℚ) ^ e ≠ 0 := zpow_ne_zero _ (by norm_num)
  exact ⟨by exact_mod_cast mul_right_cancel₀ hpower h, rfl⟩

end Decimal

namespace FiniteBinary64

/-- **The exact expansion is the number.** -/
theorem magnitude_exactDecimal (x : FiniteBinary64) : x.exactDecimal.magnitude = x.magnitude := by
  unfold exactDecimal
  split
  next hpos =>
    obtain ⟨n, hn⟩ := Int.eq_ofNat_of_zero_le hpos
    simp [Decimal.magnitude, numerator, magnitude, hn, wholePower_natCast]
  next hneg =>
    obtain ⟨n, hn⟩ := Int.eq_ofNat_of_zero_le (by omega : 0 ≤ -x.exponent)
    have hexponent : x.exponent = -n := by omega
    simp only [Decimal.magnitude, magnitude, hexponent, neg_neg, wholePower_natCast, zpow_neg,
      zpow_natCast]
    have hten : (10 : ℚ) ^ n = 2 ^ n * 5 ^ n := by rw [← mul_pow]; norm_num
    push_cast
    rw [hten]
    field_simp

theorem neg_exactDecimal (x : FiniteBinary64) : x.exactDecimal.neg = x.neg := by
  unfold exactDecimal
  split <;> rfl

/-- The decimals around a number have its sign. -/
theorem neg_of_mem_neighbours {x : FiniteBinary64} {g : ℤ} {d : Decimal}
    (h : d ∈ x.neighbours g) : d.neg = x.neg := by
  simp only [neighbours, List.mem_cons, List.not_mem_nil, or_false] at h
  rcases h with rfl | rfl <;> rfl

/-- The shortest decimal comes from one that reads back. -/
theorem exists_shortest_eq_reduced {x : FiniteBinary64} (h : x.mantissa ≠ 0) :
    ∃ d : Decimal, x.shortest = d.reduced ∧ d.neg = x.neg ∧
      Binary64.ofDecimal d.neg d.coefficient d.exponent = .finite x := by
  unfold shortest
  rw [if_neg h]
  dsimp only
  split
  next d hfound =>
    obtain ⟨g, -, hg⟩ := List.exists_of_findSome?_eq_some hfound
    have hreads : x.readsBack d = true := by simpa using List.find?_some hg
    exact ⟨d, rfl, neg_of_mem_neighbours (List.mem_of_find?_eq_some hg), by
      simpa [readsBack] using hreads⟩
  next =>
    refine ⟨x.exactDecimal, rfl, x.neg_exactDecimal, ?_⟩
    rw [neg_exactDecimal]
    exact Binary64.ofDecimal_of_eq_magnitude x.magnitude_exactDecimal

theorem neg_shortest (x : FiniteBinary64) : x.shortest.neg = x.neg := by
  by_cases h : x.mantissa = 0
  · rw [shortest, if_pos h]
  · obtain ⟨d, hd, hneg, -⟩ := exists_shortest_eq_reduced h
    rw [hd, Decimal.neg_reduced, hneg]

/-- **The shortest decimal reads back.** -/
theorem ofDecimal_shortest (x : FiniteBinary64) :
    Binary64.ofDecimal x.neg x.shortest.coefficient x.shortest.exponent = .finite x := by
  by_cases h : x.mantissa = 0
  · rw [shortest, if_pos h, Binary64.ofDecimal, if_pos rfl, ← eq_zero_of_mantissa h]
  · obtain ⟨d, hd, hneg, hreads⟩ := exists_shortest_eq_reduced h
    rw [← hneg, ← hreads, hd]
    exact Binary64.ofDecimal_congr d.neg d.magnitude_reduced

/-- The shortest coefficient of a number other than zero does not end in
zero. -/
theorem shortest_mod_ten_ne_zero {x : FiniteBinary64} (h : x.mantissa ≠ 0) :
    x.shortest.coefficient % 10 ≠ 0 := by
  obtain ⟨d, hd, -, hreads⟩ := exists_shortest_eq_reduced h
  rw [hd]
  refine Decimal.reduced_mod_ten_ne_zero fun hzero => h ?_
  -- a decimal without a coefficient is read as zero
  rw [hzero, Binary64.ofDecimal, if_pos rfl] at hreads
  rw [← Binary64.finite.inj hreads]
  rfl

/-- A number that is not whole has a shortest decimal with places. -/
theorem exponent_shortest_neg {x : FiniteBinary64} (h : ∀ k : ℕ, x.magnitude ≠ k) :
    x.shortest.exponent < 0 := by
  by_contra hpos
  obtain ⟨k, hk⟩ := Binary64.exists_natCast_of_ofDecimal (not_lt.1 hpos) x.ofDecimal_shortest
  exact h k hk

end FiniteBinary64

end SchemaProse
