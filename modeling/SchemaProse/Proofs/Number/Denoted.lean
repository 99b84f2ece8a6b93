import SchemaProse.Proofs.Number.Exact
/-!
# Number — the plain text tells the value and nothing else

A number with a rational value is written plainly as digits, with a sign and a
fraction if there is one, but never with an exponent (`Numeral.IsPlain`). A
whole number is written out at any magnitude, whichever kind it is of
(`plainChars_of_value_eq_intCast`); any other number denotes what its exact
text does. So two numbers have the same plain text exactly when they have the
same value, which `plain_tells_value` puts together.
-/

namespace SchemaProse

namespace Numeral

/-- Digits without a superfluous zero in front, with a minus sign or a fraction
if there is one. -/
def IsPlain (cs : List Char) : Prop :=
  ∃ (neg : Bool) (whole fraction : List Char), isWhole whole = true ∧
    (∀ c ∈ fraction, c.isDigit = true) ∧ cs = signed neg (whole ++ pointed fraction)

/-- A plain decimal has the characters of literals only. -/
theorem IsPlain.mem_alphabet {cs : List Char} (h : IsPlain cs) {c : Char} (hc : c ∈ cs) :
    c ∈ DecimalLiteral.alphabet := by
  obtain ⟨neg, whole, fraction, hwhole, hfraction, rfl⟩ := h
  have hchars : whole ++ pointed fraction =
      (DecimalLiteral.mk whole fraction none hwhole hfraction).chars := by
    rw [DecimalLiteral.chars, DecimalLiteral.exponentPart, Option.elim_none, List.append_nil]
  rw [hchars] at hc
  exact DecimalLiteral.mem_alphabet_of_mem_signed _ hc

/-- A literal without an exponent is plain. -/
theorem isPlain_signed (neg : Bool) {l : DecimalLiteral} (h : l.exponent = none) :
    IsPlain (signed neg l.chars) := by
  refine ⟨neg, l.whole, l.fraction, l.isWhole_whole, l.isDigit_fraction, ?_⟩
  rw [DecimalLiteral.chars, DecimalLiteral.exponentPart, h, Option.elim_none, List.append_nil]

/-- It has a point when it has a fraction. -/
theorem mem_point_signed (neg : Bool) {l : DecimalLiteral} (h : l.exponent = none) :
    '.' ∈ signed neg l.chars ↔ l.fraction ≠ [] := by
  have hwhole : '.' ∉ l.whole := fun hmem => by
    simpa using (isDigits_iff.1 (isWhole_iff.1 l.isWhole_whole).1).2 _ hmem
  have hpointed : '.' ∈ pointed l.fraction ↔ l.fraction ≠ [] := by
    cases l.fraction <;> simp [pointed]
  cases neg <;>
    simp [signed, DecimalLiteral.chars, DecimalLiteral.exponentPart, h, hwhole, hpointed]

end Numeral

/-- A text of digits is the number's usual one. -/
theorem ofList_intChars (i : ℤ) : String.ofList (intChars i) = toString i := by
  cases i with
  | ofNat n => rfl
  | negSucc n =>
    rw [intChars, if_pos (Int.negSucc_lt_zero n), String.ofList_cons]
    rfl

/-- A whole number denotes itself. -/
theorem denoted?_intChars (i : ℤ) : Numeral.denoted? (intChars i) = some (i : ℚ) := by
  have hmagnitude : (DecimalLiteral.ofNat i.natAbs).magnitude = (i.natAbs : ℚ) := by
    rw [DecimalLiteral.magnitude, DecimalLiteral.coefficient_ofNat]
    simp [DecimalLiteral.power, DecimalLiteral.ofNat]
  rw [intChars_eq_literal, Numeral.denoted?_signed, hmagnitude, Option.some.injEq, Nat.cast_natAbs]
  by_cases hneg : i < 0
  · simp [hneg, abs_of_neg hneg]
  · simp [hneg, abs_of_nonneg (not_lt.1 hneg)]

namespace Number

variable {m n : Number} {p q : ℚ}

/-- **A whole number is written out, whichever kind it is of.** -/
theorem plainChars_of_value_eq_intCast {i : ℤ} (h : n.value = .rational i) :
    n.plainChars = intChars i := by
  match n, h with
  | .int j, h =>
    have hj : j = i := by exact_mod_cast Quantity.rational.inj h
    rw [hj]
    rfl
  | .float (.finite x), h =>
    have hint : x.toInt? = some i := FiniteBinary64.toInt?_eq_some_iff.2 (Quantity.rational.inj h)
    rw [plainChars, Binary64.plainChars, hint]

/-- Only a binary64 number has a value that is not whole. -/
theorem exists_finite_of_value (h : n.value = .rational q) (hq : ∀ i : ℤ, q ≠ i) :
    ∃ x : FiniteBinary64, n = .float (.finite x) ∧ x.value = q ∧ x.toInt? = none := by
  match n, h with
  | .int j, h => exact absurd (Quantity.rational.inj h).symm (hq j)
  | .float (.finite x), h =>
    have hvalue : x.value = q := Quantity.rational.inj h
    refine ⟨x, rfl, hvalue, Option.eq_none_iff_forall_ne_some.2 fun i hi => ?_⟩
    exact hq i (hvalue.symm.trans (FiniteBinary64.toInt?_eq_some_iff.1 hi))

end Number

namespace FiniteBinary64

variable {x y : FiniteBinary64}

/-- A number that is not whole is written as a literal of its shortest decimal
with a fraction and without an exponent. -/
theorem exists_plainChars_eq (h : x.toInt? = none) :
    ∃ l : DecimalLiteral, l.exponent = none ∧ l.fraction ≠ [] ∧
      l.magnitude = x.shortest.magnitude ∧
      (Number.float (.finite x)).plainChars = Numeral.signed x.neg l.chars := by
  have hexponent := exponent_shortest_neg (magnitude_ne_of_toInt?_eq_none h)
  obtain ⟨hne, -⟩ := Numeral.isDigits_iff.1 (Decimal.isDigits_fractionDigits hexponent)
  refine ⟨x.shortest.pointLiteral hexponent, rfl, hne,
    x.shortest.magnitude_pointLiteral hexponent, ?_⟩
  rw [← x.neg_shortest, ← x.shortest.positional_eq_signed hexponent, Number.plainChars,
    Binary64.plainChars, h]

/-- **A value other than zero is that of one number of the format.** -/
theorem eq_of_value_eq (h : x.value = y.value) (hzero : x.value ≠ 0) : x = y := by
  have hmagnitude : x.magnitude = y.magnitude := by rw [magnitude_eq_abs, h, ← magnitude_eq_abs]
  have hneg : x.neg = y.neg := by
    by_contra hsigns
    have hopposite : y.value = -x.value := by
      rw [value, value, hmagnitude, Bool.eq_not_of_ne hsigns]
      cases y.neg <;> simp
    have : x.value = 0 := by linarith
    exact hzero this
  have hread := Binary64.ofDecimal_of_eq_magnitude x.magnitude_exactDecimal
  have hread' := Binary64.ofDecimal_of_eq_magnitude (x.magnitude_exactDecimal.trans hmagnitude)
  rw [hneg, hread'] at hread
  exact (Binary64.finite.inj hread).symm

end FiniteBinary64

namespace Number

variable {m n : Number} {p q : ℚ}

/-- **Numbers of the same value have the same plain text.** -/
theorem plain_eq_of_value_eq (hm : m.value = .rational q) (hn : n.value = .rational q) :
    m.plain = n.plain := by
  unfold plain
  by_cases hq : ∃ i : ℤ, q = i
  · obtain ⟨i, rfl⟩ := hq
    rw [plainChars_of_value_eq_intCast hm, plainChars_of_value_eq_intCast hn]
  · rw [not_exists] at hq
    obtain ⟨x, rfl, hx, -⟩ := exists_finite_of_value hm hq
    obtain ⟨y, rfl, hy, -⟩ := exists_finite_of_value hn hq
    have hzero : x.value ≠ 0 := fun h => hq 0 (by rw [← hx, h, Int.cast_zero])
    rw [FiniteBinary64.eq_of_value_eq (hx.trans hy.symm) hzero]

/-- What the plain text of a number of the value `q` tells, `exact` being the
number's exact text. -/
structure TellsValue (text : String) (exact : List Char) (q : ℚ) : Prop where
  /-- It is a plain decimal. -/
  isPlain : Numeral.IsPlain text.toList
  /-- It has a fraction unless the number is whole. -/
  point_iff : '.' ∈ text.toList ↔ ∀ i : ℤ, q ≠ i
  /-- A whole number is written out and denotes itself. -/
  whole : ∀ i : ℤ, q = i → text = toString i ∧ Numeral.denoted? text.toList = some q
  /-- Any other number denotes what its exact text does. -/
  fraction : (∀ i : ℤ, q ≠ i) →
    ∃ r, Numeral.denoted? text.toList = some r ∧ Numeral.denoted? exact = some r

/-- The text of a whole number tells its value. -/
theorem tellsValue_intCast {i : ℤ} (h : n.value = .rational i) :
    TellsValue n.plain n.exactChars i := by
  have hchars : n.plain.toList = intChars i := by
    rw [plain, String.toList_ofList, plainChars_of_value_eq_intCast h]
  have hliteral := intChars_eq_literal i
  constructor
  · rw [hchars, hliteral]
    exact Numeral.isPlain_signed _ rfl
  · rw [hchars, hliteral, Numeral.mem_point_signed _ rfl]
    exact ⟨fun hne => absurd rfl hne, fun hne => absurd rfl (hne i)⟩
  · intro j hj
    rw [hchars, denoted?_intChars, ← ofList_intChars, ← Int.cast_injective hj,
      plain, plainChars_of_value_eq_intCast h]
    exact ⟨rfl, rfl⟩
  · exact fun hne => absurd rfl (hne i)

/-- The text of any other number tells its value. -/
theorem tellsValue_fraction (h : n.value = .rational q) (hq : ∀ i : ℤ, q ≠ i) :
    TellsValue n.plain n.exactChars q := by
  obtain ⟨x, rfl, -, hnone⟩ := exists_finite_of_value h hq
  obtain ⟨l, hexponent, hfraction, hmagnitude, hplain⟩ := FiniteBinary64.exists_plainChars_eq hnone
  obtain ⟨l', -, hmagnitude', hexact⟩ := x.exists_exactChars_eq
  have hchars : (Number.float (.finite x)).plain.toList = Numeral.signed x.neg l.chars := by
    rw [plain, String.toList_ofList, hplain]
  constructor
  · rw [hchars]
    exact Numeral.isPlain_signed _ hexponent
  · rw [hchars, Numeral.mem_point_signed _ hexponent]
    exact ⟨fun _ => hq, fun _ => hfraction⟩
  · exact fun i hi => absurd hi (hq i)
  · intro _
    refine ⟨if x.neg then -x.shortest.magnitude else x.shortest.magnitude, ?_, ?_⟩
    · rw [hchars, Numeral.denoted?_signed, hmagnitude]
    · rw [hexact, Numeral.denoted?_signed, hmagnitude']

/-- The text of a number with a value tells it. -/
theorem tellsValue (h : n.value = .rational q) : TellsValue n.plain n.exactChars q := by
  by_cases hq : ∃ i : ℤ, q = i
  · obtain ⟨i, rfl⟩ := hq
    exact tellsValue_intCast h
  · exact tellsValue_fraction h (not_exists.1 hq)

/-- A plain decimal is no name. -/
theorem not_mem_names_of_isPlain {text : String} (h : Numeral.IsPlain text.toList) :
    text ∉ ["NaN", "Infinity", "-Infinity"] := by
  intro hmem
  have hletter : 'N' ∈ text.toList ∨ 'I' ∈ text.toList := by
    simp only [List.mem_cons, List.not_mem_nil, or_false] at hmem
    rcases hmem with rfl | rfl | rfl <;> decide
  rcases hletter with hletter | hletter
  · exact absurd (h.mem_alphabet hletter) (by decide)
  · exact absurd (h.mem_alphabet hletter) (by decide)

/-- **The plain text of a number tells its value and nothing else**: numbers
have the same text exactly when they have the same value. -/
theorem plain_tells_value (hm : m.value = .rational p) (hn : n.value = .rational q) :
    TellsValue n.plain n.exactChars q ∧ (m.plain = n.plain ↔ p = q) ∧
      n.plain ∉ ["NaN", "Infinity", "-Infinity"] := by
  refine ⟨tellsValue hn, ⟨fun h => ?_, ?_⟩, not_mem_names_of_isPlain (tellsValue hn).isPlain⟩
  · have hvalue := value_eq_of_plain_eq h
    rw [hm, hn] at hvalue
    exact Quantity.rational.inj hvalue
  · rintro rfl
    exact plain_eq_of_value_eq hm hn

/-- The binary64 number ten to the power of 22. -/
def tenSextillion : Number :=
  .float (.finite ⟨false, 4768371582031250, 21, by decide⟩)

/-- The binary64 number two to the power of -20. -/
def aboutOneMillionth : Number :=
  .float (.finite ⟨false, 4503599627370496, -72, by decide⟩)

/-- A whole number without its exponent, and a fraction without its own. -/
theorem plain_aboutOneMillionth :
    tenSextillion.value = .rational (10 ^ 22) ∧ aboutOneMillionth.value = .rational (1 / 2 ^ 20) ∧
      tenSextillion.plain = "10000000000000000000000" ∧
      aboutOneMillionth.plain = "0.00000095367431640625" ∧
      aboutOneMillionth.exactChars = "9.5367431640625e-07".toList ∧
      TellsValue aboutOneMillionth.plain aboutOneMillionth.exactChars (1 / 2 ^ 20) ∧
      (tenSextillion.plain = aboutOneMillionth.plain ↔ (10 ^ 22 : ℚ) = 1 / 2 ^ 20) ∧
      aboutOneMillionth.plain ∉ ["NaN", "Infinity", "-Infinity"] := by
  have hten : tenSextillion.value = .rational (10 ^ 22) := by
    refine congrArg Quantity.rational ?_
    norm_num [FiniteBinary64.value, FiniteBinary64.magnitude]
  have hmillionth : aboutOneMillionth.value = .rational (1 / 2 ^ 20) := by
    refine congrArg Quantity.rational ?_
    norm_num [FiniteBinary64.value, FiniteBinary64.magnitude]
  exact ⟨hten, hmillionth, by decide +kernel, by decide +kernel, by decide +kernel,
    plain_tells_value hten hmillionth⟩

end Number

end SchemaProse
