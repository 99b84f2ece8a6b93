import SchemaProse.Proofs.Number.Literal
/-!
# Number — the exact text is read back

Each layout of a decimal is a sign and a literal of the same magnitude
(`pointLiteral`, `zeroPlaceLiteral`, `scientificLiteral`), and the layout that
marks a number as a fraction never looks like a whole number
(`exists_marked_eq`). So every number is read back from its exact text, its kind
included, unless it is one of the three that have names (`exact_cases`), and
numbers with the same exact text are the same (`exactChars_injective`). The
text consists of a few characters only (`mem_exactAlphabet`).
-/

namespace SchemaProse

/-! ## The layouts of a decimal -/

namespace Numeral

/-- A zero at the end is a factor of ten. -/
theorem ofDigits_append_replicate (cs : List Char) (n : ℕ) :
    ofDigits (cs ++ List.replicate n '0') = 10 ^ n * ofDigits cs := by
  rw [ofDigits, Nat.ofDigitChars_append, Nat.ofDigitChars_replicate_zero]
  rfl

end Numeral

namespace Decimal

variable (d : Decimal)

/-- Digits before the point and behind it. -/
def pointLiteral (h : d.exponent < 0) : DecimalLiteral where
  whole := d.wholeDigits
  fraction := d.fractionDigits
  exponent := none
  isWhole_whole := isWhole_wholeDigits h
  isDigit_fraction := (Numeral.isDigits_iff.1 (isDigits_fractionDigits h)).2

theorem magnitude_pointLiteral (h : d.exponent < 0) :
    (d.pointLiteral h).magnitude = d.magnitude := by
  simp only [DecimalLiteral.magnitude, DecimalLiteral.coefficient, DecimalLiteral.power,
    pointLiteral, ofDigits_wholeDigits_append h, length_fractionDigits h, Option.getD_none,
    zero_sub, neg_neg, magnitude]

/-- A decimal with places is written as those digits. -/
theorem positional_eq_signed (h : d.exponent < 0) :
    d.positional = Numeral.signed d.neg (d.pointLiteral h).chars := by
  obtain ⟨hne, -⟩ := Numeral.isDigits_iff.1 (isDigits_fractionDigits h)
  obtain ⟨c, cs, hcs⟩ := List.exists_cons_of_ne_nil hne
  rw [positional_eq h]
  simp [DecimalLiteral.chars, DecimalLiteral.exponentPart, pointLiteral, hcs, Numeral.pointed]

/-- Without places, the digits and the zeros behind them have no superfluous
zero in front. -/
theorem isWhole_wholeDigits_of_nonneg (hzero : d.coefficient = 0 → d.exponent = 0)
    (h : 0 ≤ d.exponent) : Numeral.isWhole d.wholeDigits = true := by
  have hwhole := Numeral.isWhole_digitChars d.coefficient
  obtain ⟨hdigits, -⟩ := Numeral.isWhole_iff.1 hwhole
  obtain ⟨hne, hall⟩ := Numeral.isDigits_iff.1 hdigits
  rw [wholeDigits, if_pos h]
  by_cases hc : d.coefficient = 0
  · rw [hzero hc]
    simpa [digits] using hwhole
  · refine Numeral.isWhole_iff.2 ⟨Numeral.isDigits_iff.2 ⟨by simp [digits, hne], ?_⟩, .inl ?_⟩
    · refine List.forall_mem_append.2 ⟨hall, fun c hmem => ?_⟩
      rw [List.eq_of_mem_replicate hmem]
      decide
    · rw [digits, List.head?_append_of_ne_nil _ hne]
      exact head?_digitChars_ne_zero hc

/-- Whole digits with one zero behind the point. -/
def zeroPlaceLiteral (hzero : d.coefficient = 0 → d.exponent = 0) (h : 0 ≤ d.exponent) :
    DecimalLiteral where
  whole := d.wholeDigits
  fraction := ['0']
  exponent := none
  isWhole_whole := d.isWhole_wholeDigits_of_nonneg hzero h
  isDigit_fraction := List.forall_mem_singleton.2 rfl

theorem magnitude_zeroPlaceLiteral (hzero : d.coefficient = 0 → d.exponent = 0)
    (h : 0 ≤ d.exponent) : (d.zeroPlaceLiteral hzero h).magnitude = d.magnitude := by
  obtain ⟨n, hn⟩ := Int.eq_ofNat_of_zero_le h
  have hdigits : d.wholeDigits ++ ['0'] = d.digits ++ List.replicate (n + 1) '0' := by
    rw [wholeDigits, if_pos h, hn, List.append_assoc, List.replicate_succ']
    rfl
  have hcoefficient : (d.zeroPlaceLiteral hzero h).coefficient = 10 ^ (n + 1) * d.coefficient := by
    change Numeral.ofDigits (d.wholeDigits ++ ['0']) = _
    rw [hdigits, Numeral.ofDigits_append_replicate, digits, Numeral.ofDigits_digitChars]
  have hpower : (d.zeroPlaceLiteral hzero h).power = -1 := rfl
  rw [DecimalLiteral.magnitude, hcoefficient, hpower, magnitude, hn]
  push_cast
  rw [pow_succ, zpow_natCast, zpow_neg_one]
  field_simp

/-- The first digit, the others behind a point, and an exponent. -/
def scientificLiteral : DecimalLiteral where
  whole := d.digits.take 1
  fraction := d.digits.drop 1
  exponent := some d.leadingExponent
  isWhole_whole := by
    have hlength : 0 < d.digits.length := List.length_pos_iff.2 (digitChars_ne_nil _)
    refine Numeral.isWhole_iff.2 ⟨Numeral.isDigits_iff.2 ⟨?_, fun c hc => ?_⟩, .inr ?_⟩
    · rw [Ne, List.take_eq_nil_iff, not_or]
      exact ⟨one_ne_zero, digitChars_ne_nil _⟩
    · exact isDigit_of_mem_digitChars (List.mem_of_mem_take hc)
    · rw [List.length_take]
      omega
  isDigit_fraction := fun _ hc => isDigit_of_mem_digitChars (List.mem_of_mem_drop hc)

theorem magnitude_scientificLiteral : d.scientificLiteral.magnitude = d.magnitude := by
  have hlength : 0 < d.digits.length := List.length_pos_iff.2 (digitChars_ne_nil _)
  have hcoefficient : d.scientificLiteral.coefficient = d.coefficient := by
    rw [DecimalLiteral.coefficient, scientificLiteral, List.take_append_drop]
    exact Numeral.ofDigits_digitChars d.coefficient
  have hpower : d.scientificLiteral.power = d.exponent := by
    simp only [DecimalLiteral.power, scientificLiteral, Option.getD_some, leadingExponent,
      List.length_drop]
    omega
  rw [DecimalLiteral.magnitude, hcoefficient, hpower, magnitude]

theorem scientific_eq_signed :
    d.scientific = Numeral.signed d.neg d.scientificLiteral.chars := by
  obtain ⟨c, cs, hcs⟩ := List.exists_cons_of_ne_nil (digitChars_ne_nil d.coefficient)
  have hdigits : d.digits = c :: cs := hcs
  cases cs with
  | nil =>
    simp [scientific, DecimalLiteral.chars, DecimalLiteral.exponentPart, scientificLiteral,
      hdigits, Numeral.pointed, signed, Numeral.signed]
  | cons d' ds =>
    simp [scientific, DecimalLiteral.chars, DecimalLiteral.exponentPart, scientificLiteral,
      hdigits, Numeral.pointed, signed, Numeral.signed]

/-- **The marked text is a literal of the same magnitude that does not look
like a whole number.** -/
theorem exists_marked_eq (hzero : d.coefficient = 0 → d.exponent = 0) :
    ∃ l : DecimalLiteral, l.isInteger = false ∧ l.magnitude = d.magnitude ∧
      d.marked = Numeral.signed d.neg l.chars := by
  by_cases hwindow : -4 ≤ d.leadingExponent ∧ d.leadingExponent < 16
  · by_cases h : d.exponent < 0
    · obtain ⟨hne, -⟩ := Numeral.isDigits_iff.1 (isDigits_fractionDigits h)
      refine ⟨d.pointLiteral h, ?_, d.magnitude_pointLiteral h, ?_⟩
      · simp [DecimalLiteral.isInteger, pointLiteral, hne]
      · rw [marked, if_pos hwindow, ← d.positional_eq_signed h]
        split
        next hnil => exact absurd hnil hne
        next => rfl
    · have hpos : 0 ≤ d.exponent := not_lt.1 h
      have hnil : d.fractionDigits = [] := by rw [fractionDigits, if_pos hpos]
      refine ⟨d.zeroPlaceLiteral hzero hpos, rfl, d.magnitude_zeroPlaceLiteral hzero hpos, ?_⟩
      cases hneg : d.neg <;>
        simp [marked, hwindow, hnil, positional, signed, hneg, Numeral.signed, DecimalLiteral.chars,
          zeroPlaceLiteral, DecimalLiteral.exponentPart, Numeral.pointed]
  · refine ⟨d.scientificLiteral, ?_, d.magnitude_scientificLiteral, ?_⟩
    · simp [DecimalLiteral.isInteger, scientificLiteral]
    · rw [marked, if_neg hwindow, scientific_eq_signed]

end Decimal

/-! ## Reading the exact text of a number -/

namespace FiniteBinary64

/-- The shortest decimal of zero has no exponent. -/
theorem exponent_shortest_of_coefficient {x : FiniteBinary64} (h : x.shortest.coefficient = 0) :
    x.shortest.exponent = 0 := by
  by_cases hmantissa : x.mantissa = 0
  · rw [shortest, if_pos hmantissa]
  · exact absurd (by rw [h]) (shortest_mod_ten_ne_zero hmantissa)

/-- **The exact text of a finite number is a literal of its shortest decimal**,
which does not look like a whole number. -/
theorem exists_exactChars_eq (x : FiniteBinary64) :
    ∃ l : DecimalLiteral, l.isInteger = false ∧ l.magnitude = x.shortest.magnitude ∧
      (Number.float (.finite x)).exactChars = Numeral.signed x.neg l.chars := by
  rw [← x.neg_shortest]
  exact x.shortest.exists_marked_eq exponent_shortest_of_coefficient

/-- A literal of the magnitude of the shortest decimal is read as the number. -/
theorem ofDecimal_of_magnitude_eq {x : FiniteBinary64} {l : DecimalLiteral}
    (h : l.magnitude = x.shortest.magnitude) :
    Binary64.ofDecimal x.neg l.coefficient l.power = .finite x := by
  rw [← x.ofDecimal_shortest]
  exact Binary64.ofDecimal_congr x.neg h

end FiniteBinary64

/-- The literal of a whole number. -/
def DecimalLiteral.ofNat (n : ℕ) : DecimalLiteral where
  whole := digitChars n
  fraction := []
  exponent := none
  isWhole_whole := Numeral.isWhole_digitChars n
  isDigit_fraction := by simp

theorem DecimalLiteral.chars_ofNat (n : ℕ) : (ofNat n).chars = digitChars n :=
  List.append_nil _

theorem DecimalLiteral.coefficient_ofNat (n : ℕ) : (ofNat n).coefficient = n := by
  rw [coefficient, ofNat, List.append_nil, Numeral.ofDigits_digitChars]

theorem intChars_eq_literal (i : ℤ) :
    intChars i = Numeral.signed (decide (i < 0)) (DecimalLiteral.ofNat i.natAbs).chars := by
  rw [intChars_eq_signed, DecimalLiteral.chars_ofNat]

namespace Number

/-- The numbers without a value, which have names. -/
def named : List Number :=
  [.float .nan, .float (.infinity false), .float (.infinity true)]

/-- **A number is read back from its exact text**, a literal with a sign, unless
it has a name. -/
theorem exact_cases (n : Number) :
    (Json.number? n.exactChars = some n ∧
        ∃ neg l, n.exactChars = Numeral.signed neg (DecimalLiteral.chars l)) ∨
      (n ∈ named ∧ Json.number? n.exactChars = none) := by
  match n with
  | .int i =>
    refine .inl ⟨?_, _, _, intChars_eq_literal i⟩
    rw [exactChars, intChars_eq_literal, Json.number?_signed, DecimalLiteral.coefficient_ofNat,
      Numeral.withSign_natAbs]
    rfl
  | .float (.finite x) =>
    obtain ⟨l, hinteger, hmagnitude, hchars⟩ := x.exists_exactChars_eq
    refine .inl ⟨?_, _, l, hchars⟩
    rw [hchars, Json.number?_signed, hinteger,
      FiniteBinary64.ofDecimal_of_magnitude_eq hmagnitude]
    rfl
  | .float (.infinity false) => exact .inr (by decide)
  | .float (.infinity true) => exact .inr (by decide)
  | .float .nan => exact .inr (by decide)

/-- **Numbers with the same exact text are the same**, whatever their kinds. -/
theorem exactChars_injective : Function.Injective exactChars := by
  intro m n h
  have hreads : Json.number? m.exactChars = Json.number? n.exactChars := by rw [h]
  rcases m.exact_cases with ⟨hm, -⟩ | ⟨hmem, hm⟩
  · rcases n.exact_cases with ⟨hn, -⟩ | ⟨-, hn⟩
    · rw [hm, hn] at hreads
      exact Option.some.inj hreads
    · rw [hm, hn] at hreads
      cases hreads
  · rcases n.exact_cases with ⟨hn, -⟩ | ⟨hmem', -⟩
    · rw [hm, hn] at hreads
      cases hreads
    · have hnames : (named.map exactChars).Nodup := by decide
      exact List.inj_on_of_nodup_map hnames hmem hmem' h

/-! ## The characters of the exact text -/

/-- An exact text begins with a digit, a sign or the first letter of a name. -/
theorem exists_exactChars_cons (n : Number) :
    ∃ c cs, n.exactChars = c :: cs ∧ (c.isDigit = true ∨ c ∈ ['-', 'N', 'I']) := by
  rcases n.exact_cases with ⟨-, neg, l, hchars⟩ | ⟨hmem, -⟩
  · obtain ⟨c, cs, hcs, hdigit⟩ := l.exists_chars_cons
    rw [hchars]
    cases neg with
    | true => exact ⟨'-', l.chars, rfl, .inr (by decide)⟩
    | false => exact ⟨c, cs, hcs, .inl hdigit⟩
  · simp only [named, List.mem_cons, List.not_mem_nil, or_false] at hmem
    rcases hmem with rfl | rfl | rfl
    · exact ⟨_, _, rfl, .inr (by decide)⟩
    · exact ⟨_, _, rfl, .inr (by decide)⟩
    · exact ⟨_, _, rfl, .inr (by decide)⟩

/-- The characters of exact texts: those of literals and of the three names. -/
def exactAlphabet : List Char :=
  DecimalLiteral.alphabet ++ named.flatMap exactChars

/-- An exact text has no other characters. -/
theorem mem_exactAlphabet {n : Number} {c : Char} (h : c ∈ n.exactChars) : c ∈ exactAlphabet := by
  rcases n.exact_cases with ⟨-, neg, l, hchars⟩ | ⟨hmem, -⟩
  · rw [hchars] at h
    exact List.mem_append_left _ (l.mem_alphabet_of_mem_signed h)
  · exact List.mem_append_right _ (List.mem_flatMap.2 ⟨n, hmem, h⟩)

end Number

end SchemaProse
