import SchemaProse.Proofs.Number.Numeral
/-!
# Number — a number is read back from its plain text

The plain text of a number has one of four forms (`PlainText`): an integer in
decimal, whole digits and a fraction that does not end in zero, an infinity or
NaN by name. Read as a numeral, each of them gives a number of the value that
it was written for (`exists_number?_plainChars`): the first a whole number, the
second the number nearest to the decimal, which is the number that was written.
So numbers with the same plain text have the same value.
-/

namespace SchemaProse

/-! ## The two runs of digits of a decimal -/

namespace Numeral

/-- Zeros in front count nothing. -/
theorem ofDigits_replicate_append (n : ℕ) (cs : List Char) :
    ofDigits (List.replicate n '0' ++ cs) = ofDigits cs := by
  induction n with
  | zero => rfl
  | succ n ih =>
    rw [List.replicate_succ, List.cons_append, ← ih]
    rfl

end Numeral

namespace Decimal

variable {d : Decimal}

/-- The digits around the point are those of the coefficient, with zeros in
front when there are too few. -/
theorem wholeDigits_append_fractionDigits (h : d.exponent < 0) :
    ∃ n, d.wholeDigits ++ d.fractionDigits = List.replicate n '0' ++ d.digits := by
  unfold wholeDigits fractionDigits
  rw [if_neg (not_le.2 h), if_neg (not_le.2 h)]
  dsimp only
  split
  next => exact ⟨(-d.exponent).toNat - d.digits.length + 1, by simp [List.replicate_succ]⟩
  next => exact ⟨0, List.take_append_drop _ _⟩

/-- Without their point they are the coefficient. -/
theorem ofDigits_wholeDigits_append (h : d.exponent < 0) :
    Numeral.ofDigits (d.wholeDigits ++ d.fractionDigits) = d.coefficient := by
  obtain ⟨n, hn⟩ := wholeDigits_append_fractionDigits h
  rw [hn, Numeral.ofDigits_replicate_append]
  exact Numeral.ofDigits_digitChars d.coefficient

/-- There are as many digits behind the point as the exponent says. -/
theorem length_fractionDigits (h : d.exponent < 0) :
    (d.fractionDigits.length : ℤ) = -d.exponent := by
  unfold fractionDigits
  rw [if_neg (not_le.2 h)]
  dsimp only
  split
  next hshort =>
    rw [List.length_append, List.length_replicate]
    omega
  next hlong =>
    rw [List.length_drop]
    omega

/-- The digits before the point have no superfluous zero in front. -/
theorem isWhole_wholeDigits (h : d.exponent < 0) : Numeral.isWhole d.wholeDigits = true := by
  unfold wholeDigits
  rw [if_neg (not_le.2 h)]
  dsimp only
  split
  next => decide
  next hlong =>
    obtain ⟨hdigits, hzero⟩ := Numeral.isWhole_iff.1 (Numeral.isWhole_digitChars d.coefficient)
    obtain ⟨hne, hall⟩ := Numeral.isDigits_iff.1 hdigits
    change ¬ (digitChars d.coefficient).length ≤ _ at hlong
    have hpos : 0 < (digitChars d.coefficient).length - (-d.exponent).toNat := by omega
    refine Numeral.isWhole_iff.2 ⟨Numeral.isDigits_iff.2 ⟨?_, ?_⟩, .inl ?_⟩
    · rw [digits, Ne, List.take_eq_nil_iff, not_or]
      exact ⟨hpos.ne', hne⟩
    · exact fun c hc => hall c (List.mem_of_mem_take hc)
    · -- a single digit does not reach across the point
      rw [digits, List.head?_take, if_neg hpos.ne']
      exact hzero.resolve_right (by omega)

theorem isDigits_fractionDigits (h : d.exponent < 0) :
    Numeral.isDigits d.fractionDigits = true := by
  have hlength := length_fractionDigits h
  obtain ⟨n, hn⟩ := wholeDigits_append_fractionDigits h
  refine Numeral.isDigits_iff.2 ⟨?_, fun c hc => ?_⟩
  · intro hnil
    rw [hnil] at hlength
    simp only [List.length_nil] at hlength
    omega
  · have hmem : c ∈ List.replicate n '0' ++ d.digits := hn ▸ List.mem_append_right _ hc
    rcases List.mem_append.1 hmem with hzero | hdigit
    · rw [List.eq_of_mem_replicate hzero]
      decide
    · exact isDigit_of_mem_digitChars hdigit

/-- The last digit behind the point is the last one of the coefficient. -/
theorem getLast?_fractionDigits (h : d.exponent < 0) :
    d.fractionDigits.getLast? = some (d.coefficient % 10).digitChar := by
  rw [← getLast?_digitChars]
  unfold fractionDigits
  rw [if_neg (not_le.2 h)]
  dsimp only
  split
  next => exact List.getLast?_append_of_ne_nil _ (digitChars_ne_nil _)
  next hlong =>
    rw [List.getLast?_drop, if_neg (by omega)]
    rfl

/-- Unless the coefficient ends in zero, they are not all zeros. -/
theorem fractionDigits_all_zero (h : d.exponent < 0) (hlast : d.coefficient % 10 ≠ 0) :
    d.fractionDigits.all (· == '0') = false := by
  have hmem := List.mem_of_getLast? (getLast?_fractionDigits h)
  have hdigit : (d.coefficient % 10).digitChar ≠ '0' := by
    have hsmall : d.coefficient % 10 < 10 := Nat.mod_lt _ (by decide)
    interval_cases d.coefficient % 10
    · exact absurd rfl hlast
    all_goals decide
  rw [List.all_eq_false]
  exact ⟨_, hmem, by simpa using hdigit⟩

/-- A decimal with places is written with a point. -/
theorem positional_eq (h : d.exponent < 0) :
    d.positional = Numeral.signed d.neg (d.wholeDigits ++ '.' :: d.fractionDigits) := by
  obtain ⟨hne, -⟩ := Numeral.isDigits_iff.1 (isDigits_fractionDigits h)
  have hlayout : d.positional = d.signed (d.wholeDigits ++ '.' :: d.fractionDigits) := by
    unfold positional
    split
    next hnil => exact absurd hnil hne
    next => rfl
  rw [hlayout]
  rfl

end Decimal

/-! ## The forms of a plain text -/

/-- An integer is written as a sign and digits. -/
theorem intChars_eq_signed (i : ℤ) :
    intChars i = Numeral.signed (decide (i < 0)) (digitChars i.natAbs) := by
  unfold intChars Numeral.signed
  split <;> simp_all

/-- A plain text of a number: an integer that the number equals, digits with a
point that read back as the number, or its name. -/
inductive PlainText : Number → List Char → Prop
  /-- The integer that a number equals. -/
  | whole {n : Number} {i : ℤ} (hvalue : n.value = .rational i) : PlainText n (intChars i)
  /-- Digits and a fraction that is not all zeros. -/
  | point {x : FiniteBinary64} {whole fraction : List Char}
      (hwhole : Numeral.isWhole whole = true) (hfraction : Numeral.isDigits fraction = true)
      (hnonzero : fraction.all (· == '0') = false)
      (hreads : Binary64.ofDecimal x.neg (Numeral.ofDigits (whole ++ fraction))
        (-(fraction.length : ℤ)) = .finite x) :
      PlainText (.float (.finite x)) (Numeral.signed x.neg (whole ++ '.' :: fraction))
  /-- An infinity by name. -/
  | infinity (neg : Bool) :
      PlainText (.float (.infinity neg))
        (Numeral.signed neg ['I', 'n', 'f', 'i', 'n', 'i', 't', 'y'])
  /-- The name of what is no number. -/
  | nan : PlainText (.float .nan) ['N', 'a', 'N']

/-- A number that is not whole is written with a point. -/
theorem plainText_positional {x : FiniteBinary64} (h : x.toInt? = none) :
    PlainText (.float (.finite x)) x.shortest.positional := by
  have hne : ∀ k : ℕ, x.magnitude ≠ k := FiniteBinary64.magnitude_ne_of_toInt?_eq_none h
  have hexponent := FiniteBinary64.exponent_shortest_neg hne
  have hmantissa : x.mantissa ≠ 0 := by
    intro hzero
    exact hne 0 (by simp [FiniteBinary64.magnitude, hzero])
  rw [Decimal.positional_eq hexponent, x.neg_shortest]
  refine .point (Decimal.isWhole_wholeDigits hexponent)
    (Decimal.isDigits_fractionDigits hexponent) (Decimal.fractionDigits_all_zero hexponent
      (FiniteBinary64.shortest_mod_ten_ne_zero hmantissa)) ?_
  rw [Decimal.ofDigits_wholeDigits_append hexponent, Decimal.length_fractionDigits hexponent,
    neg_neg]
  exact x.ofDecimal_shortest

/-- **Every number is written in one of the four forms.** -/
theorem plainText (n : Number) : PlainText n n.plainChars := by
  match n with
  | .int i => exact .whole rfl
  | .float .nan => exact .nan
  | .float (.infinity neg) => cases neg <;> exact .infinity _
  | .float (.finite x) =>
    rw [Number.plainChars, Binary64.plainChars]
    split
    next i hi => exact .whole (congrArg Quantity.rational (FiniteBinary64.toInt?_eq_some_iff.1 hi))
    next hnone => exact plainText_positional hnone

/-! ## Reading a plain text -/

namespace Numeral

theorem withSign_natAbs (i : ℤ) : withSign (decide (i < 0)) i.natAbs = i := by
  unfold withSign
  split
  next hneg =>
    rw [decide_eq_true_eq] at hneg
    omega
  next hpos =>
    rw [decide_eq_true_eq] at hpos
    omega

/-- **An integer is read back from its text.** -/
theorem integer?_intChars (i : ℤ) : integer? (intChars i) = some i := by
  rw [intChars_eq_signed, integer?_signed (isWhole_digitChars _), ofDigits_digitChars,
    withSign_natAbs]

/-- **What is read from a plain text has the value of the number that was
written.** -/
theorem exists_number?_of_plainText {n : Number} {cs : List Char} (h : PlainText n cs) :
    ∃ m, number? cs = some m ∧ m.value = n.value := by
  cases h with
  | @whole n i hvalue =>
    refine ⟨.int i, ?_, hvalue.symm⟩
    rw [number?, integer?_intChars]
  | @point x whole fraction hwhole hfraction hnonzero hreads =>
    refine ⟨.float (.finite x), ?_, rfl⟩
    rw [number?, integer?_point hwhole hfraction hnonzero, float?_point hwhole hfraction, hreads]
    rfl
  | infinity neg =>
    refine ⟨.float (.infinity neg), ?_, rfl⟩
    cases neg <;> decide
  | nan => exact ⟨.float .nan, by decide, rfl⟩

end Numeral

namespace Number

/-- **A number is read back from its plain text.** -/
theorem exists_number?_plainChars (n : Number) :
    ∃ m, Numeral.number? n.plainChars = some m ∧ m.value = n.value :=
  Numeral.exists_number?_of_plainText (plainText n)

/-- **Numbers with the same plain text have the same value.** -/
theorem value_eq_of_plain_eq {m n : Number} (h : m.plain = n.plain) : m.value = n.value := by
  obtain ⟨k, hk, hvalue⟩ := m.exists_number?_plainChars
  obtain ⟨l, hl, hvalue'⟩ := n.exists_number?_plainChars
  rw [String.ofList_injective h, hl] at hk
  rw [← hvalue, ← hvalue', Option.some.inj hk]

/-- A number is written without blanks. -/
theorem isSpace_of_mem_plainChars {n : Number} {c : Char} (h : c ∈ n.plainChars) :
    Text.isSpace c = false := by
  have hform := plainText n
  generalize n.plainChars = cs at h hform
  cases hform with
  | @whole n i hvalue =>
    rw [intChars_eq_signed] at h
    exact Numeral.isSpace_of_mem_signed (fun c hc => .inl (isDigit_of_mem_digitChars hc)) c h
  | point hwhole hfraction =>
    exact Numeral.isSpace_of_mem_signed (Numeral.isDigit_or_point hwhole hfraction) c h
  | infinity neg =>
    have hall (neg : Bool) :
        (Numeral.signed neg ['I', 'n', 'f', 'i', 'n', 'i', 't', 'y']).all
          (fun c => !Text.isSpace c) = true := by
      cases neg <;> decide
    simpa using List.all_eq_true.1 (hall neg) c h
  | nan =>
    have hall : ['N', 'a', 'N'].all (fun c => !Text.isSpace c) = true := by decide
    simpa using List.all_eq_true.1 hall c h

end Number

end SchemaProse
