import SchemaProse.Json.Reader
import SchemaProse.Proofs.Number.Plain
/-!
# Number — decimal literals

A decimal literal is a run of digits without a superfluous zero in front, a
fraction behind a point if there is one, and an exponent if there is one
(`DecimalLiteral`). It is read as its coefficient and its power of ten
(`decimal?_chars`), so that with a sign in front it denotes one rational number
(`denoted?_signed`). In a JSON text it stands for a whole number when it has
neither a fraction nor an exponent, and else for the binary64 number nearest to
what it denotes (`Json.number?_signed`).
-/

namespace SchemaProse

/-! ## Exponents -/

namespace Decimal

/-- An exponent is written with its sign, and digits that make its size. -/
theorem exists_exponentChars_eq (e : ℤ) : ∃ ds, Numeral.isDigits ds = true ∧
    Numeral.ofDigits ds = e.natAbs ∧
    exponentChars e = 'e' :: (if e < 0 then '-' else '+') :: ds := by
  have hdigits := (Numeral.isWhole_iff.1 (Numeral.isWhole_digitChars e.natAbs)).1
  have hvalue := Numeral.ofDigits_digitChars e.natAbs
  obtain ⟨-, hall⟩ := Numeral.isDigits_iff.1 hdigits
  by_cases hlength : (digitChars e.natAbs).length < 2
  · refine ⟨'0' :: digitChars e.natAbs, Numeral.isDigits_iff.2 ⟨List.cons_ne_nil _ _, ?_⟩, ?_, ?_⟩
    · exact List.forall_mem_cons.2 ⟨by decide, hall⟩
    · exact (Numeral.ofDigits_replicate_append 1 _).trans hvalue
    · simp only [exponentChars, if_pos hlength]
  · exact ⟨_, hdigits, hvalue, by simp only [exponentChars, if_neg hlength]⟩

/-- **An exponent is read back from its text.** -/
theorem exponent?_exponentChars (e : ℤ) : Numeral.exponent? (exponentChars e) = some e := by
  obtain ⟨ds, hdigits, hvalue, hchars⟩ := exists_exponentChars_eq e
  have hsign : Numeral.takeSign ((if e < 0 then '-' else '+') :: ds) = (decide (e < 0), ds) := by
    split <;> simp [Numeral.takeSign, *]
  rw [hchars, Numeral.exponent?, hsign]
  simp only [hdigits, hvalue, Numeral.withSign_natAbs]
  rfl

end Decimal

/-! ## Literals -/

/-- A decimal literal without its sign. -/
structure DecimalLiteral where
  /-- The digits before the point. -/
  whole : List Char
  /-- The digits behind it, none when there is no point. -/
  fraction : List Char
  /-- The power of ten behind the letter `e`, if there is one. -/
  exponent : Option ℤ
  isWhole_whole : Numeral.isWhole whole = true
  isDigit_fraction : ∀ c ∈ fraction, c.isDigit = true

namespace DecimalLiteral

variable (l : DecimalLiteral) (neg : Bool)

/-- What stands behind the digits and the fraction. -/
def exponentPart : List Char :=
  l.exponent.elim [] Decimal.exponentChars

/-- The text of the literal. -/
def chars : List Char :=
  l.whole ++ (Numeral.pointed l.fraction ++ l.exponentPart)

/-- All its digits as one number. -/
def coefficient : ℕ :=
  Numeral.ofDigits (l.whole ++ l.fraction)

/-- The power of ten of the last digit. -/
def power : ℤ :=
  l.exponent.getD 0 - l.fraction.length

/-- There is neither a fraction nor an exponent. -/
def isInteger : Bool :=
  l.fraction.isEmpty && l.exponent.isNone

/-- The rational number without its sign. -/
def magnitude : ℚ :=
  l.coefficient * (10 : ℚ) ^ l.power

theorem exponent?_exponentPart : Numeral.exponent? l.exponentPart = some (l.exponent.getD 0) := by
  unfold exponentPart
  cases l.exponent with
  | none => rfl
  | some e => exact Decimal.exponent?_exponentChars e

/-- An exponent begins with its letter. -/
theorem head?_exponentPart : ∀ c ∈ l.exponentPart.head?, c = 'e' := by
  unfold exponentPart
  cases l.exponent with
  | none => simp
  | some e =>
    rintro c ⟨⟩
    rfl

/-- The digits end before the fraction and the exponent. -/
theorem isDigit_of_mem_head?_rest :
    ∀ c ∈ (Numeral.pointed l.fraction ++ l.exponentPart).head?, c.isDigit = false := by
  refine Numeral.isDigit_head?_pointed_append fun c hc => ?_
  rw [l.head?_exponentPart c hc]
  decide

/-- **A literal is read as its coefficient and its power of ten.** -/
theorem decimal?_chars : Numeral.decimal? l.chars = some (l.coefficient, l.power) := by
  have hstop : ∀ c ∈ l.exponentPart.head?, c.isDigit = false ∧ c ≠ '.' := by
    intro c hc
    rw [l.head?_exponentPart c hc]
    decide
  rw [chars, Numeral.decimal?_append (Numeral.isWhole_iff.1 l.isWhole_whole).1 l.isDigit_fraction
    hstop, exponent?_exponentPart]
  rfl

theorem head?_chars : ∀ c ∈ l.chars.head?, c.isDigit = true :=
  Numeral.head?_append_isDigit l.isWhole_whole _

/-- A literal begins with a digit. -/
theorem exists_chars_cons : ∃ c cs, l.chars = c :: cs ∧ c.isDigit = true := by
  obtain ⟨hne, -⟩ := Numeral.isDigits_iff.1 (Numeral.isWhole_iff.1 l.isWhole_whole).1
  obtain ⟨c, cs, hcs⟩ := List.exists_cons_of_ne_nil
    (show l.chars ≠ [] from List.append_ne_nil_of_left_ne_nil hne _)
  exact ⟨c, cs, hcs, l.head?_chars c (by rw [hcs]; rfl)⟩

/-- The characters of literals. -/
def alphabet : List Char :=
  decimalDigits ++ ['.', 'e', '+', '-']

theorem mem_alphabet_of_isDigit {c : Char} (h : c.isDigit = true) : c ∈ alphabet :=
  List.mem_append_left _ (mem_of_isDigit h)

/-- A literal has no other characters. -/
theorem mem_alphabet {c : Char} (h : c ∈ l.chars) : c ∈ alphabet := by
  obtain ⟨-, hwhole⟩ := Numeral.isDigits_iff.1 (Numeral.isWhole_iff.1 l.isWhole_whole).1
  have hexponent : ∀ d ∈ l.exponentPart, d ∈ alphabet := by
    unfold exponentPart
    cases l.exponent with
    | none => simp
    | some e =>
      obtain ⟨ds, hdigits, -, hchars⟩ := Decimal.exists_exponentChars_eq e
      rw [Option.elim_some, hchars, List.forall_mem_cons, List.forall_mem_cons]
      refine ⟨by decide, ?_, fun d hd => ?_⟩
      · split <;> decide
      · exact mem_alphabet_of_isDigit ((Numeral.isDigits_iff.1 hdigits).2 d hd)
  have hpointed : ∀ d ∈ Numeral.pointed l.fraction, d ∈ alphabet := by
    cases hfraction : l.fraction with
    | nil => simp [Numeral.pointed]
    | cons d ds =>
      refine List.forall_mem_cons.2 ⟨by decide, fun d hd => mem_alphabet_of_isDigit ?_⟩
      exact l.isDigit_fraction d (hfraction ▸ hd)
  rw [chars, List.mem_append, List.mem_append] at h
  rcases h with h | h | h
  · exact mem_alphabet_of_isDigit (hwhole c h)
  · exact hpointed c h
  · exact hexponent c h

/-- A sign is one of them. -/
theorem mem_alphabet_of_mem_signed {neg : Bool} {c : Char} (h : c ∈ Numeral.signed neg l.chars) :
    c ∈ alphabet := by
  cases neg with
  | false => exact l.mem_alphabet h
  | true =>
    rcases List.mem_cons.1 h with rfl | hmem
    · decide
    · exact l.mem_alphabet hmem

end DecimalLiteral

/-! ## What a literal denotes -/

namespace Numeral

/-- The rational number that a text denotes: a sign if there is one, then a
decimal. -/
def denoted? (cs : List Char) : Option ℚ :=
  let (neg, body) := takeSign cs
  (decimal? body).map fun (c, e) => if neg then -(c * (10 : ℚ) ^ e) else c * (10 : ℚ) ^ e

/-- **A literal with a sign denotes its magnitude with that sign.** -/
theorem denoted?_signed (neg : Bool) (l : DecimalLiteral) :
    denoted? (signed neg l.chars) = some (if neg then -l.magnitude else l.magnitude) := by
  rw [denoted?, takeSign_signed l.head?_chars]
  simp only [l.decimal?_chars, Option.map_some]
  rfl

end Numeral

/-- **A literal stands for a whole number unless it has a fraction or an
exponent**, and then for the nearest binary64 number. -/
theorem Json.number?_signed (neg : Bool) (l : DecimalLiteral) :
    number? (Numeral.signed neg l.chars) =
      some (if l.isInteger then .int (Numeral.withSign neg l.coefficient)
        else .float (Binary64.ofDecimal neg l.coefficient l.power)) := by
  obtain ⟨hne, hall⟩ := Numeral.isDigits_iff.1 (Numeral.isWhole_iff.1 l.isWhole_whole).1
  have htake : l.chars.takeWhile Char.isDigit = l.whole :=
    takeWhile_run_append hall l.isDigit_of_mem_head?_rest
  have hdrop : l.chars.dropWhile Char.isDigit = Numeral.pointed l.fraction ++ l.exponentPart :=
    dropWhile_run_append hall l.isDigit_of_mem_head?_rest
  have hminus : ∀ cs, l.chars = '-' :: cs → False := by
    intro cs hcs
    exact absurd (l.head?_chars '-' (by rw [hcs]; rfl)) (by decide)
  have hread : number? (Numeral.signed neg l.chars) =
      if (Numeral.pointed l.fraction ++ l.exponentPart).isEmpty then
        some (.int (Numeral.withSign neg (Numeral.ofDigits l.whole)))
      else if (Numeral.pointed l.fraction ++ l.exponentPart).head? = some '.' &&
          !((Numeral.pointed l.fraction ++ l.exponentPart).tail.headD '.').isDigit then none
      else some (.float (Binary64.ofDecimal neg l.coefficient l.power)) := by
    cases neg with
    | true =>
      rw [Numeral.signed, if_pos rfl, number?, htake, hdrop, l.isWhole_whole, l.decimal?_chars]
      rfl
    | false =>
      rw [Numeral.signed, if_neg Bool.false_ne_true, number?, htake, hdrop, l.isWhole_whole,
        l.decimal?_chars]
      · rfl
      · exact hminus
  rw [hread]
  cases hfraction : l.fraction with
  | nil =>
    cases hexponent : l.exponent with
    | none =>
      simp [Numeral.pointed, DecimalLiteral.exponentPart, DecimalLiteral.isInteger,
        DecimalLiteral.coefficient, hfraction, hexponent]
    | some e =>
      simp [Numeral.pointed, DecimalLiteral.exponentPart, DecimalLiteral.isInteger, hfraction,
        hexponent, Decimal.exponentChars]
  | cons d ds =>
    have hdigit : d.isDigit = true :=
      l.isDigit_fraction d (by rw [hfraction]; exact List.mem_cons_self)
    simp [Numeral.pointed, DecimalLiteral.isInteger, hfraction, hdigit]

end SchemaProse
