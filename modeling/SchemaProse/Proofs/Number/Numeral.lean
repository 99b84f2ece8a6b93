import Mathlib.Tactic.IntervalCases
import SchemaProse.Proofs.Number.Value
import SchemaProse.Proofs.Text.Delimited
import SchemaProse.Proofs.Text.Trimmed
/-!
# Number — what is read from digits

A numeral that is written plainly, with a sign and digits and at most one point,
passes every stage of the reader unchanged: there are no blanks to drop, no
separators between the digits and no zeros too many. So digits are read as the
whole number that they write (`integer?_signed`). Digits with a point, unless
only zeros stand behind it, are no whole number (`integer?_point`) and are read
as the binary64 number nearest to the decimal (`float?_point`).
-/

namespace SchemaProse

/-! ## Digits -/

/-- The ten digits. -/
def decimalDigits : List Char :=
  ['0', '1', '2', '3', '4', '5', '6', '7', '8', '9']

theorem mem_of_isDigit {c : Char} (h : c.isDigit = true) : c ∈ decimalDigits := by
  obtain ⟨hlow, hhigh⟩ := Char.isDigit_iff_toNat.1 h
  have hchar : c = Char.ofNat c.toNat := by simp
  have hlow' : 48 ≤ c.toNat := hlow
  have hhigh' : c.toNat ≤ 57 := hhigh
  rw [hchar]
  interval_cases c.toNat <;> decide

/-- A digit is no blank, no sign, no letter and no separator. -/
theorem ne_of_isDigit {c d : Char} (h : c.isDigit = true) (hd : d.isDigit = false) : c ≠ d := by
  rintro rfl
  rw [h] at hd
  cases hd

theorem isSpace_of_isDigit {c : Char} (h : c.isDigit = true) : Text.isSpace c = false := by
  have hall : decimalDigits.all (fun c => !Text.isSpace c) = true := by decide
  simpa using List.all_eq_true.1 hall c (mem_of_isDigit h)

theorem toLower_of_isDigit {c : Char} (h : c.isDigit = true) : c.toLower = c := by
  have hall : decimalDigits.all (fun c => c.toLower == c) = true := by decide
  simpa using List.all_eq_true.1 hall c (mem_of_isDigit h)

theorem isDigit_of_mem_digitChars {n : ℕ} {c : Char} (h : c ∈ digitChars n) : c.isDigit = true :=
  Nat.isDigit_of_mem_toDigits (by decide) (by decide) h

theorem digitChars_ne_nil (n : ℕ) : digitChars n ≠ [] :=
  Nat.toDigits_ne_nil

/-- No number but zero has a zero in front. -/
theorem head?_digitChars_ne_zero {n : ℕ} (hn : n ≠ 0) : (digitChars n).head? ≠ some '0' := by
  induction n using Nat.strong_induction_on with
  | _ n ih =>
    rw [digitChars, Nat.toDigits_eq_if (by decide)]
    split
    next hsmall =>
      interval_cases n
      · exact absurd rfl hn
      all_goals decide
    next hlarge =>
      rw [List.head?_append_of_ne_nil _ Nat.toDigits_ne_nil]
      exact ih (n / 10) (by omega) (by omega)

/-- The last digit. -/
theorem getLast?_digitChars (n : ℕ) : (digitChars n).getLast? = some (n % 10).digitChar := by
  rw [digitChars, Nat.toDigits_eq_if (by decide)]
  split
  next hsmall => rw [Nat.mod_eq_of_lt hsmall, List.getLast?_singleton]
  next => rw [List.getLast?_concat]

namespace Numeral

theorem ofDigits_digitChars (n : ℕ) : ofDigits (digitChars n) = n :=
  Nat.ofDigitChars_toDigits (by decide) (by decide)

theorem isDigits_iff {cs : List Char} :
    isDigits cs = true ↔ cs ≠ [] ∧ ∀ c ∈ cs, c.isDigit = true := by
  simp [isDigits]

theorem isWhole_iff {cs : List Char} :
    isWhole cs = true ↔ isDigits cs = true ∧ (cs.head? ≠ some '0' ∨ cs.length = 1) := by
  simp [isWhole]

theorem isWhole_digitChars (n : ℕ) : isWhole (digitChars n) = true := by
  refine isWhole_iff.2 ⟨isDigits_iff.2 ⟨digitChars_ne_nil n, ?_⟩, ?_⟩
  · exact fun _ => isDigit_of_mem_digitChars
  · by_cases hn : n = 0
    · exact .inr (by rw [hn]; rfl)
    · exact .inl (head?_digitChars_ne_zero hn)

/-! ## Reading numerals -/

variable {whole fraction cs : List Char} {neg : Bool}

/-- A text with a minus sign in front when it stands for a negative number. -/
def signed (neg : Bool) (cs : List Char) : List Char :=
  if neg then '-' :: cs else cs

theorem splitOn_of_notMem {a : Char} (h : a ∉ cs) : cs.splitOn a = [cs] := by
  rw [splitOn_eq_iff]
  exact ⟨List.cons_ne_nil _ _, by simpa using h, by simp [List.intercalate]⟩

/-- A sign is taken off a text that does not begin with another one. -/
theorem takeSign_signed (h : ∀ c ∈ cs.head?, c.isDigit = true) :
    takeSign (signed neg cs) = (neg, cs) := by
  cases neg with
  | true => rfl
  | false =>
    cases cs with
    | nil => rfl
    | cons c cs =>
      have hc := h c rfl
      have hminus := ne_of_isDigit hc (d := '-') (by decide)
      have hplus := ne_of_isDigit hc (d := '+') (by decide)
      simp only [signed, Bool.false_eq_true, if_false]
      unfold takeSign
      split
      next heq => exact absurd (List.cons.inj heq).1 hminus
      next heq => exact absurd (List.cons.inj heq).1 hplus
      next => rfl

/-- A text without blanks at its ends is not trimmed. -/
theorem trim_of_forall (h : ∀ c ∈ cs, Text.isSpace c = false) :
    Text.trim Text.isSpace cs = cs := by
  rw [Text.trim_eq_iff]
  exact ⟨⟨[], [], by simp, by simp, by simp⟩, fun c hc => h c (List.mem_of_mem_head? hc),
    fun c hc => h c (List.mem_of_mem_getLast? hc)⟩

/-- Digits without a superfluous zero are significant, at the end and before a
point. -/
theorem significant?_append (h : isWhole whole = true) {rest : List Char}
    (hrest : ∀ c ∈ rest.head?, c = '.') : significant? (whole ++ rest) = some (whole ++ rest) := by
  obtain ⟨hdigits, hzero⟩ := isWhole_iff.1 h
  obtain ⟨hne, hall⟩ := isDigits_iff.1 hdigits
  obtain ⟨c, cs, rfl⟩ := List.exists_cons_of_ne_nil hne
  by_cases hc : c = '0'
  · subst hc
    obtain rfl : cs = [] := by simpa using hzero
    cases rest with
    | nil => rfl
    | cons p rest =>
      obtain rfl := hrest p rfl
      rfl
  · have hdigit := hall c List.mem_cons_self
    rw [List.cons_append]
    unfold significant?
    split
    next heq => exact absurd (List.cons.inj heq).1 hc
    next heq => rw [← (List.cons.inj heq).1, if_pos hdigit]
    next heq => cases heq

theorem dropZeroFraction_of_notMem (h : '.' ∉ cs) : dropZeroFraction cs = cs := by
  rw [dropZeroFraction, splitOn_of_notMem h]

/-- A fraction that is not all zeros is not dropped. -/
theorem dropZeroFraction_point (hwhole : '.' ∉ whole) (hfraction : '.' ∉ fraction)
    (hnonzero : fraction.all (· == '0') = false) :
    dropZeroFraction (whole ++ '.' :: fraction) = whole ++ '.' :: fraction := by
  have hsplit : (whole ++ '.' :: fraction).splitOn '.' = [whole, fraction] := by
    rw [splitOn_eq_iff]
    refine ⟨List.cons_ne_nil _ _, ?_, by simp [List.intercalate]⟩
    simpa using ⟨hwhole, hfraction⟩
  rw [dropZeroFraction, hsplit]
  simp [hnonzero]

theorem joined?_of_notMem (hne : cs ≠ []) (h : '_' ∉ cs) : joined? cs = some cs := by
  simp [joined?, splitOn_of_notMem h, hne]

/-- A whole number in its strict form. -/
theorem strictInteger?_signed (h : isWhole whole = true) :
    strictInteger? (signed neg whole) = some (withSign neg (ofDigits whole)) := by
  obtain ⟨hne, hall⟩ := isDigits_iff.1 (isWhole_iff.1 h).1
  obtain ⟨c, cs, rfl⟩ := List.exists_cons_of_ne_nil hne
  have hminus := ne_of_isDigit (hall c List.mem_cons_self) (d := '-') (by decide)
  cases neg with
  | true => simp [strictInteger?, signed, h]
  | false => simp [strictInteger?, signed, h, hminus]

/-- What is no run of digits is no whole number in its strict form. -/
theorem strictInteger?_signed_eq_none (hne : cs ≠ []) (hfirst : ∀ c ∈ cs.head?, c.isDigit = true)
    {d : Char} (hd : d ∈ cs) (hdigit : d.isDigit = false) :
    strictInteger? (signed neg cs) = none := by
  have hwhole : isWhole cs = false := by
    rw [Bool.eq_false_iff]
    intro h
    rw [(isDigits_iff.1 (isWhole_iff.1 h).1).2 d hd] at hdigit
    cases hdigit
  obtain ⟨c, cs, rfl⟩ := List.exists_cons_of_ne_nil hne
  have hminus := ne_of_isDigit (hfirst c rfl) (d := '-') (by decide)
  cases neg with
  | true => simp [strictInteger?, signed, hwhole]
  | false => simp [strictInteger?, signed, hwhole, hminus]

/-- No blank stands in digits with a sign and a point. -/
theorem isSpace_of_mem_signed (h : ∀ c ∈ cs, c.isDigit = true ∨ c = '.') :
    ∀ c ∈ signed neg cs, Text.isSpace c = false := by
  have hall : ∀ c ∈ cs, Text.isSpace c = false := by
    intro c hc
    rcases h c hc with hdigit | rfl
    · exact isSpace_of_isDigit hdigit
    · decide
  cases neg with
  | true => exact List.forall_mem_cons.2 ⟨by decide, hall⟩
  | false => exact hall

/-- Digits in front tell the sign. -/
theorem head?_append_isDigit (h : isWhole whole = true) (rest : List Char) :
    ∀ c ∈ (whole ++ rest).head?, c.isDigit = true := by
  obtain ⟨hne, hall⟩ := isDigits_iff.1 (isWhole_iff.1 h).1
  rw [List.head?_append_of_ne_nil _ hne]
  exact fun c hc => hall c (List.mem_of_mem_head? hc)

/-- **A whole number is read from its digits.** -/
theorem integer?_signed (h : isWhole whole = true) :
    integer? (signed neg whole) = some (withSign neg (ofDigits whole)) := by
  obtain ⟨hne, hall⟩ := isDigits_iff.1 (isWhole_iff.1 h).1
  have hpoint : '.' ∉ whole := fun hmem => by simpa using hall _ hmem
  have hjoint : '_' ∉ whole := fun hmem => by simpa using hall _ hmem
  have hfirst := head?_append_isDigit h []
  have hsignificant : significant? (whole ++ []) = some (whole ++ []) :=
    significant?_append h (by simp)
  rw [List.append_nil] at hfirst hsignificant
  rw [integer?, trim_of_forall (isSpace_of_mem_signed fun c hc => .inl (hall c hc)),
    takeSign_signed hfirst]
  simp only [hsignificant, dropZeroFraction_of_notMem hpoint, joined?_of_notMem hne hjoint,
    Option.bind_eq_bind, Option.bind_some]
  exact strictInteger?_signed h

/-- The characters of digits with a point among them. -/
theorem isDigit_or_point (hwhole : isWhole whole = true) (hfraction : isDigits fraction = true) :
    ∀ c ∈ whole ++ '.' :: fraction, c.isDigit = true ∨ c = '.' := by
  have hw := (isDigits_iff.1 (isWhole_iff.1 hwhole).1).2
  have hf := (isDigits_iff.1 hfraction).2
  simp only [List.forall_mem_append, List.forall_mem_cons]
  exact ⟨fun c hc => .inl (hw c hc), by simp, fun c hc => .inl (hf c hc)⟩

/-- **No whole number is read when there is a fraction.** -/
theorem integer?_point (hwhole : isWhole whole = true) (hfraction : isDigits fraction = true)
    (hnonzero : fraction.all (· == '0') = false) :
    integer? (signed neg (whole ++ '.' :: fraction)) = none := by
  have hchars := isDigit_or_point hwhole hfraction
  have hfirst := head?_append_isDigit hwhole ('.' :: fraction)
  have hpoint : '.' ∉ whole := fun hmem => by
    simpa using (isDigits_iff.1 (isWhole_iff.1 hwhole).1).2 _ hmem
  have hpoint' : '.' ∉ fraction := fun hmem => by simpa using (isDigits_iff.1 hfraction).2 _ hmem
  have hjoint : '_' ∉ whole ++ '.' :: fraction := fun hmem => by simpa using hchars _ hmem
  have hne : whole ++ '.' :: fraction ≠ [] := by simp
  have hsignificant :
      significant? (whole ++ '.' :: fraction) = some (whole ++ '.' :: fraction) :=
    significant?_append hwhole (by simp)
  rw [integer?, trim_of_forall (isSpace_of_mem_signed hchars), takeSign_signed hfirst]
  simp only [hsignificant, dropZeroFraction_point hpoint hpoint' hnonzero,
    joined?_of_notMem hne hjoint, Option.bind_eq_bind, Option.bind_some]
  exact strictInteger?_signed_eq_none hne hfirst (d := '.') (by simp) (by decide)

/-- A fraction behind its point, nothing when there is none. -/
def pointed : List Char → List Char
  | [] => []
  | c :: cs => '.' :: c :: cs

/-- Digits end before a fraction. -/
theorem isDigit_head?_pointed_append {rest : List Char}
    (hrest : ∀ c ∈ rest.head?, c.isDigit = false) :
    ∀ c ∈ (pointed fraction ++ rest).head?, c.isDigit = false := by
  cases fraction with
  | nil => exact hrest
  | cons d ds =>
    rintro c ⟨⟩
    decide

/-- A decimal is read from its digits, its point and its exponent. -/
theorem decimal?_append {rest : List Char} (hwhole : isDigits whole = true)
    (hfraction : ∀ c ∈ fraction, c.isDigit = true)
    (hrest : ∀ c ∈ rest.head?, c.isDigit = false ∧ c ≠ '.') :
    decimal? (whole ++ (pointed fraction ++ rest)) =
      (exponent? rest).map fun e => (ofDigits (whole ++ fraction), e - (fraction.length : ℤ)) := by
  obtain ⟨hne, hw⟩ := isDigits_iff.1 hwhole
  have hrest' : ∀ c ∈ rest.head?, c.isDigit = false := fun c hc => (hrest c hc).1
  have hstop : ∀ c ∈ (pointed fraction ++ rest).head?, c.isDigit = false :=
    isDigit_head?_pointed_append hrest'
  have hempty : (whole.isEmpty && fraction.isEmpty) = false := by simp [hne]
  simp only [decimal?, takeWhile_run_append hw hstop, dropWhile_run_append hw hstop]
  cases fraction with
  | nil =>
    -- the rest is not taken for a fraction
    have hsplit : ∀ r, rest ≠ '.' :: r := fun r hr => (hrest '.' (by rw [hr]; rfl)).2 rfl
    simp only [pointed, List.nil_append]
    split
    next h => simp [hne] at h
    next => rfl
  | cons d ds =>
    simp only [pointed, List.cons_append]
    rw [← List.cons_append, takeWhile_run_append hfraction hrest',
      dropWhile_run_append hfraction hrest', hempty]
    rfl

/-- A decimal is read from its digits and its point. -/
theorem decimal?_point (hwhole : isWhole whole = true) (hfraction : isDigits fraction = true) :
    decimal? (whole ++ '.' :: fraction) =
      some (ofDigits (whole ++ fraction), -(fraction.length : ℤ)) := by
  obtain ⟨hne, hf⟩ := isDigits_iff.1 hfraction
  have hend : ∀ c ∈ ([] : List Char).head?, c.isDigit = false ∧ c ≠ '.' := by simp
  have hread := decimal?_append (isWhole_iff.1 hwhole).1 hf hend
  obtain ⟨c, cs, rfl⟩ := List.exists_cons_of_ne_nil hne
  simpa [pointed, exponent?] using hread

/-- What begins with a digit is no name. -/
theorem ofList_map_toLower_ne {c : Char} (hc : c.isDigit = true) {word : String}
    (hword : word.toList.head?.any Char.isDigit = false) :
    String.ofList ((c :: cs).map Char.toLower) ≠ word := by
  rintro rfl
  rw [String.toList_ofList, List.map_cons, toLower_of_isDigit hc, List.head?_cons,
    Option.any_some, hc] at hword
  cases hword

/-- **A binary64 number is read from a decimal as the nearest one.** -/
theorem float?_point (hwhole : isWhole whole = true) (hfraction : isDigits fraction = true) :
    float? (signed neg (whole ++ '.' :: fraction)) =
      some (Binary64.ofDecimal neg (ofDigits (whole ++ fraction)) (-(fraction.length : ℤ))) := by
  have hfirst := head?_append_isDigit hwhole ('.' :: fraction)
  obtain ⟨c, cs, hcs⟩ := List.exists_cons_of_ne_nil
    (show whole ++ '.' :: fraction ≠ [] by simp)
  have hc : c.isDigit = true := by
    rw [hcs] at hfirst
    exact hfirst c rfl
  have hstrict : strictFloat? (signed neg (whole ++ '.' :: fraction)) =
      some (Binary64.ofDecimal neg (ofDigits (whole ++ fraction)) (-(fraction.length : ℤ))) := by
    rw [strictFloat?, takeSign_signed hfirst]
    simp only [magnitude?, decimal?_point hwhole hfraction, Option.map_some]
    rw [hcs, if_neg, if_neg]
    · exact ofList_map_toLower_ne hc (by decide)
    · rintro (h | h)
      · exact ofList_map_toLower_ne hc (by decide) h
      · exact ofList_map_toLower_ne hc (by decide) h
  rw [float?, trim_of_forall (isSpace_of_mem_signed (isDigit_or_point hwhole hfraction)), hstrict]

end Numeral

end SchemaProse
