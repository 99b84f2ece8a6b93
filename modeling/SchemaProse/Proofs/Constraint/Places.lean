import SchemaProse.Proofs.Constraint.Unambiguous
import SchemaProse.Proofs.Number.Places
/-!
# Constraint — decimal places or a multiple

The text of a step begins like no other text of a schema
(`mem_constraintTexts_iff_of_beginning`), so what the texts say of a step is what
its phrase says. They speak of decimal places exactly when the step is written as a
tenth, a hundredth and so on, and otherwise of a multiple of the decimal that it is
written as (`tellsPlaces`).
-/

namespace SchemaProse

/-! ## How texts begin -/

namespace Phrase

/-- The characters with which the texts of steps begin. -/
def stepBeginnings : List Char :=
  ['d', 'm']

theorem intText_injective : Function.Injective intText := by
  intro i j h
  have hi := wholeNumber?_intText i
  rw [h, wholeNumber?_intText] at hi
  exact (Option.some.inj hi).symm

/-- An integer is written with a digit or a sign in front. -/
theorem notMem_stepBeginnings_intText (i : ℤ) :
    ∀ c ∈ (intText i).toList.head?, c ∉ stepBeginnings := by
  obtain ⟨d, ds, hchars, hd⟩ := (Number.int i).exists_exactChars_cons
  have hhead : (intText i).toList.head? = some d := by
    rw [intText, String.toList_ofList]
    exact congrArg List.head? hchars
  rintro c hc hstep
  obtain rfl := Option.some.inj (hhead.symm.trans hc)
  simp only [stepBeginnings, List.mem_cons, List.not_mem_nil, or_false] at hstep
  rcases hstep with rfl | rfl <;> revert hd <;> decide

/-- A range begins with a bracket or a comparison. -/
theorem notMem_stepBeginnings_rangeText (limits : Limits Bound) :
    ∀ c ∈ (rangeText limits).toList.head?, c ∉ stepBeginnings := by
  match limits with
  | .between ⟨low, strict⟩ high => cases strict <;> simp [rangeText, stepBeginnings]
  | .atLeast ⟨low, strict⟩ => cases strict <;> simp [rangeText, stepBeginnings]
  | .atMost ⟨high, strict⟩ => cases strict <;> simp [rangeText, stepBeginnings]

/-- A count begins with a bracket, a comparison or an integer, or is a word of its
own. -/
theorem notMem_stepBeginnings_countText (unit : CountUnit) (limits : Limits ℤ) :
    ∀ c ∈ (countText unit limits).toList.head?, c ∉ stepBeginnings := by
  match limits with
  | .atMost high => simp [countText, stepBeginnings]
  | .atLeast low =>
    rw [countText]
    split <;> simp [stepBeginnings]
  | .between low high =>
    rw [countText]
    split
    next =>
      obtain ⟨d, ds, hchars, -⟩ := (Number.int low).exists_exactChars_cons
      have hlow : (intText low).toList = d :: ds := by
        rw [intText, String.toList_ofList]
        exact hchars
      have hhead : (intText low ++ " " ++ unit.name).toList.head? = (intText low).toList.head? := by
        rw [String.append_assoc, String.toList_append, hlow]
        rfl
      rw [hhead]
      exact notMem_stepBeginnings_intText low
    next => simp [stepBeginnings]

/-- **A text that begins like that of a step is one.** -/
theorem group?_demand_of_beginning {p : Phrase} {c : Char} (h : c ∈ p.text.toList.head?)
    (hc : c ∈ stepBeginnings) : p.demand.group? = some .step := by
  match p with
  | .decimalPlaces _ | .multipleOf _ => rfl
  | .range limits => exact absurd hc (notMem_stepBeginnings_rangeText limits c h)
  | .count unit limits => exact absurd hc (notMem_stepBeginnings_countText unit limits c h)

end Phrase

namespace Schema

variable {s : Schema} {n : Number} {text : String} {c : Char}

/-- **A text that begins like that of a step is among the texts when it is that of
the step.** -/
theorem mem_constraintTexts_iff_of_beginning (h : c ∈ text.toList.head?)
    (hc : c ∈ Phrase.stepBeginnings) :
    text ∈ (Value.schema s).constraintTexts ↔ ∃ p, s.stepPhrase? = some p ∧ p.text = text := by
  constructor
  · intro hmem
    rw [Value.constraintTexts, phrases_eq, List.mem_map] at hmem
    obtain ⟨p, hp, rfl⟩ := hmem
    obtain ⟨g, -, hg⟩ := List.mem_filterMap.1 hp
    have hnonempty : p.text ≠ "non-empty" := by
      intro hword
      have hfirst : 'n' = c := by simpa [hword] using h
      exact absurd (hfirst ▸ hc) (by decide)
    have hgroup := (group?_demand hg hnonempty).symm.trans (Phrase.group?_demand_of_beginning h hc)
    obtain rfl := Option.some.inj hgroup
    exact ⟨p, hg, rfl⟩
  · rintro ⟨p, hp, rfl⟩
    exact text_mem_constraintTexts (g := .step) hp

/-- The phrase of a step that counts as decimal places. -/
theorem stepPhrase?_of_places (hn : s.number? .multipleOf = some n) {places : ℕ}
    (h : n.decimalPlaces? = some places) : s.stepPhrase? = some (.decimalPlaces places) := by
  rw [stepPhrase?, hn, Option.map_some, h]

/-- The phrase of any other step. -/
theorem stepPhrase?_of_none (hn : s.number? .multipleOf = some n) (h : n.decimalPlaces? = none) :
    s.stepPhrase? = some (.multipleOf n) := by
  rw [stepPhrase?, hn, Option.map_some, h]

/-- The two texts of steps begin differently. -/
theorem multiple_ne_places (t u : String) : "multiple of " ++ t ≠ "decimal places <= " ++ u := by
  intro h
  have hmultiple : ("multiple of " ++ t).toList.head? = some 'm' := by simp
  have hplaces : ("decimal places <= " ++ u).toList.head? = some 'd' := by simp
  rw [h, hplaces] at hmultiple
  exact absurd (Option.some.inj hmultiple) (by decide)

/-- **The texts speak of decimal places when the step counts as such.** -/
theorem decimalPlaces_mem_iff (hn : s.number? .multipleOf = some n) {k : ℤ} :
    "decimal places <= " ++ toString k ∈ (Value.schema s).constraintTexts ↔
      ∃ places : ℕ, n.decimalPlaces? = some places ∧ (places : ℤ) = k := by
  have hbeginning : 'd' ∈ ("decimal places <= " ++ toString k).toList.head? := by simp
  rw [mem_constraintTexts_iff_of_beginning hbeginning (by decide)]
  constructor
  · rintro ⟨p, hp, htext⟩
    cases hplaces : n.decimalPlaces? with
    | none =>
      obtain rfl := Option.some.inj ((stepPhrase?_of_none hn hplaces).symm.trans hp)
      exact absurd htext (multiple_ne_places _ _)
    | some places =>
      obtain rfl := Option.some.inj ((stepPhrase?_of_places hn hplaces).symm.trans hp)
      rw [Phrase.text_decimalPlaces, ← ofList_intChars, String.append_right_inj] at htext
      exact ⟨places, rfl, Phrase.intText_injective htext⟩
  · rintro ⟨places, hplaces, rfl⟩
    refine ⟨_, stepPhrase?_of_places hn hplaces, ?_⟩
    rw [Phrase.text_decimalPlaces, ← ofList_intChars]
    rfl

/-- **And of a multiple when it does not**, of the plain text of the step. -/
theorem multipleOf_mem_iff (hn : s.number? .multipleOf = some n) {t : String} :
    "multiple of " ++ t ∈ (Value.schema s).constraintTexts ↔
      n.decimalPlaces? = none ∧ t = n.plain := by
  have hbeginning : 'm' ∈ ("multiple of " ++ t).toList.head? := by simp
  rw [mem_constraintTexts_iff_of_beginning hbeginning (by decide)]
  constructor
  · rintro ⟨p, hp, htext⟩
    cases hplaces : n.decimalPlaces? with
    | none =>
      obtain rfl := Option.some.inj ((stepPhrase?_of_none hn hplaces).symm.trans hp)
      rw [Phrase.text_multipleOf, String.append_right_inj] at htext
      exact ⟨rfl, htext.symm⟩
    | some places =>
      obtain rfl := Option.some.inj ((stepPhrase?_of_places hn hplaces).symm.trans hp)
      exact absurd htext.symm (multiple_ne_places _ _)
  · rintro ⟨hnone, rfl⟩
    exact ⟨_, stepPhrase?_of_none hn hnone, Phrase.text_multipleOf n⟩

/-- What the texts of a schema say of a step that is written as the decimal
`d`. -/
structure TellsPlaces (texts : List String) (d : ℚ) : Prop where
  /-- They speak of decimal places exactly when the step is a tenth, a hundredth and
  so on, and of as many as there are then. -/
  places_iff : ∀ k : ℤ, "decimal places <= " ++ toString k ∈ texts ↔ 1 ≤ k ∧ d = 10 ^ (-k)
  /-- The multiples of the step are the numbers with so many places. -/
  multiples_iff : ∀ k : ℤ, "decimal places <= " ++ toString k ∈ texts →
    ∀ x : ℚ, (∃ i : ℤ, x = i * d) ↔ HasPlaces k x
  /-- In all other cases they speak of a multiple. -/
  multiple_iff : (∃ t, "multiple of " ++ t ∈ texts) ↔ ∀ k : ℤ, 1 ≤ k → d ≠ 10 ^ (-k)
  /-- It is one of the step, written as a plain decimal. -/
  multiple : ∀ t, "multiple of " ++ t ∈ texts →
    Numeral.IsPlain t.toList ∧ Numeral.denoted? t.toList = some d

/-- **The phrase for decimal places is exact.** A step with a finite value is written
as a decimal, and its texts speak of decimal places when this is a power of ten with
places and of its multiples when it is not. -/
theorem tellsPlaces {q : ℚ} (hn : s.number? .multipleOf = some n) (hq : n.value = .rational q) :
    ∃ d, n.written? = some d ∧ TellsPlaces (Value.schema s).constraintTexts d := by
  obtain ⟨d, hd, hplain, hdenoted⟩ := n.exists_written? hq
  have hplaces : ∀ k : ℤ, "decimal places <= " ++ toString k ∈ (Value.schema s).constraintTexts ↔
      1 ≤ k ∧ d = 10 ^ (-k) := fun k =>
    (decimalPlaces_mem_iff hn).trans (Number.exists_decimalPlaces?_iff hd)
  refine ⟨d, hd, hplaces, fun k hk x => ?_, ?_, fun t ht => ?_⟩
  · obtain ⟨hpos, rfl⟩ := (hplaces k).1 hk
    exact exists_eq_mul_iff_hasPlaces hpos
  · simp only [multipleOf_mem_iff hn, exists_and_left, exists_eq, and_true]
    exact Number.decimalPlaces?_eq_none_iff hd
  · obtain ⟨-, rfl⟩ := (multipleOf_mem_iff hn).1 ht
    exact ⟨hplain, hdenoted⟩

/-- The binary64 number nearest to ten to the power of -7. -/
def tenMillionth : Number :=
  .float (.finite ⟨false, 7555786372591432, -76, by decide⟩)

/-- A power of ten that is written with an exponent, and a step that is none. -/
theorem tellsPlaces_tenMillionth :
    ∃ s t : Schema, s.number? .multipleOf = some tenMillionth ∧
      t.number? .multipleOf = some Number.aboutOneMillionth ∧
      tenMillionth.exactChars = "1e-07".toList ∧
      (Value.schema s).constraintTexts = ["decimal places <= 7"] ∧
      TellsPlaces (Value.schema s).constraintTexts (10 ^ (-7 : ℤ)) ∧
      (Value.schema t).constraintTexts = ["multiple of 0.00000095367431640625"] ∧
      ∃ d, Number.aboutOneMillionth.written? = some d ∧
        TellsPlaces (Value.schema t).constraintTexts d := by
  let s : Schema := ⟨[(.multipleOf, .data (.num tenMillionth))], []⟩
  let t : Schema := ⟨[(.multipleOf, .data (.num Number.aboutOneMillionth))], []⟩
  have hs : (Value.schema s).constraintTexts = ["decimal places <= 7"] := by decide +kernel
  obtain ⟨d, -, htells⟩ := tellsPlaces (s := s) (n := tenMillionth) rfl rfl
  have hmem : "decimal places <= " ++ toString (7 : ℤ) ∈ (Value.schema s).constraintTexts := by
    rw [hs]
    decide
  obtain ⟨-, rfl⟩ := (htells.places_iff 7).1 hmem
  exact ⟨s, t, rfl, rfl, by decide +kernel, hs, htells, by decide +kernel,
    tellsPlaces (s := t) rfl rfl⟩

end Schema

end SchemaProse
