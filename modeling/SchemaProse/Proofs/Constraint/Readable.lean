import SchemaProse.Proofs.Constraint.Demand
import SchemaProse.Proofs.Number.Plain
/-!
# Constraint — a phrase is read back from its text

The text of a phrase is made of words without blanks, among them the plain texts
of its numbers (`words_text`). What is counted stands at the end and is no
numeral, so the reader takes it off; the signs that begin the other texts tell
them apart. Every phrase is read as what it demands (`ofText?_text`), so phrases
with the same text demand the same.
-/

namespace SchemaProse

/-! ## The words of phrases -/

/-- The words for limits. -/
def Limits.words : Limits (Edge String) → List String
  | .atLeast low => [if low.strict then ">" else ">=", low.value]
  | .atMost high => [if high.strict then "<" else "<=", high.value]
  | .between low high =>
    [if low.strict then "(" else "[", low.value, "..", high.value,
      if high.strict then ")" else "]"]

/-- The words for what is counted. -/
def CountUnit.words : CountUnit → List String
  | characters => ["characters"]
  | items => ["items"]
  | uniqueItems => ["unique", "items"]
  | properties => ["properties"]

namespace Phrase

/-- The words for limits of a count. -/
def countLimitWords (limits : Limits ℤ) : List String :=
  ((limits.map Edge.closed).map (Edge.map intText)).words

/-- The words of a count. -/
def countWords (unit : CountUnit) : Limits ℤ → List String
  | .between low high =>
    (if low = high then [intText low] else countLimitWords (.between low high)) ++ unit.words
  | .atMost high => countLimitWords (.atMost high) ++ unit.words
  | .atLeast low =>
    if low = 1 then ["non-empty"] else countLimitWords (.atLeast low) ++ unit.words

/-- The words of a phrase. -/
def words : Phrase → List String
  | range limits => ((limits.map Bound.edge).map (Edge.map Number.plain)).words
  | decimalPlaces places => ["decimal", "places", "<=", intText places]
  | multipleOf step => ["multiple", "of", step.plain]
  | count unit limits => countWords unit limits

end Phrase

/-! ## A text is made of its words -/

theorem words_eq_iff {text : String} {ws : List String} :
    words text = ws ↔ ws ≠ [] ∧ (∀ w ∈ ws, ' ' ∉ w.toList) ∧ " ".intercalate ws = text :=
  map_ofList_splitOn_eq_iff

theorem Number.blank_notMem_plain (n : Number) : ' ' ∉ n.plain.toList := by
  intro h
  rw [Number.plain, String.toList_ofList] at h
  exact absurd (Number.isSpace_of_mem_plainChars h) (by decide)

theorem Limits.words_ne_nil (limits : Limits (Edge String)) : limits.words ≠ [] := by
  cases limits <;> exact List.cons_ne_nil _ _

/-- What stands beside the values of limits. -/
def Limits.signs : List String :=
  [">", ">=", "<", "<=", "(", "[", "..", ")", "]"]

/-- The words for limits are signs and values. -/
theorem Limits.forall_mem_words {α : Type} {spell : α → String} {p : String → Prop}
    (hsign : ∀ w ∈ signs, p w) (hvalue : ∀ a, p (spell a)) (limits : Limits (Edge α)) :
    ∀ w ∈ (limits.map (Edge.map spell)).words, p w := by
  simp only [signs, List.forall_mem_cons] at hsign
  match limits with
  | .atLeast ⟨a, strict⟩ => cases strict <;> simp [Limits.map, Limits.words, Edge.map, *]
  | .atMost ⟨a, strict⟩ => cases strict <;> simp [Limits.map, Limits.words, Edge.map, *]
  | .between ⟨a, strict⟩ ⟨b, strict'⟩ =>
    cases strict <;> cases strict' <;> simp [Limits.map, Limits.words, Edge.map, *]

theorem CountUnit.blank_notMem_words (unit : CountUnit) : ∀ w ∈ unit.words, ' ' ∉ w.toList := by
  cases unit <;> decide

namespace Phrase

theorem blank_notMem_intText (i : ℤ) : ' ' ∉ (intText i).toList :=
  Number.blank_notMem_plain (.int i)

theorem blank_notMem_words (p : Phrase) : ∀ w ∈ p.words, ' ' ∉ w.toList := by
  have hcount (unit : CountUnit) (limits : Limits ℤ) :
      ∀ w ∈ countLimitWords limits ++ unit.words, ' ' ∉ w.toList :=
    List.forall_mem_append.2
      ⟨Limits.forall_mem_words (by decide) blank_notMem_intText _, unit.blank_notMem_words⟩
  match p with
  | range limits => exact Limits.forall_mem_words (by decide) Number.blank_notMem_plain _
  | decimalPlaces places => simp [words, blank_notMem_intText]
  | multipleOf step => simp [words, Number.blank_notMem_plain]
  | count unit (.atMost high) => exact hcount unit _
  | count unit (.atLeast low) =>
    rw [words, countWords]
    split
    · simp
    · exact hcount unit _
  | count unit (.between low high) =>
    rw [words, countWords]
    split
    · exact List.forall_mem_append.2
        ⟨by simpa using blank_notMem_intText low, unit.blank_notMem_words⟩
    · exact hcount unit _

theorem words_ne_nil (p : Phrase) : p.words ≠ [] := by
  match p with
  | range _ => exact Limits.words_ne_nil _
  | decimalPlaces _ | multipleOf _ => exact List.cons_ne_nil _ _
  | count _ (.atMost _) => exact List.cons_ne_nil _ _
  | count _ (.atLeast _) =>
    rw [words, countWords]
    split <;> exact List.cons_ne_nil _ _
  | count _ (.between _ _) =>
    rw [words, countWords]
    split <;> exact List.cons_ne_nil _ _

/-- The text of two words. -/
theorem intercalate_two (v w : String) : " ".intercalate [v, w] = v ++ " " ++ w := by
  rw [String.intercalate_cons_cons, String.intercalate_singleton]

/-- The text of an interval. -/
theorem intercalate_interval (left low high right : String) :
    " ".intercalate [left, low, "..", high, right] =
      left ++ " " ++ low ++ " .. " ++ high ++ " " ++ right := by
  have hdots : " .. " = " " ++ ".." ++ " " := by decide
  rw [hdots]
  simp only [String.intercalate_cons_cons, String.intercalate_singleton, String.append_assoc]

/-- What is counted stands behind a blank. -/
theorem intercalate_append_unit {front : List String} (h : front ≠ []) (unit : CountUnit) :
    " ".intercalate (front ++ unit.words) = " ".intercalate front ++ " " ++ unit.name := by
  have hne : unit.words ≠ [] := by cases unit <;> exact List.cons_ne_nil _ _
  have hunit : " ".intercalate unit.words = unit.name := by cases unit <;> decide
  rw [String.intercalate_append_of_ne_nil h hne, hunit]

theorem intercalate_rangeWords (limits : Limits Bound) :
    " ".intercalate ((limits.map Bound.edge).map (Edge.map Number.plain)).words =
      rangeText limits := by
  match limits with
  | .atLeast low =>
    rw [rangeText, ← intercalate_two]
    rfl
  | .atMost high =>
    rw [rangeText, ← intercalate_two]
    rfl
  | .between low high =>
    rw [rangeText, ← intercalate_interval]
    rfl

theorem intercalate_countWords (unit : CountUnit) (limits : Limits ℤ) :
    " ".intercalate (countWords unit limits) = countText unit limits := by
  have hopen : "[ " = "[" ++ " " := by decide
  have hclose : " ] " = " " ++ "]" ++ " " := by decide
  have hmost : "<= " = "<=" ++ " " := by decide
  have hleast : ">= " = ">=" ++ " " := by decide
  match limits with
  | .atMost high =>
    rw [countWords, countLimitWords, intercalate_append_unit (Limits.words_ne_nil _), countText,
      hmost, ← intercalate_two]
    rfl
  | .atLeast low =>
    rw [countWords, countText, hleast]
    split
    · exact String.intercalate_singleton
    · rw [countLimitWords, intercalate_append_unit (Limits.words_ne_nil _), ← intercalate_two]
      rfl
  | .between low high =>
    rw [countWords, countText, hopen, hclose]
    split
    · rw [intercalate_append_unit (List.cons_ne_nil _ _), String.intercalate_singleton]
    · have hinterval : " ".intercalate (countLimitWords (.between low high)) =
          "[" ++ " " ++ intText low ++ " .. " ++ intText high ++ " " ++ "]" :=
        intercalate_interval _ _ _ _
      rw [countLimitWords] at hinterval ⊢
      rw [intercalate_append_unit (Limits.words_ne_nil _), hinterval]
      simp only [String.append_assoc]

theorem text_range (limits : Limits Bound) : (range limits).text = rangeText limits :=
  rfl

theorem text_decimalPlaces (places : ℕ) :
    (decimalPlaces places).text = "decimal places <= " ++ intText places :=
  rfl

theorem text_multipleOf (step : Number) : (multipleOf step).text = "multiple of " ++ step.plain :=
  rfl

theorem text_count (unit : CountUnit) (limits : Limits ℤ) :
    (count unit limits).text = countText unit limits :=
  rfl

/-- The words of a phrase, with blanks between them, are its text. -/
theorem intercalate_words (p : Phrase) : " ".intercalate p.words = p.text := by
  match p with
  | range limits => rw [words, text_range, intercalate_rangeWords]
  | decimalPlaces places =>
    have hwords : "decimal places <= " = "decimal" ++ " " ++ "places" ++ " " ++ "<=" ++ " " := by
      decide
    rw [words, text_decimalPlaces, hwords]
    simp only [String.intercalate_cons_cons, String.intercalate_singleton, String.append_assoc]
  | multipleOf step =>
    have hwords : "multiple of " = "multiple" ++ " " ++ "of" ++ " " := by decide
    rw [words, text_multipleOf, hwords]
    simp only [String.intercalate_cons_cons, String.intercalate_singleton, String.append_assoc]
  | count unit limits => rw [words, text_count, intercalate_countWords]

/-- **The words of a text are those of the phrase.** -/
theorem words_text (p : Phrase) : SchemaProse.words p.text = p.words :=
  words_eq_iff.2 ⟨p.words_ne_nil, p.blank_notMem_words, p.intercalate_words⟩

end Phrase

/-! ## Reading the words of a phrase -/

/-- **Limits are read from their words.** -/
theorem limits?_words {α β : Type} {value? : String → Option β} {f : α → β} {spell : α → String}
    (h : ∀ a, value? (spell a) = some (f a)) (limits : Limits (Edge α)) :
    limits? value? (limits.map (Edge.map spell)).words = some (limits.map (Edge.map f)) := by
  match limits with
  | .atLeast ⟨a, strict⟩ => cases strict <;> simp [Limits.map, Limits.words, Edge.map, limits?, h]
  | .atMost ⟨a, strict⟩ => cases strict <;> simp [Limits.map, Limits.words, Edge.map, limits?, h]
  | .between ⟨a, strict⟩ ⟨b, strict'⟩ =>
    cases strict <;> cases strict' <;>
      simp [Limits.map, Limits.words, Edge.map, limits?, openingStrict?, closingStrict?, h]

theorem quantity?_plain (n : Number) : quantity? n.plain = some n.value := by
  obtain ⟨m, hm, hvalue⟩ := n.exists_number?_plainChars
  rw [quantity?, Number.plain, String.toList_ofList, hm, ← hvalue]
  rfl

theorem wholeNumber?_intText (i : ℤ) : wholeNumber? (Phrase.intText i) = some i := by
  rw [wholeNumber?, Phrase.intText, String.toList_ofList]
  exact Numeral.integer?_intChars i

/-- A numeral is none of the words that stand beside numerals. -/
theorem ne_of_quantity?_eq_none {n : Number} {word : String} (h : quantity? word = none) :
    n.plain ≠ word := by
  rintro rfl
  rw [quantity?_plain] at h
  cases h

namespace Demand

/-- The words that may end the name of what is counted. -/
def unitEnds : List String :=
  ["characters", "items", "properties"]

/-- A numeral does not end the name of what is counted. -/
theorem plain_notMem_unitEnds (n : Number) : n.plain ∉ unitEnds := by
  have hnone : ∀ word ∈ unitEnds, quantity? word = none := by decide +kernel
  exact fun hmem => ne_of_quantity?_eq_none (hnone _ hmem) rfl

/-- A demand that does not name what is counted is told by its beginning. -/
theorem ofWords?_of_forall {ws : List String} (h : ∀ w ∈ ws, w ∉ unitEnds) :
    ofWords? ws = uncounted? ws := by
  simp only [unitEnds, List.mem_cons, List.not_mem_nil, or_false, not_or] at h
  have hlast {w : String} {front : List String} (heq : ws.reverse = w :: front) : w ∈ ws :=
    List.mem_reverse.1 (heq ▸ List.mem_cons_self)
  unfold ofWords?
  split
  next heq => exact absurd rfl (h _ (hlast heq)).1
  next heq => exact absurd rfl (h _ (hlast heq)).2.1
  next heq => exact absurd rfl (h _ (hlast heq)).2.1
  next heq => exact absurd rfl (h _ (hlast heq)).2.2
  next => rfl

/-- What is counted is taken off the end. -/
theorem ofWords?_append_unit {front : List String} (h : "unique" ∉ front) (unit : CountUnit) :
    ofWords? (front ++ unit.words) = count? unit front := by
  cases unit with
  | characters => simp [ofWords?, CountUnit.words]
  | uniqueItems => simp [ofWords?, CountUnit.words]
  | properties => simp [ofWords?, CountUnit.words]
  | items =>
    have hreverse : (front ++ CountUnit.items.words).reverse = "items" :: front.reverse := by
      simp [CountUnit.words]
    rw [ofWords?, hreverse]
    split
    next heq => simp at heq
    next rest heq =>
      -- only the name of unique items has another word before it
      have hmem : "unique" ∈ front.reverse := (List.cons.inj heq).2 ▸ List.mem_cons_self
      exact absurd (List.mem_reverse.1 hmem) h
    next rest _ heq => rw [← (List.cons.inj heq).2, List.reverse_reverse]
    next heq => simp at heq
    next hitems _ => exact absurd rfl (hitems front.reverse)

theorem intText_ne_unique (i : ℤ) : Phrase.intText i ≠ "unique" :=
  ne_of_quantity?_eq_none (n := .int i) (by decide +kernel)

/-- A count with limits and what is counted. -/
theorem ofWords?_countLimitWords (unit : CountUnit) (limits : Limits ℤ) :
    ofWords? (Phrase.countLimitWords limits ++ unit.words) =
      some (.count (some unit) (limits.map .closed)) := by
  have hidentity : ((limits.map Edge.closed).map (Edge.map fun i => i)) =
      limits.map Edge.closed := by
    cases limits <;> rfl
  rw [Phrase.countLimitWords, ofWords?_append_unit, count?, limits?_words wholeNumber?_intText,
    hidentity, Option.map_some]
  exact fun hmem =>
    Limits.forall_mem_words (p := (· ≠ "unique")) (by decide) intText_ne_unique _ _ hmem rfl

theorem uncounted?_words (limits : Limits (Edge String)) :
    uncounted? limits.words = (limits? quantity? limits.words).map .range := by
  cases limits <;> simp [uncounted?, Limits.words]

/-- **A phrase is read from its words.** -/
theorem ofWords?_words (p : Phrase) : ofWords? p.words = some p.demand := by
  match p with
  | .range limits =>
    rw [Phrase.words, ofWords?_of_forall
      (Limits.forall_mem_words (by decide) plain_notMem_unitEnds _), uncounted?_words,
      limits?_words quantity?_plain, Option.map_some, Phrase.demand]
  | .decimalPlaces places =>
    have hlast := plain_notMem_unitEnds (.int places)
    have hread : uncounted? ["decimal", "places", "<=", Phrase.intText places] =
        (wholeNumber? (Phrase.intText places)).map .decimalPlaces := rfl
    rw [Phrase.words, ofWords?_of_forall, hread, wholeNumber?_intText, Option.map_some,
      Phrase.demand]
    simp only [List.forall_mem_cons]
    exact ⟨by decide, by decide, by decide, hlast, by simp⟩
  | .multipleOf step =>
    have hlast := plain_notMem_unitEnds step
    have hread : uncounted? ["multiple", "of", step.plain] =
        (quantity? step.plain).map .multipleOf := rfl
    rw [Phrase.words, ofWords?_of_forall, hread, quantity?_plain, Option.map_some, Phrase.demand]
    simp only [List.forall_mem_cons]
    exact ⟨by decide, by decide, hlast, by simp⟩
  | .count unit (.atMost high) => exact ofWords?_countLimitWords unit _
  | .count unit (.atLeast low) =>
    rw [Phrase.words, Phrase.countWords, Phrase.demand, Phrase.countDemand]
    split
    next hone =>
      rw [hone]
      rfl
    next => exact ofWords?_countLimitWords unit _
  | .count unit (.between low high) =>
    rw [Phrase.words, Phrase.countWords, Phrase.demand, Phrase.countDemand]
    split
    next hequal =>
      have hunique : "unique" ∉ [Phrase.intText low] :=
        fun hmem => intText_ne_unique low (List.mem_singleton.1 hmem).symm
      have hread : limits? wholeNumber? [Phrase.intText low] =
          (wholeNumber? (Phrase.intText low)).map
            fun i => .between (.closed i) (.closed i) := rfl
      rw [ofWords?_append_unit hunique, count?, hread, wholeNumber?_intText, ← hequal]
      rfl
    next => exact ofWords?_countLimitWords unit _

/-- **A phrase is read back from its text.** -/
theorem ofText?_text (p : Phrase) : ofText? p.text = some p.demand := by
  rw [ofText?, p.words_text, ofWords?_words]

end Demand

end SchemaProse
