import Mathlib.Data.Int.ConditionallyCompleteOrder
import Mathlib.Data.List.ReduceOption
import SchemaProse.Proofs.Constraint.Described
/-!
# Constraint — the texts tell the truth

What the keywords of a schema demand of a number is said here keyword by keyword
(`Schema.InRange`), and of a count bound by bound. A text tells the truth when
the limits that are read from it admit what the keywords admit. A count admits
the same (`TellsCount`). A range never excludes a number that the keywords admit,
and admits no other unless an inclusive bound is tighter than the exclusive one
that takes its place (`TellsRange`).
-/

namespace SchemaProse

/-! ## Numbers in range -/

/-- The rational number, if the number has a finite value. -/
def Number.rational? (n : Number) : Option ℚ :=
  match n.value with
  | .rational q => some q
  | _ => none

namespace Schema

variable {s : Schema} {inclusive exclusive : Keyword} {x : ℚ}

/-- The rational number under a keyword. -/
def rational? (s : Schema) (k : Keyword) : Option ℚ :=
  (s.number? k).bind Number.rational?

/-- The keywords that bound a range. -/
def rangeKeywords : List Keyword :=
  [.minimum, .exclusiveMinimum, .maximum, .exclusiveMaximum]

/-- The bounds of the range are finite, as far as they are numbers. -/
def HasFiniteRange (s : Schema) : Prop :=
  ∀ k ∈ rangeKeywords, ∀ n ∈ s.number? k, ∃ q, n.rational? = some q

/-- The number satisfies the keywords that bound the range, each on its own: an
inclusive bound is strict when the exclusive one says `true`, and an exclusive
bound that is a number is always strict. -/
structure InRange (s : Schema) (x : ℚ) : Prop where
  minimum : ∀ q ∈ s.rational? .minimum, x ∈ Edge.above ⟨q, s.affirms .exclusiveMinimum⟩
  exclusiveMinimum : ∀ q ∈ s.rational? .exclusiveMinimum, q < x
  maximum : ∀ q ∈ s.rational? .maximum, x ∈ Edge.below ⟨q, s.affirms .exclusiveMaximum⟩
  exclusiveMaximum : ∀ q ∈ s.rational? .exclusiveMaximum, x < q

/-- Where both bounds of a side are numbers, the exclusive one is at least as
tight. -/
structure Tight (s : Schema) : Prop where
  lower : ∀ m ∈ s.rational? .minimum, ∀ q ∈ s.rational? .exclusiveMinimum, m ≤ q
  upper : ∀ m ∈ s.rational? .maximum, ∀ q ∈ s.rational? .exclusiveMaximum, q ≤ m

/-! ## Truth -/

/-- The text of a range tells the truth about a schema: its limits admit every
number in range, and only those where the exclusive bounds are tight. Without a
text there are no limits. -/
def TellsRange (s : Schema) (text? : Option String) : Prop :=
  ∃ limits? : Option (Limits (Edge ℚ)),
    text?.map Demand.ofText? =
      limits?.map (fun limits => some (.range (limits.map (Edge.map .rational)))) ∧
    (∀ x, s.InRange x → ∀ limits ∈ limits?, x ∈ limits.admitted) ∧
    (s.Tight → ∀ x, (∀ limits ∈ limits?, x ∈ limits.admitted) → s.InRange x)

/-- The text of a step tells the step. -/
def TellsStep (step : Option Number) (text? : Option String) : Prop :=
  text?.map Demand.ofText? = step.map fun n => some n.stepDemand

/-- The text of a count tells the truth about its bounds: it is there when one
of them is, and its limits admit the numbers between them. It names what is
counted or leaves it open. -/
structure TellsCount (unit : CountUnit) (low high : Option ℤ) (text? : Option String) : Prop where
  absent : text? = none ↔ low = none ∧ high = none
  present : ∀ text ∈ text?, ∃ named limits, (named = none ∨ named = some unit) ∧
    Demand.ofText? text = some (.count named limits) ∧
    ∀ n, n ∈ limits.admitted ↔ (∀ m ∈ low, m ≤ n) ∧ ∀ m ∈ high, n ≤ m

/-! ## Ends -/

/-- The end of the range on one side, for finite bounds. -/
def rationalEdge? (s : Schema) (inclusive exclusive : Keyword) : Option (Edge ℚ) :=
  match s.rational? exclusive with
  | some q => some ⟨q, true⟩
  | none => (s.rational? inclusive).map fun q => ⟨q, s.affirms exclusive⟩

theorem value_eq_of_rational? {n : Number} {q : ℚ} (h : n.rational? = some q) :
    n.value = .rational q := by
  unfold Number.rational? at h
  split at h
  next heq => rw [heq, Option.some.inj h]
  next => cases h

/-- The end that is put into words is this one. -/
theorem edge?_eq (h : s.HasFiniteRange) (hinclusive : inclusive ∈ rangeKeywords)
    (hexclusive : exclusive ∈ rangeKeywords) :
    s.edge? inclusive exclusive =
      (s.rationalEdge? inclusive exclusive).map (Edge.map .rational) := by
  unfold edge? rationalEdge? rational?
  cases he : s.number? exclusive with
  | some n =>
    obtain ⟨q, hq⟩ := h exclusive hexclusive n he
    simp only [Option.bind_some, hq, value_eq_of_rational? hq]
    rfl
  | none =>
    cases hi : s.number? inclusive with
    | none => rfl
    | some n =>
      obtain ⟨q, hq⟩ := h inclusive hinclusive n hi
      simp only [Option.bind_none, Option.bind_some, Option.map_some, hq,
        value_eq_of_rational? hq]
      rfl

/-- What both bounds of a side demand holds at the end. -/
theorem forall_rationalEdge? {holds : Edge ℚ → Prop}
    (hinclusive : ∀ q ∈ s.rational? inclusive, holds ⟨q, s.affirms exclusive⟩)
    (hexclusive : ∀ q ∈ s.rational? exclusive, holds ⟨q, true⟩) :
    ∀ e ∈ s.rationalEdge? inclusive exclusive, holds e := by
  intro e he
  rw [Option.mem_def, rationalEdge?] at he
  split at he
  next q hq =>
    rw [← Option.some.inj he]
    exact hexclusive q hq
  next =>
    obtain ⟨q, hq, rfl⟩ := Option.map_eq_some_iff.1 he
    exact hinclusive q hq

/-- What holds at the end is what both bounds of the side demand, when the
exclusive one is tight. -/
theorem forall_of_rationalEdge? {holds : Edge ℚ → Prop}
    (hend : ∀ e ∈ s.rationalEdge? inclusive exclusive, holds e)
    (htight : ∀ m ∈ s.rational? inclusive, ∀ q ∈ s.rational? exclusive, holds ⟨q, true⟩ →
      holds ⟨m, s.affirms exclusive⟩) :
    (∀ q ∈ s.rational? inclusive, holds ⟨q, s.affirms exclusive⟩) ∧
      ∀ q ∈ s.rational? exclusive, holds ⟨q, true⟩ := by
  unfold rationalEdge? at hend
  cases hq : s.rational? exclusive with
  | some q =>
    rw [hq] at hend
    have hstrict := hend _ rfl
    refine ⟨fun m hm => htight m hm q hq hstrict, fun q' hq' => ?_⟩
    rwa [← Option.some.inj hq']
  | none =>
    rw [hq] at hend
    exact ⟨fun m hm => hend _ (Option.mem_map_of_mem _ hm), nofun⟩

/-- A number in range is on the right side of both ends. -/
theorem InRange.mem_ends (h : s.InRange x) :
    (∀ e ∈ s.rationalEdge? .minimum .exclusiveMinimum, x ∈ e.above) ∧
      ∀ e ∈ s.rationalEdge? .maximum .exclusiveMaximum, x ∈ e.below :=
  ⟨forall_rationalEdge? h.minimum h.exclusiveMinimum,
    forall_rationalEdge? h.maximum h.exclusiveMaximum⟩

/-- Strictly above a number is on the right side of every edge that is not
above it. -/
theorem mem_above_of_le {m q : ℚ} (hle : m ≤ q) (hx : q < x) (strict : Bool) :
    x ∈ Edge.above ⟨m, strict⟩ := by
  have hlt : m < x := hle.trans_lt hx
  cases strict
  · exact hlt.le
  · exact hlt

theorem mem_below_of_le {m q : ℚ} (hle : q ≤ m) (hx : x < q) (strict : Bool) :
    x ∈ Edge.below ⟨m, strict⟩ := by
  have hlt : x < m := hx.trans_le hle
  cases strict
  · exact hlt.le
  · exact hlt

/-- Where the exclusive bounds are tight, it is in range when it is on the right
side of both ends. -/
theorem Tight.inRange (h : s.Tight)
    (hlower : ∀ e ∈ s.rationalEdge? .minimum .exclusiveMinimum, x ∈ e.above)
    (hupper : ∀ e ∈ s.rationalEdge? .maximum .exclusiveMaximum, x ∈ e.below) : s.InRange x := by
  obtain ⟨hminimum, hexclusiveMinimum⟩ := forall_of_rationalEdge? hlower
    fun m hm q hq hx => mem_above_of_le (h.lower m hm q hq) hx _
  obtain ⟨hmaximum, hexclusiveMaximum⟩ := forall_of_rationalEdge? hupper
    fun m hm q hq hx => mem_below_of_le (h.upper m hm q hq) hx _
  exact ⟨hminimum, hexclusiveMinimum, hmaximum, hexclusiveMaximum⟩

/-! ## The phrases -/

/-- The texts of phrases are read as the demands of the phrases. -/
theorem map_ofText?_text (p? : Option Phrase) :
    (p?.map Phrase.text).map Demand.ofText? = (p?.map Phrase.demand).map some := by
  rw [Option.map_map, Option.map_map]
  exact Option.map_congr fun p _ => Demand.ofText?_text p

/-- **The text of the range tells the truth.** -/
theorem tellsRange (h : s.HasFiniteRange) : s.TellsRange (s.rangePhrase?.map Phrase.text) := by
  refine ⟨Limits.of? (s.rationalEdge? .minimum .exclusiveMinimum)
    (s.rationalEdge? .maximum .exclusiveMaximum), ?_, fun x hx => ?_, fun htight x hx => ?_⟩
  · rw [map_ofText?_text, demand_rangePhrase?, edge?_eq h (by decide) (by decide),
      edge?_eq h (by decide) (by decide), ← Limits.map_of?, Option.map_map, Option.map_map]
    rfl
  · exact Limits.forall_mem_admitted_iff.2 hx.mem_ends
  · obtain ⟨hlower, hupper⟩ := Limits.forall_mem_admitted_iff.1 hx
    exact htight.inRange hlower hupper

theorem tellsStep (s : Schema) :
    TellsStep (s.number? .multipleOf) (s.stepPhrase?.map Phrase.text) := by
  rw [TellsStep, map_ofText?_text, demand_stepPhrase?, Option.map_map]
  rfl

/-- Bounds of a count admit the numbers between them. -/
theorem mem_admitted_closed_iff {low high : Option ℤ} {limits : Limits ℤ}
    (h : Limits.of? low high = some limits) {n : ℤ} :
    n ∈ (limits.map Edge.closed).admitted ↔ (∀ m ∈ low, m ≤ n) ∧ ∀ m ∈ high, n ≤ m := by
  have hclosed : Limits.of? (low.map Edge.closed) (high.map Edge.closed) =
      some (limits.map Edge.closed) := by
    rw [← Limits.map_of?, h, Option.map_some]
  have hadmitted :
      (∀ limits ∈ Limits.of? (low.map Edge.closed) (high.map Edge.closed), n ∈ limits.admitted) ↔
        (∀ e ∈ low.map Edge.closed, n ∈ e.above) ∧ ∀ e ∈ high.map Edge.closed, n ∈ e.below :=
    Limits.forall_mem_admitted_iff
  rw [hclosed] at hadmitted
  simpa [Edge.closed, Edge.above, Edge.below] using hadmitted

/-- **The text of a count tells the truth.** -/
theorem tellsCount (s : Schema) (unit : CountUnit) (low high : Keyword) :
    TellsCount unit (s.integer? low) (s.integer? high)
      ((s.countPhrase? unit low high).map Phrase.text) where
  absent := by
    rw [Option.map_eq_none_iff, countPhrase?, Option.map_eq_none_iff, Limits.of?_eq_none_iff]
  present := by
    intro text htext
    obtain ⟨p, hp, rfl⟩ := Option.map_eq_some_iff.1 htext
    obtain ⟨limits, hlimits, rfl⟩ := Option.map_eq_some_iff.1 hp
    obtain ⟨named, hnamed, hdemand⟩ := Phrase.exists_countDemand unit limits
    refine ⟨named, limits.map .closed, hnamed, ?_, fun n => mem_admitted_closed_iff hlimits⟩
    rw [Demand.ofText?_text, Phrase.demand, hdemand]

/-- **The texts of a schema tell the truth.** They are the texts of the five
groups, as far as these have one; that of the range when its bounds are
finite. -/
theorem constraintTexts_truthful (s : Schema) :
    ∃ range step characters items properties : Option String,
      (Value.schema s).constraintTexts =
        [range, step, characters, items, properties].reduceOption ∧
      (s.HasFiniteRange → s.TellsRange range) ∧
      TellsStep (s.number? .multipleOf) step ∧
      TellsCount .characters (s.integer? .minLength) (s.integer? .maxLength) characters ∧
      TellsCount s.itemUnit (s.integer? .minItems) (s.integer? .maxItems) items ∧
      TellsCount .properties (s.integer? .minProperties) (s.integer? .maxProperties)
        properties := by
  refine ⟨s.rangePhrase?.map Phrase.text, s.stepPhrase?.map Phrase.text,
    (s.countPhrase? .characters .minLength .maxLength).map Phrase.text,
    (s.countPhrase? s.itemUnit .minItems .maxItems).map Phrase.text,
    (s.countPhrase? .properties .minProperties .maxProperties).map Phrase.text,
    ?_, tellsRange, s.tellsStep, s.tellsCount _ _ _, s.tellsCount _ _ _, s.tellsCount _ _ _⟩
  -- the texts are those of the phrases that are there
  exact List.reduceOption_map.symm

/-- An exclusive bound that is tighter than the inclusive one, a bound that is
strict by a truth value, and counts of nothing, of at least one and of less than
nothing. -/
theorem constraintTexts_truthful_mixedBounds :
    ∃ s : Schema, s.HasFiniteRange ∧ s.Tight ∧
      (Value.schema s).constraintTexts =
        ["( 5 .. 10 )", "0 characters", "non-empty", "<= -1 properties"] ∧
      ∃ range step characters items properties : Option String,
        (Value.schema s).constraintTexts =
          [range, step, characters, items, properties].reduceOption ∧
        s.TellsRange range ∧ TellsCount .items (some 1) none items := by
  let s : Schema := ⟨[(.minimum, .data (.num (.int 3))), (.maximum, .data (.num (.int 10))),
    (.exclusiveMinimum, .data (.num (.int 5))), (.exclusiveMaximum, .bool true),
    (.minLength, .data (.num (.int 0))), (.maxLength, .data (.num (.int 0))),
    (.minItems, .data (.num (.int 1))), (.maxProperties, .data (.num (.int (-1))))], []⟩
  have hfinite : s.HasFiniteRange := by
    simp only [HasFiniteRange, rangeKeywords, List.forall_mem_cons]
    refine ⟨?_, ?_, ?_, ?_, by simp⟩ <;> rintro _ ⟨⟩ <;> exact ⟨_, rfl⟩
  have htight : s.Tight := by
    constructor
    · rintro _ ⟨⟩ _ ⟨⟩
      norm_num
    · rintro _ ⟨⟩ _ ⟨⟩
  obtain ⟨range, step, characters, items, properties, htexts, hrange, -, -, hitems, -⟩ :=
    constraintTexts_truthful s
  exact ⟨s, hfinite, htight, by decide +kernel, range, step, characters, items, properties,
    htexts, hrange hfinite, hitems⟩

end Schema

end SchemaProse
