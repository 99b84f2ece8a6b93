import SchemaProse.Constraint.Description
import SchemaProse.Proofs.Constraint.Readable
/-!
# Constraint — what the texts of a schema demand

Each group of validation keywords has its own demand, computed here from the
values of the keywords: the two ends of the range (`edge?`), the step, and the
counts with their limits. The phrase of a group demands just that
(`demand_rangePhrase?`, `demand_stepPhrase?`, `demand_countPhrase?`); only a count of
at least one does not name what is counted.
-/

namespace SchemaProse

/-! ## Ends -/

theorem Limits.map_map {α β γ : Type} (g : β → γ) (f : α → β) (limits : Limits α) :
    (limits.map f).map g = limits.map (g ∘ f) := by
  cases limits <;> rfl

namespace Schema

variable {s : Schema} {inclusive exclusive : Keyword}

/-- The end of the range on one side: an exclusive bound that is a number, and
otherwise the inclusive bound, which is strict when the exclusive one says
`true`. -/
def edge? (s : Schema) (inclusive exclusive : Keyword) : Option (Edge Quantity) :=
  match s.number? exclusive with
  | some n => some ⟨n.value, true⟩
  | none => (s.number? inclusive).map fun n => ⟨n.value, s.affirms exclusive⟩

/-- The bound that is put into words is this end. -/
theorem map_bound? (s : Schema) (inclusive exclusive : Keyword) :
    (s.bound? inclusive exclusive).map (fun b => b.edge.map Number.value) =
      s.edge? inclusive exclusive := by
  unfold bound? edge? number? affirms
  rcases s.value? exclusive with _ | (_ | b | _ | _ | _ | _) | _ | _ | _
  case some.data.bool => cases b <;> cases (s.value? inclusive).bind Value.number? <;> rfl
  case some.data.num => rfl
  all_goals cases (s.value? inclusive).bind Value.number? <;> rfl

end Schema

/-! ## Demands of the groups -/

namespace Number

/-- What a step demands. -/
def stepDemand (n : Number) : Demand :=
  match n.decimalPlaces? with
  | some places => .decimalPlaces places
  | none => .multipleOf n.value

/-- A number of decimal places belongs to the number nearest to that power of
ten. -/
theorem eq_of_decimalPlaces?_eq_some {n : Number} {k : ℕ} (h : n.decimalPlaces? = some k) :
    n = .float (Binary64.ofDecimal false 1 (-k)) := by
  unfold decimalPlaces? at h
  split at h
  next x =>
    dsimp only at h
    split at h
    next hshortest =>
      obtain ⟨hneg, hcoefficient, hexponent⟩ := hshortest
      have hk : x.shortest.exponent = -k := by
        have := Option.some.inj h
        omega
      have hreads := x.ofDecimal_shortest
      rw [← x.neg_shortest, hneg, hcoefficient, hk] at hreads
      rw [hreads]
    next => cases h
  next => cases h

/-- **The demand of a step tells its value.** -/
theorem value_eq_of_stepDemand_eq {m n : Number} (h : m.stepDemand = n.stepDemand) :
    m.value = n.value := by
  unfold stepDemand at h
  cases hm : m.decimalPlaces? <;> cases hn : n.decimalPlaces? <;> rw [hm, hn] at h
  · exact Demand.multipleOf.inj h
  · cases h
  · cases h
  · have hplaces := Demand.decimalPlaces.inj h
    rw [eq_of_decimalPlaces?_eq_some hm, eq_of_decimalPlaces?_eq_some hn, hplaces]

end Number

namespace Phrase

/-- A count demands its limits. -/
theorem exists_countDemand (unit : CountUnit) (limits : Limits ℤ) :
    ∃ named : Option CountUnit, (named = none ∨ named = some unit) ∧
      countDemand unit limits = .count named (limits.map .closed) := by
  match limits with
  | .atLeast low =>
    by_cases hone : low = 1
    · exact ⟨none, .inl rfl, by rw [countDemand, if_pos hone]; rfl⟩
    · exact ⟨some unit, .inr rfl, by rw [countDemand, if_neg hone]; rfl⟩
  | .atMost high => exact ⟨some unit, .inr rfl, rfl⟩
  | .between low high => exact ⟨some unit, .inr rfl, rfl⟩

/-- It names what is counted, except for a count of at least one. -/
theorem countDemand_of_ne {unit : CountUnit} {limits : Limits ℤ}
    (h : countText unit limits ≠ "non-empty") :
    countDemand unit limits = .count (some unit) (limits.map .closed) := by
  match limits with
  | .atLeast low =>
    have hone : low ≠ 1 := by
      rintro rfl
      exact h rfl
    rw [countDemand, if_neg hone]
    rfl
  | .atMost high => rfl
  | .between low high => rfl

end Phrase

namespace Schema

variable {s : Schema}

/-- **The range phrase demands a number between the ends.** -/
theorem demand_rangePhrase? (s : Schema) :
    s.rangePhrase?.map Phrase.demand =
      (Limits.of? (s.edge? .minimum .exclusiveMinimum) (s.edge? .maximum .exclusiveMaximum)).map
        .range := by
  rw [rangePhrase?, ← map_bound?, ← map_bound?, ← Limits.map_of?, Option.map_map, Option.map_map]
  refine Option.map_congr fun limits _ => ?_
  exact congrArg Demand.range (Limits.map_map _ _ limits)

/-- The limits of a count. -/
def countLimits? (s : Schema) (low high : Keyword) : Option (Limits (Edge ℤ)) :=
  Limits.of? ((s.integer? low).map .closed) ((s.integer? high).map .closed)

/-- **The phrase of a count demands its limits**, and names what is counted
unless it is the word for "at least one". -/
theorem demand_countPhrase? {unit : CountUnit} {low high : Keyword}
    (h : ∀ p ∈ s.countPhrase? unit low high, p.text ≠ "non-empty") :
    (s.countPhrase? unit low high).map Phrase.demand =
      (s.countLimits? low high).map (.count (some unit)) := by
  rw [countLimits?, ← Limits.map_of?, Option.map_map]
  unfold countPhrase? at h ⊢
  rw [Option.map_map]
  refine Option.map_congr fun limits hlimits => ?_
  exact Phrase.countDemand_of_ne (h _ (Option.mem_map_of_mem _ hlimits))

/-- **The step phrase demands what the step demands.** -/
theorem demand_stepPhrase? (s : Schema) :
    s.stepPhrase?.map Phrase.demand = (s.number? .multipleOf).map Number.stepDemand := by
  rw [stepPhrase?, Option.map_map]
  refine Option.map_congr fun n _ => ?_
  unfold Number.stepDemand
  rw [Function.comp_apply]
  cases n.decimalPlaces? <;> rfl

end Schema

end SchemaProse
