import SchemaProse.Proofs.Constraint.Described
/-!
# Constraint — the texts lose no bound

Each text is read back as a demand, and unless it is the word for "at least one"
the demand tells which group of keywords it is about (`Demand.group?`). So the
list of texts can be taken apart into the phrases of the groups, and from each
of them the values of its keywords are recovered: schemas with the same texts
have the same bounds (`sameBounds_of_constraintTexts_eq`).
-/

namespace SchemaProse

/-! ## Groups -/

/-- The groups of validation keywords that make a phrase together. -/
inductive ConstraintGroup where
  | range | step | characters | items | properties
deriving DecidableEq

/-- The groups in the order of their phrases. -/
def ConstraintGroup.all : List ConstraintGroup :=
  [range, step, characters, items, properties]

theorem ConstraintGroup.mem_all (g : ConstraintGroup) : g ∈ all := by
  cases g <;> decide

/-- The group that counts. -/
def CountUnit.group : CountUnit → ConstraintGroup
  | characters => .characters
  | items | uniqueItems => .items
  | properties => .properties

/-- The group that a demand is about, if it tells. -/
def Demand.group? : Demand → Option ConstraintGroup
  | range _ => some .range
  | decimalPlaces _ | multipleOf _ => some .step
  | count unit _ => unit.map CountUnit.group

namespace Schema

variable {s t : Schema}

/-- The phrase of a group. -/
def groupPhrase? (s : Schema) : ConstraintGroup → Option Phrase
  | .range => s.rangePhrase?
  | .step => s.stepPhrase?
  | .characters => s.countPhrase? .characters .minLength .maxLength
  | .items => s.countPhrase? s.itemUnit .minItems .maxItems
  | .properties => s.countPhrase? .properties .minProperties .maxProperties

theorem phrases_eq (s : Schema) : s.phrases = ConstraintGroup.all.filterMap s.groupPhrase? := by
  have hphrases : s.phrases = (ConstraintGroup.all.map s.groupPhrase?).filterMap id := rfl
  rw [hphrases, List.filterMap_map, Function.id_comp]

theorem group_itemUnit (s : Schema) : s.itemUnit.group = .items := by
  unfold itemUnit
  split <;> rfl

theorem exists_of_countPhrase? {unit : CountUnit} {low high : Keyword} {p : Phrase}
    (h : s.countPhrase? unit low high = some p) : ∃ limits, p = .count unit limits := by
  obtain ⟨limits, -, rfl⟩ := Option.map_eq_some_iff.1 h
  exact ⟨limits, rfl⟩

/-- A text that is not the word for "at least one" tells its group. -/
theorem group?_demand {g : ConstraintGroup} {p : Phrase} (h : s.groupPhrase? g = some p)
    (hnonempty : p.text ≠ "non-empty") : p.demand.group? = some g := by
  have hcount {unit : CountUnit} {low high : Keyword} (hgroup : unit.group = g)
      (h : s.countPhrase? unit low high = some p) : p.demand.group? = some g := by
    obtain ⟨limits, rfl⟩ := exists_of_countPhrase? h
    rw [Phrase.demand, Phrase.countDemand_of_ne hnonempty, ← hgroup]
    rfl
  cases g with
  | range =>
    obtain ⟨limits, -, rfl⟩ := Option.map_eq_some_iff.1 h
    rfl
  | step =>
    obtain ⟨n, -, rfl⟩ := Option.map_eq_some_iff.1 h
    cases n.decimalPlaces? <;> rfl
  | characters => exact hcount rfl h
  | items => exact hcount s.group_itemUnit h
  | properties => exact hcount rfl h

end Schema

/-! ## From the list to the groups -/

/-- Values that tell what they belong to are found again in a list of them. -/
theorem eq_of_filterMap_eq {α β : Type} {f g : α → Option β} {key : β → Option α} {l : List α}
    (hf : ∀ a b, f a = some b → key b = some a) (hg : ∀ a b, g a = some b → key b = some a)
    (h : l.filterMap f = l.filterMap g) {a : α} (ha : a ∈ l) : f a = g a := by
  have hfound {f g : α → Option β} (hf : ∀ a b, f a = some b → key b = some a)
      (hg : ∀ a b, g a = some b → key b = some a) (h : l.filterMap f = l.filterMap g) (b : β)
      (hb : f a = some b) : g a = some b := by
    have hmem : b ∈ l.filterMap g := h ▸ List.mem_filterMap.2 ⟨a, ha, hb⟩
    obtain ⟨a', -, hb'⟩ := List.mem_filterMap.1 hmem
    have hkey := (hf a b hb).symm.trans (hg a' b hb')
    rwa [Option.some.inj hkey]
  exact Option.ext fun b => ⟨hfound hf hg h b, hfound hg hf h.symm b⟩

/-- What a function tells of an optional value, another one tells that depends
on no more. -/
theorem map_eq_of_map_eq {α β γ : Type} {f f' : α → β} {g : α → γ}
    (hfg : ∀ a b, f a = f' b → g a = g b) {o o' : Option α} (h : o.map f = o'.map f') :
    o.map g = o'.map g := by
  cases o with
  | none =>
    cases o' with
    | none => rfl
    | some b => cases h
  | some a =>
    cases o' with
    | none => cases h
    | some b => exact congrArg some (hfg a b (Option.some.inj h))

namespace Schema

variable {s t : Schema}

/-- The demand of a group. -/
def groupDemand? (s : Schema) (g : ConstraintGroup) : Option Demand :=
  (s.groupPhrase? g).map Phrase.demand

/-- The demands of the texts are those of the groups. -/
theorem map_ofText?_constraintTexts (s : Schema) :
    (Value.schema s).constraintTexts.filterMap Demand.ofText? =
      ConstraintGroup.all.filterMap s.groupDemand? := by
  rw [Value.constraintTexts, phrases_eq, List.filterMap_map, List.filterMap_filterMap]
  refine List.filterMap_congr fun g _ => ?_
  unfold groupDemand?
  cases s.groupPhrase? g with
  | none => rfl
  | some p => exact Demand.ofText?_text p

/-- The text of a group's phrase is one of the texts. -/
theorem text_mem_constraintTexts {g : ConstraintGroup} {p : Phrase}
    (h : s.groupPhrase? g = some p) : p.text ∈ (Value.schema s).constraintTexts := by
  rw [Value.constraintTexts, phrases_eq]
  exact List.mem_map_of_mem (List.mem_filterMap.2 ⟨g, g.mem_all, h⟩)

/-- Where no text is the word for "at least one", each demand tells its
group. -/
theorem group?_groupDemand? (h : "non-empty" ∉ (Value.schema s).constraintTexts)
    {g : ConstraintGroup} {d : Demand} (hd : s.groupDemand? g = some d) : d.group? = some g := by
  obtain ⟨p, hp, rfl⟩ := Option.map_eq_some_iff.1 hd
  exact group?_demand hp fun htext => h (htext ▸ text_mem_constraintTexts hp)

/-- **The texts tell the demand of every group.** -/
theorem groupDemand?_eq_of_constraintTexts_eq
    (h : (Value.schema s).constraintTexts = (Value.schema t).constraintTexts)
    (hnonempty : "non-empty" ∉ (Value.schema s).constraintTexts) (g : ConstraintGroup) :
    s.groupDemand? g = t.groupDemand? g := by
  have hdemands : ConstraintGroup.all.filterMap s.groupDemand? =
      ConstraintGroup.all.filterMap t.groupDemand? := by
    rw [← map_ofText?_constraintTexts, ← map_ofText?_constraintTexts, h]
  have hnonempty' : "non-empty" ∉ (Value.schema t).constraintTexts := h ▸ hnonempty
  exact eq_of_filterMap_eq (fun _ _ => group?_groupDemand? hnonempty)
    (fun _ _ => group?_groupDemand? hnonempty') hdemands g.mem_all

/-! ## From the demands to the keywords -/

/-- Counts that demand the same have the same bounds, and if there is one they
count the same. -/
theorem counts_eq {unit unit' : CountUnit} {low high : Keyword}
    (h : (s.countLimits? low high).map (Demand.count (some unit)) =
      (t.countLimits? low high).map (.count (some unit'))) :
    s.integer? low = t.integer? low ∧ s.integer? high = t.integer? high ∧
      ((s.integer? low).isSome ∨ (s.integer? high).isSome → unit = unit') := by
  have hlimits : s.countLimits? low high = t.countLimits? low high := by
    have hmap := map_eq_of_map_eq (g := id) (fun _ _ heq => (Demand.count.inj heq).2) h
    rwa [Option.map_id_fun, id_eq, id_eq] at hmap
  have hclosed : Function.Injective (Edge.closed (α := ℤ)) := fun _ _ heq => congrArg Edge.value heq
  obtain ⟨hlow, hhigh⟩ := Limits.of?_inj.1 hlimits
  refine ⟨Option.map_injective hclosed hlow, Option.map_injective hclosed hhigh, fun hsome => ?_⟩
  obtain ⟨limits, hof⟩ : ∃ limits, s.countLimits? low high = some limits := by
    rw [← Option.ne_none_iff_exists', countLimits?, Ne, Limits.of?_eq_none_iff,
      Option.map_eq_none_iff, Option.map_eq_none_iff]
    rintro ⟨hnone, hnone'⟩
    simp [hnone, hnone'] at hsome
  rw [← hlimits, hof] at h
  exact Option.some.inj (Demand.count.inj (Option.some.inj h)).1

/-- What items are called tells whether they have to be unique. -/
theorem affirms_eq_of_itemUnit_eq (h : s.itemUnit = t.itemUnit) :
    s.affirms .uniqueItems = t.affirms .uniqueItems := by
  unfold itemUnit at h
  cases hs : s.affirms .uniqueItems <;> cases ht : t.affirms .uniqueItems <;> simp_all

/-- Two schemas bound the same: the ends of the range, the step, the lengths
and the numbers of items and properties, and whether items that are counted are
unique. -/
structure SameBounds (s t : Schema) : Prop where
  /-- The lower end, with its value and whether it is strict. -/
  lower : s.edge? .minimum .exclusiveMinimum = t.edge? .minimum .exclusiveMinimum
  /-- The upper end. -/
  upper : s.edge? .maximum .exclusiveMaximum = t.edge? .maximum .exclusiveMaximum
  /-- The value of the step. -/
  step : (s.number? .multipleOf).map Number.value = (t.number? .multipleOf).map Number.value
  /-- The bounds of the counts. -/
  counts : ∀ k ∈ [Keyword.minLength, .maxLength, .minItems, .maxItems, .minProperties,
    .maxProperties], s.integer? k = t.integer? k
  /-- Items that are counted are unique in both or in neither. -/
  unique : (s.integer? .minItems).isSome ∨ (s.integer? .maxItems).isSome →
    s.affirms .uniqueItems = t.affirms .uniqueItems

/-- **The texts lose no bound.** Schemas with the same texts bound the same,
unless one of the texts is the word for "at least one". -/
theorem sameBounds_of_constraintTexts_eq
    (h : (Value.schema s).constraintTexts = (Value.schema t).constraintTexts)
    (hnonempty : "non-empty" ∉ (Value.schema s).constraintTexts) : s.SameBounds t := by
  have hgroup := groupDemand?_eq_of_constraintTexts_eq h hnonempty
  have hcount {unit unit' : CountUnit} {low high : Keyword} (g : ConstraintGroup)
      (hs : s.groupPhrase? g = s.countPhrase? unit low high)
      (ht : t.groupPhrase? g = t.countPhrase? unit' low high) :
      s.integer? low = t.integer? low ∧ s.integer? high = t.integer? high ∧
        ((s.integer? low).isSome ∨ (s.integer? high).isSome → unit = unit') := by
    have hdemand := hgroup g
    rw [groupDemand?, groupDemand?, hs, ht,
      demand_countPhrase? fun p hp htext =>
        hnonempty (htext ▸ text_mem_constraintTexts (hs.trans hp)),
      demand_countPhrase? fun p hp htext =>
        hnonempty (h ▸ htext ▸ text_mem_constraintTexts (ht.trans hp))] at hdemand
    exact counts_eq hdemand
  have hrange := hgroup .range
  have hstep := hgroup .step
  rw [groupDemand?, groupDemand?, groupPhrase?, groupPhrase?, demand_rangePhrase?,
    demand_rangePhrase?] at hrange
  rw [groupDemand?, groupDemand?, groupPhrase?, groupPhrase?, demand_stepPhrase?,
    demand_stepPhrase?] at hstep
  have hends := Limits.of?_inj.1 (Option.map_injective (fun _ _ => Demand.range.inj) hrange)
  obtain ⟨hminLength, hmaxLength, -⟩ := hcount .characters rfl rfl
  obtain ⟨hminItems, hmaxItems, hunit⟩ := hcount .items rfl rfl
  obtain ⟨hminProperties, hmaxProperties, -⟩ := hcount .properties rfl rfl
  refine ⟨hends.1, hends.2, map_eq_of_map_eq (fun _ _ => Number.value_eq_of_stepDemand_eq) hstep,
    ?_, fun hsome => ?_⟩
  · simp only [List.forall_mem_cons]
    exact ⟨hminLength, hmaxLength, hminItems, hmaxItems, hminProperties, hmaxProperties, by simp⟩
  · exact affirms_eq_of_itemUnit_eq (hunit hsome)

/-- A strict bound in both of its spellings, once as a whole number and once as
a binary64 number. -/
theorem sameBounds_strictSpellings :
    ∃ s t : Schema,
      (Value.schema s).constraintTexts = ["( 1 .. 0.1 ]", "decimal places <= 2", "2 unique items"] ∧
      (Value.schema t).constraintTexts = (Value.schema s).constraintTexts ∧
      s.value? .minimum ≠ t.value? .minimum ∧ s.SameBounds t := by
  let one : Number := .float (.ofDecimal false 10 (-1))
  let tenth : Number := .float (.ofDecimal false 1 (-1))
  let hundredth : Number := .float (.ofDecimal false 1 (-2))
  let counted : List (Keyword × Value) :=
    [(.minItems, .data (.num (.int 2))), (.maxItems, .data (.num (.int 2))),
      (.uniqueItems, .bool true)]
  let s : Schema := ⟨(.multipleOf, .data (.num hundredth)) :: (.minimum, .data (.num (.int 1))) ::
    (.maximum, .data (.num tenth)) :: (.exclusiveMinimum, .bool true) :: counted, []⟩
  let t : Schema := ⟨(.multipleOf, .data (.num hundredth)) :: (.maximum, .data (.num tenth)) ::
    (.exclusiveMinimum, .data (.num one)) :: counted, []⟩
  have hs : (Value.schema s).constraintTexts =
      ["( 1 .. 0.1 ]", "decimal places <= 2", "2 unique items"] := by decide +kernel
  have ht : (Value.schema t).constraintTexts = (Value.schema s).constraintTexts := by
    decide +kernel
  refine ⟨s, t, hs, ht, nofun, sameBounds_of_constraintTexts_eq ht.symm ?_⟩
  rw [hs]
  decide

end Schema

end SchemaProse
