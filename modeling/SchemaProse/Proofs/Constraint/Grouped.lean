import SchemaProse.Proofs.Constraint.Unambiguous
import SchemaProse.Proofs.Reading.Steps
/-!
# Constraint — the groups of keywords are independent

The phrase of a group is made of the values of the group's own keywords
(`groupPhrase?_congr`), and what is read under a keyword is read from the member of
its name alone (`filled?_of_read`). So the texts of a schema are those of its parts,
one for each group: the schemas read from the members that belong to the group
(`constraintTexts_of_parts`).
-/

namespace SchemaProse

namespace ConstraintGroup

/-- The keywords of a group. -/
def keywords : ConstraintGroup → List Keyword
  | range => [.minimum, .maximum, .exclusiveMinimum, .exclusiveMaximum]
  | step => [.multipleOf]
  | characters => [.minLength, .maxLength]
  | items => [.minItems, .maxItems, .uniqueItems]
  | properties => [.minProperties, .maxProperties]

/-- No keyword belongs to two groups. -/
theorem eq_of_mem_keywords {g g' : ConstraintGroup} {k : Keyword} (h : k ∈ g.keywords)
    (h' : k ∈ g'.keywords) : g = g' := by
  have hall : ∀ g g' : ConstraintGroup, ∀ k ∈ g.keywords, k ∈ g'.keywords → g = g' := by
    intro g g'
    cases g <;> cases g' <;> decide
  exact hall g g' k h h'

/-- The name is that of a keyword of the group. -/
def names (g : ConstraintGroup) (name : String) : Bool :=
  (g.keywords.map Keyword.name).contains name

/-- The members of an object that belong to a group. -/
def restrict (g : ConstraintGroup) (members : List (String × Json)) : List (String × Json) :=
  members.filter fun m => g.names m.1

variable {g : ConstraintGroup} {members : List (String × Json)} {k : Keyword}

theorem names_name_iff : g.names k.name = true ↔ k ∈ g.keywords := by
  rw [names, List.contains_iff_mem, List.mem_map_of_injective Keyword.name_injective]

/-- A keyword of the group is looked up among the members of the group as among all
members, and no other keyword is found there. -/
theorem lookup_restrict (g : ConstraintGroup) (members : List (String × Json)) (k : Keyword) :
    (g.restrict members).lookup k.name =
      if k ∈ g.keywords then members.lookup k.name else none := by
  rw [restrict, lookup_filter_name g.names]
  simp only [names_name_iff]

end ConstraintGroup

namespace Schema

variable {s t : Schema} {g : ConstraintGroup} {members : List (String × Json)} {k : Keyword}

/-! ## What a phrase depends on -/

/-- The value of a keyword, if it was given and is not empty. -/
def filled? (s : Schema) (k : Keyword) : Option Value :=
  (s.value? k).filter fun v => !v.isNull

/-- **What a keyword is filled with is read from the member of its name.** -/
theorem filled?_of_read (h : read members = .ok s) (k : Keyword) :
    s.filled? k =
      ((members.lookup k.name).bind (Value.readGiven? k.shape)).filter fun v => !v.isNull := by
  rw [filled?]
  cases hk : members.lookup k.name with
  | some j =>
    obtain ⟨v, hv, hvalue⟩ := value?_of_lookup_eq_some h hk
    rw [hvalue, Option.bind_some, hv]
  | none =>
    -- the keyword is absent, or empty by its identifier
    rw [value?_of_lookup_eq_none h hk]
    split <;> rfl

/-- A keyword that is not filled is absent or empty. -/
theorem filled?_eq_none_iff :
    s.filled? k = none ↔ s.value? k = none ∨ s.value? k = some (.data .null) := by
  rw [filled?]
  cases s.value? k with
  | none => simp
  | some v =>
    cases v with
    | data j => cases j <;> simp [Value.isNull]
    | _ => simp [Value.isNull]

/-- Keywords that are filled alike have the same value, or none but an empty one. -/
theorem value?_eq_or_empty (h : s.filled? k = t.filled? k) :
    s.value? k = t.value? k ∨
      (s.value? k = none ∨ s.value? k = some (.data .null)) ∧
        (t.value? k = none ∨ t.value? k = some (.data .null)) := by
  cases hs : s.filled? k with
  | none => exact .inr ⟨filled?_eq_none_iff.1 hs, filled?_eq_none_iff.1 (h.symm.trans hs)⟩
  | some v =>
    have ht := h.symm.trans hs
    rw [filled?, Option.filter_eq_some_iff] at hs ht
    exact .inl (hs.1.trans ht.1.symm)

/-- What does not tell an empty value from none is the same of keywords that are
filled alike. -/
theorem congr_of_filled? {α : Type} {f : Option Value → α} (hf : f (some (.data .null)) = f none)
    (h : s.filled? k = t.filled? k) : f (s.value? k) = f (t.value? k) := by
  have hempty : ∀ o, o = none ∨ o = some (.data .null) → f o = f none := by
    rintro o (rfl | rfl)
    · rfl
    · exact hf
  rcases value?_eq_or_empty h with heq | ⟨hs, ht⟩
  · rw [heq]
  · rw [hempty _ hs, hempty _ ht]

theorem number?_congr (h : s.filled? k = t.filled? k) : s.number? k = t.number? k :=
  congr_of_filled? (f := (Option.bind · Value.number?)) rfl h

theorem integer?_congr (h : s.filled? k = t.filled? k) : s.integer? k = t.integer? k :=
  congr_of_filled? (f := (Option.bind · Value.integer?)) rfl h

theorem affirms_congr (h : s.filled? k = t.filled? k) : s.affirms k = t.affirms k :=
  congr_of_filled? (f := Option.any Value.isTrue) rfl h

theorem bound?_congr {inclusive exclusive : Keyword}
    (hinclusive : s.filled? inclusive = t.filled? inclusive)
    (hexclusive : s.filled? exclusive = t.filled? exclusive) :
    s.bound? inclusive exclusive = t.bound? inclusive exclusive := by
  rw [bound?, bound?, number?_congr hinclusive]
  rcases value?_eq_or_empty hexclusive with heq | ⟨hs | hs, ht | ht⟩
  · rw [heq]
  all_goals rw [hs, ht]

/-- **The phrase of a group depends on the keywords of the group**, and on what they
are filled with. -/
theorem groupPhrase?_congr (h : ∀ k ∈ g.keywords, s.filled? k = t.filled? k) :
    s.groupPhrase? g = t.groupPhrase? g := by
  have hcount {unit : CountUnit} {low high : Keyword} (hlow : low ∈ g.keywords)
      (hhigh : high ∈ g.keywords) : s.countPhrase? unit low high = t.countPhrase? unit low high := by
    rw [countPhrase?, countPhrase?, integer?_congr (h _ hlow), integer?_congr (h _ hhigh)]
  cases g with
  | range =>
    rw [groupPhrase?, groupPhrase?, rangePhrase?, rangePhrase?,
      bound?_congr (h _ (by decide)) (h _ (by decide)),
      bound?_congr (h _ (by decide)) (h _ (by decide))]
  | step =>
    rw [groupPhrase?, groupPhrase?, stepPhrase?, stepPhrase?, number?_congr (h _ (by decide))]
  | characters => exact hcount (by decide) (by decide)
  | items =>
    have hunit : s.itemUnit = t.itemUnit := by
      rw [itemUnit, itemUnit, affirms_congr (h _ (by decide))]
    rw [groupPhrase?, groupPhrase?, hunit]
    exact hcount (by decide) (by decide)
  | properties => exact hcount (by decide) (by decide)

/-- A group none of whose keywords is filled has no phrase. -/
theorem groupPhrase?_eq_none (h : ∀ k ∈ g.keywords, s.filled? k = none) :
    s.groupPhrase? g = none := by
  have hempty : s.groupPhrase? g = Schema.empty.groupPhrase? g := groupPhrase?_congr h
  rw [hempty]
  cases g <;> rfl

/-! ## Parts -/

/-- The part of an object that belongs to a group is read when the object is. -/
theorem exists_read_restrict (h : read members = .ok s) (g : ConstraintGroup) :
    ∃ t, read (g.restrict members) = .ok t := by
  refine exists_read_of_forall fun k j hj => ?_
  rw [g.lookup_restrict] at hj
  split at hj
  · obtain ⟨v, hv, -⟩ := value?_of_lookup_eq_some h hj
    exact ⟨v, hv⟩
  · cases hj

/-- In the part, the keywords of the group are filled as in the whole, and no others
are. -/
theorem filled?_of_read_restrict (h : read members = .ok s)
    (ht : read (g.restrict members) = .ok t) (k : Keyword) :
    t.filled? k = if k ∈ g.keywords then s.filled? k else none := by
  rw [filled?_of_read ht, filled?_of_read h, g.lookup_restrict]
  split <;> rfl

/-- **The part has the phrase of its group, and no other.** -/
theorem phrases_of_read_restrict (h : read members = .ok s)
    (ht : read (g.restrict members) = .ok t) : t.phrases = (s.groupPhrase? g).toList := by
  have hown : t.groupPhrase? g = s.groupPhrase? g := by
    refine groupPhrase?_congr fun k hk => ?_
    rw [filled?_of_read_restrict h ht, if_pos hk]
  have hother : ∀ g', g' ≠ g → t.groupPhrase? g' = none := by
    refine fun g' hne => groupPhrase?_eq_none fun k hk => ?_
    have hnot : k ∉ g.keywords := fun hk' => hne (ConstraintGroup.eq_of_mem_keywords hk hk')
    rw [filled?_of_read_restrict h ht, if_neg hnot]
  have hphrase : t.groupPhrase? = fun g' => if g' = g then s.groupPhrase? g else none := by
    funext g'
    split
    next heq => rw [heq, hown]
    next hne => exact hother g' hne
  rw [phrases_eq, hphrase]
  cases g <;> cases s.groupPhrase? _ <;> rfl

end Schema

/-! ## Texts -/

/-- No text of a phrase is empty. -/
theorem Phrase.text_ne_empty (p : Phrase) : p.text ≠ "" := by
  intro h
  have hdemand := Demand.ofText?_text p
  have hnone : Demand.ofText? "" = none := by decide +kernel
  rw [h, hnone] at hdemand
  cases hdemand

namespace Schema

variable {s t : Schema} {g : ConstraintGroup} {members : List (String × Json)} {v : Value}

/-- The texts of a group. -/
def groupTexts (s : Schema) (g : ConstraintGroup) : List String :=
  (s.groupPhrase? g).toList.map Phrase.text

/-- The texts of a schema are those of its groups, in order. -/
theorem constraintTexts_eq_flatMap (s : Schema) :
    (Value.schema s).constraintTexts = ConstraintGroup.all.flatMap s.groupTexts := by
  rw [Value.constraintTexts, phrases_eq, List.filterMap_eq_flatMap_toList, List.map_flatMap]
  rfl

/-- Parts for the same group have the same phrases when the objects have the same
members for the keywords of the group. -/
theorem phrases_eq_of_lookup_eq {members' : List (String × Json)} {t' : Schema}
    (ht : read (g.restrict members) = .ok t) (ht' : read (g.restrict members') = .ok t')
    (h : ∀ k ∈ g.keywords, members'.lookup k.name = members.lookup k.name) :
    t'.phrases = t.phrases := by
  rw [phrases_eq, phrases_eq]
  refine List.filterMap_congr fun g' _ => groupPhrase?_congr fun k _ => ?_
  rw [filled?_of_read ht', filled?_of_read ht, g.lookup_restrict, g.lookup_restrict]
  split
  next hk => rw [h k hk]
  next => rfl

/-- The texts of an object are put together from those of its parts, of which each
group has one. -/
structure PutTogether (members : List (String × Json)) (texts : List String)
    (part : ConstraintGroup → Value) : Prop where
  /-- A part is read from the members that belong to its group. -/
  read : ∀ g : ConstraintGroup, readNode (.obj (g.restrict members)) = .ok (part g)
  /-- The texts of the parts stand one after another, in the order of the groups. -/
  joined : texts = ConstraintGroup.all.flatMap fun g => (part g).constraintTexts
  /-- A part has one text at the most. -/
  atMostOne : ∀ g, (part g).constraintTexts.length ≤ 1
  /-- No text is empty. -/
  filled : "" ∉ texts

/-- **The groups are independent and ordered.** When an object is read, so is the part
of it that belongs to a group, and its texts are those of the parts, in order and one
for each at the most. What a part says depends on the members for the keywords of its
group only, wherever they stand and whatever the other members are. -/
theorem constraintTexts_grouped (h : readNode (.obj members) = .ok v) :
    ∃ part, PutTogether members v.constraintTexts part ∧
      ∀ members' texts' part', PutTogether members' texts' part' → ∀ g : ConstraintGroup,
        (∀ k ∈ g.keywords, members'.lookup k.name = members.lookup k.name) →
        (part' g).constraintTexts = (part g).constraintTexts := by
  obtain ⟨s, hs, rfl⟩ := readNode_obj_eq_ok_iff.1 h
  choose part hpart using exists_read_restrict hs
  have htexts : ∀ g, (Value.schema (part g)).constraintTexts = s.groupTexts g := fun g =>
    congrArg (List.map Phrase.text) (phrases_of_read_restrict hs (hpart g))
  refine ⟨fun g => .schema (part g), ⟨fun g => ?_, ?_, fun g => ?_, ?_⟩, ?_⟩
  · exact readNode_obj_eq_ok_iff.2 ⟨_, hpart g, rfl⟩
  · rw [constraintTexts_eq_flatMap]
    exact List.flatMap_congr fun g _ => (htexts g).symm
  · rw [htexts, groupTexts, List.length_map]
    cases s.groupPhrase? g <;> simp
  · intro hmem
    obtain ⟨p, -, hp⟩ := List.mem_map.1 hmem
    exact p.text_ne_empty hp
  · intro members' texts' part' hpart' g hlookup
    obtain ⟨t', ht', heq⟩ := readNode_obj_eq_ok_iff.1 (hpart'.read g)
    rw [heq]
    exact congrArg (List.map Phrase.text) (phrases_eq_of_lookup_eq (hpart g) ht' hlookup)

/-- Members out of order, with a strict bound, a count in a text, an empty step and an
identifier in the place of a keyword. -/
def strayMembers : List (String × Json) :=
  [("x-note", .null), ("maxItems", .str "3"), ("min_length", .num (.int 3)),
    ("exclusiveMinimum", .bool true), ("uniqueItems", .str "yes"), ("minimum", .num (.int 2)),
    ("multipleOf", .null), ("type", .str "array")]

theorem constraintTexts_grouped_strayMembers :
    ∃ v part, readNode (.obj strayMembers) = .ok v ∧
      v.constraintTexts = ["> 2", "<= 3 unique items"] ∧
      PutTogether strayMembers v.constraintTexts part ∧
      (part .range).constraintTexts = ["> 2"] ∧
      (part .characters).constraintTexts = [] ∧
      (part .items).constraintTexts = ["<= 3 unique items"] := by
  have hwhole : (readNode (.obj strayMembers)).toOption.map Value.constraintTexts =
      some ["> 2", "<= 3 unique items"] := by decide +kernel
  have hparts : [ConstraintGroup.range, .characters, .items].map (fun g =>
      (readNode (.obj (g.restrict strayMembers))).toOption.map Value.constraintTexts) =
        [some ["> 2"], some [], some ["<= 3 unique items"]] := by decide +kernel
  cases hv : readNode (.obj strayMembers) with
  | error e =>
    rw [hv] at hwhole
    cases hwhole
  | ok v =>
    obtain ⟨part, hpart, -⟩ := constraintTexts_grouped hv
    simp only [List.map_cons, List.map_nil, hpart.read, Except.toOption, Option.map_some,
      List.cons.injEq, Option.some.injEq, and_true] at hparts
    rw [hv] at hwhole
    exact ⟨v, part, rfl, Option.some.inj hwhole, hpart, hparts⟩

end Schema

end SchemaProse
