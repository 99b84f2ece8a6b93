import SchemaProse.Proofs.Schema.Agreement
import SchemaProse.Proofs.Schema.Extensions
import SchemaProse.Proofs.Synthesis.Parameters
import SchemaProse.Schema.Expansion
/-!
# Synthesis — a parameter is documented like its own schema

What is put into the schema of a parameter, a description and a place, stands
under keywords that do not constrain, and the marker of the place is hidden
under all settings. So the schema agrees with the parameter's own on every
constraining keyword and shows the same extensions, and whatever a description
tells of the one it tells of the other (`documentedLike_toSchema`). That reaches
the properties of the synthesized schema (`synthesize_documented`).
-/

namespace SchemaProse

namespace Schema

variable {s t u : Schema} {k : Keyword} {v : Value}

/-! ## Schemas that are documented alike -/

/-- A schema is documented like another one: every reader of descriptions says
the same of both. -/
structure DocumentedLike (s t : Schema) : Prop where
  /-- They have the same type. -/
  typeText : (Value.schema s).typeText = (Value.schema t).typeText
  /-- The same constraints are told. -/
  constraintTexts : (Value.schema s).constraintTexts = (Value.schema t).constraintTexts
  /-- They may describe the same types. -/
  possibleTypes : s.possibleTypes = t.possibleTypes
  /-- There is something to show below both or below neither. -/
  isExpandable : (Value.schema s).isExpandable = (Value.schema t).isExpandable
  /-- They have the same extensions to show, whatever the settings are. -/
  visibleExtensions : ∀ settings : Settings,
    (Value.schema s).visibleExtensions? settings = (Value.schema t).visibleExtensions? settings

namespace DocumentedLike

theorem refl (s : Schema) : s.DocumentedLike s :=
  ⟨rfl, rfl, rfl, rfl, fun _ => rfl⟩

theorem trans (h : s.DocumentedLike t) (h' : t.DocumentedLike u) : s.DocumentedLike u where
  typeText := h.typeText.trans h'.typeText
  constraintTexts := h.constraintTexts.trans h'.constraintTexts
  possibleTypes := h.possibleTypes.trans h'.possibleTypes
  isExpandable := h.isExpandable.trans h'.isExpandable
  visibleExtensions settings := (h.visibleExtensions settings).trans (h'.visibleExtensions settings)

end DocumentedLike

/-- **Schemas that agree and have the same other members are documented
alike.** -/
theorem Agree.documentedLike (h : s.Agree t) (hextra : s.extra = t.extra) :
    s.DocumentedLike t := by
  have hvisible (settings : Settings) :
      s.visibleExtensions settings = t.visibleExtensions settings := by
    rw [visibleExtensions_eq, visibleExtensions_eq, hextra]
  have hexpanding : Keyword.expanding.any s.carries = Keyword.expanding.any t.carries := by
    have hconstraining : ∀ k ∈ Keyword.expanding, k ∈ Keyword.constraining := by decide
    rw [Bool.eq_iff_iff, List.any_eq_true, List.any_eq_true]
    exact exists_congr fun k => and_congr_right fun hk => by rw [h.carries_eq (hconstraining k hk)]
  refine ⟨?_, ?_, h.possibleTypes_eq, ?_, fun settings => ?_⟩
  · rw [Value.typeText, Value.typeText, h.alike_schema.signature_eq]
  · rw [Value.constraintTexts, Value.constraintTexts, h.phrases_eq]
  · rw [Value.isExpandable, Value.isExpandable, Schema.isExpandable, Schema.isExpandable,
      maybeContainer, maybeContainer, h.possibleTypes_eq, hexpanding, hvisible]
  · rw [Value.visibleExtensions?, Value.visibleExtensions?, hvisible]

/-- A keyword that does not constrain may be given any value. -/
theorem agree_set (hnodup : (s.declared.map Prod.fst).Nodup) (hk : k ∉ Keyword.constraining) :
    (s.set k v).Agree s where
  nodup_left := by
    have horder : ((s.set k v).declared.map Prod.fst).Sublist Keyword.all :=
      map_fst_filterMap_sublist (fun _ _ => fst_of_setField_eq_some) _
    exact horder.nodup Keyword.nodup_all
  nodup_right := hnodup
  alike k' hk' := by
    have hne : k' ≠ k := by
      rintro rfl
      exact hk hk'
    rw [value?_set, if_neg hne]
    cases s.value? k' with
    | none => exact .none
    | some w => exact .some (.refl w)

end Schema

/-! ## The property of a parameter -/

namespace Parameter

variable {p : Parameter} {s : Schema} {k : Keyword}

/-- A text that is put in under a keyword that does not constrain changes
nothing that is documented. -/
theorem documentedLike_annotate (hnodup : (s.declared.map Prod.fst).Nodup)
    (hk : k ∉ Keyword.constraining) (text : Option String) :
    (annotate s k text).DocumentedLike s ∧
      ((annotate s k text).declared.map Prod.fst).Nodup := by
  cases text with
  | none => exact ⟨.refl s, hnodup⟩
  | some text =>
    have hagree : (s.set k (.data (.str text))).Agree s := Schema.agree_set hnodup hk
    exact ⟨hagree.documentedLike rfl, hagree.nodup_left⟩

/-- **A parameter's property is documented like its schema.** -/
theorem documentedLike_toSchema {j : Json} (h : read j = .ok p) :
    p.toSchema.DocumentedLike (nodeSchema p.schema) := by
  have hnodup := (ownMembers_eq_written h).2.order.nodup Keyword.nodup_all
  obtain ⟨hdescription, hnodup'⟩ :=
    documentedLike_annotate hnodup (k := .description) (by decide) p.description
  obtain ⟨hlocation, -⟩ :=
    documentedLike_annotate hnodup' (k := .parameterLocation) (by decide) p.location
  exact hlocation.trans hdescription

/-- The property under a name. -/
def property? (r : Schema) (name : String) : Option Value :=
  (r.get? "properties").bind fun v => v.members.lookup name

variable {entries : List (String × Given read)} {r : Schema} {name : String} {e : Given read}

/-- Every parameter becomes the property of its name. -/
theorem exists_property_of_synthesize (h : synthesize (some entries) = .ok (some r))
    (he : entries.lookup name = some e) :
    ∃ p, e.read = .ok p ∧ property? r name = some (.schema p.toSchema) := by
  rw [synthesize, Option.getD_some] at h
  cases hread : readEach Given.read entries with
  | error refusal =>
    rw [hread] at h
    cases h
  | ok ps =>
    rw [hread] at h
    have hr : schemaOf? ps = some r := Except.ok.inj h
    obtain ⟨p, hp, hep⟩ := exists_lookup_of_forall₂ (R := fun e p => e.read = .ok p)
      (readEach_eq_ok_iff.1 hread) he
    have hne : ps ≠ [] := by
      rintro rfl
      cases hr
    rw [schemaOf?_of_ne_nil hne] at hr
    obtain rfl := Option.some.inj hr
    have hlookup := lookup_map_value (fun _ (p : Parameter) => Value.schema p.toSchema) ps name
    rw [hp] at hlookup
    exact ⟨p, hep, hlookup⟩

/-- **A parameter is documented like its own schema.** -/
theorem synthesize_documented (h : synthesize (some entries) = .ok (some r))
    (he : entries.lookup name = some e) :
    ∃ p t, e.read = .ok p ∧ property? r name = some (.schema t) ∧
      (∀ s, p.schema = some (.schema s) → t.DocumentedLike s) ∧
      (p.schema = none ∨ p.schema = some (.bool true) → (Value.schema t).typeText = "ANY") ∧
      (p.schema = some (.bool false) → (Value.schema t).typeText = "NEVER") := by
  obtain ⟨p, hp, hproperty⟩ := exists_property_of_synthesize h he
  obtain ⟨j, hj⟩ := Given.exists_document hp
  have hlike := documentedLike_toSchema hj
  refine ⟨p, p.toSchema, hp, hproperty, fun s hs => ?_, fun hany => ?_, fun hfalse => ?_⟩
  · rwa [hs] at hlike
  · rw [hlike.typeText]
    rcases hany with hnone | htrue
    · rw [hnone]
      rfl
    · rw [htrue]
      rfl
  · rw [hlike.typeText, hfalse]
    rfl

theorem synthesize_documented_threeParameters :
    ∃ r t u v s : Schema, synthesize (some threeParameters) = .ok (some r) ∧
      property? r "user" = some (.schema t) ∧ t.DocumentedLike s ∧
      (Value.schema s).constraintTexts = [">= 3 characters"] ∧
      (Value.schema s).visibleExtensions? {} = some [("x-a", .null)] ∧
      property? r "nobody" = some (.schema u) ∧ (Value.schema u).typeText = "NEVER" ∧
      property? r "anybody" = some (.schema v) ∧ (Value.schema v).typeText = "ANY" := by
  obtain ⟨r, hr⟩ : ∃ r, synthesize (some threeParameters) = .ok (some r) := ⟨_, rfl⟩
  have huser : threeParameters.lookup "user" = some _ := rfl
  have hnobody : threeParameters.lookup "nobody" = some _ := rfl
  have hanybody : threeParameters.lookup "anybody" = some _ := rfl
  obtain ⟨p, t, hp, ht, hlike, -, -⟩ := synthesize_documented hr huser
  obtain ⟨q, u, hq, hu, -, -, hnever⟩ := synthesize_documented hr hnobody
  obtain ⟨o, v, ho, hv, -, hany, -⟩ := synthesize_documented hr hanybody
  obtain rfl := Except.ok.inj hp
  obtain rfl := Except.ok.inj hq
  obtain rfl := Except.ok.inj ho
  exact ⟨r, t, u, v, _, hr, ht, hlike _ rfl, by decide +kernel, rfl, hu, hnever rfl,
    hv, hany (.inr rfl)⟩

end Parameter

end SchemaProse
