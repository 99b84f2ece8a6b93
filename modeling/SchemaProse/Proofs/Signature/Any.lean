import SchemaProse.Constraint.Description
import SchemaProse.Proofs.Signature.Flat
import SchemaProse.Proofs.Synthesis.Reachable
/-!
# Signature — a schema about which there is nothing to say

The descriptions of a schema look at different keywords: its signature, its type
names, the texts of its constraints, its combinator, its dependencies and whether
there is something to show below it. Each keyword that one of them looks at is a
constraining one, so a schema that is any has no description but its extensions
(`SaysNothing`). The other way round, a schema with a description is not any, and
its signature has the text `ANY` in one case only: when that is the one type name
that it declares itself (`typeText_eq_any_iff`).
-/

namespace SchemaProse

/-! ## Signatures with the text `ANY` -/

theorem Member.text_eq_any_iff {m : Member} : m.text = "ANY" ↔ m = .named "ANY" := by
  cases m with
  | named name => simp [text]
  | array element => simp [text, ← String.toList_inj]
  | tuple first others tail => simp [text, ← String.toList_inj]

namespace Signature

/-- A union with several members has a blank in its text. -/
theorem intercalate_texts_eq_any_iff {ms : List Member} :
    " | ".intercalate (Member.texts ms) = "ANY" ↔ ms = [.named "ANY"] := by
  rw [Member.texts_eq_map]
  match ms with
  | [] => simp
  | [m] => simp [Member.text_eq_any_iff]
  | m :: m' :: ms =>
    refine iff_of_false (fun h => ?_) (by simp)
    have hblank : ' ' ∈ "ANY".toList := by
      rw [← h, List.map_cons, toList_intercalate_cons]
      simp
    exact absurd hblank (by decide)

/-- The name of a combinator ends the text. -/
theorem withCombinator_eq_any_iff {base : String} {c : Option Combinator} :
    withCombinator base c = "ANY" ↔ base = "ANY" ∧ c = none := by
  cases c with
  | none => simp [withCombinator]
  | some c =>
    refine iff_of_false (fun h => ?_) (by simp)
    rw [withCombinator] at h
    split at h
    · revert h
      cases c <;> decide
    · have hblank : ' ' ∈ "ANY".toList := by simp [← h]
      exact absurd hblank (by decide)

/-- **The text `ANY` is that of the signature `ANY`, or of a type of this name.** -/
theorem text_eq_any_iff {sig : Signature} :
    sig.text = "ANY" ↔ sig = .any ∨ sig = .union [.named "ANY"] none := by
  cases sig with
  | any => simp [text]
  | never => simp [text]
  | unknown => simp [text]
  | union ms c => simp [text, withCombinator_eq_any_iff, intercalate_texts_eq_any_iff]

end Signature

namespace Schema

variable {s : Schema}

/-! ## Schemas that are shown as `ANY` -/

/-- `ANY` is the one type name that the schema declares, with no combinator and
no negation of what is any. -/
structure NamesAny (s : Schema) : Prop where
  declared : s.declaredTypes? = some ["ANY"]
  combinator : s.combinator? = none
  negation : (s.value? .negation).any Value.isAny = false

theorem arrayMember_ne_named (s : Schema) (outlines : List (Keyword × Outline)) (name : String) :
    s.arrayMember outlines ≠ .named name := by
  unfold arrayMember
  split
  · exact nofun
  · exact nofun
  · unfold Signature.tupleMember
    split <;> exact nofun

/-- A union is a type name `ANY` only when this is what is declared: the types of
constants and of allowed values have other names. -/
theorem unionMembers_eq_any_iff {array : Member} (harray : ∀ name, array ≠ .named name) :
    s.unionMembers array = [.named "ANY"] ↔ s.declaredTypes? = some ["ANY"] := by
  have hkind : ∀ j : Json, j.kind.name ≠ "ANY" := fun j => by cases j.kind <;> decide
  unfold unionMembers
  cases hdeclared : s.declaredTypes? with
  | some names =>
    rw [Option.some.injEq, List.map_eq_singleton_iff]
    constructor
    · rintro ⟨name, rfl, hname⟩
      split at hname
      next => exact absurd hname (harray _)
      next => rw [Member.named.inj hname]
    · rintro rfl
      exact ⟨"ANY", rfl, if_neg (by decide)⟩
  | none =>
    refine iff_of_false (fun h => ?_) (by simp)
    dsimp only at h
    split at h
    next v hv =>
      have hconstant : constantName v.toJson ≠ "ANY" := by
        unfold constantName
        split <;> decide
      exact hconstant (Member.named.inj (List.singleton_inj.1 h))
    next =>
      obtain ⟨name, hnames, hname⟩ := List.map_eq_singleton_iff.1 h
      have hmem : name ∈ kindNames s.enumItems := hnames ▸ List.mem_singleton_self name
      obtain ⟨j, -, hj⟩ := List.mem_map.1 (List.mem_eraseDups.1 hmem)
      exact hkind j (hj.trans (Member.named.inj hname))

/-- **A schema is shown as `ANY` when it is any, and otherwise only when it
declares a type of this name.** -/
theorem typeText_eq_any_iff :
    (Value.schema s).typeText = "ANY" ↔ s.isAny = true ∨ s.NamesAny := by
  have hunion : s.unionMembers (s.arrayMember (outlines s.declared)) = [.named "ANY"] ↔
      s.declaredTypes? = some ["ANY"] :=
    unionMembers_eq_any_iff (s.arrayMember_ne_named (outlines s.declared))
  rw [Value.typeText, Value.signature, Signature.text_eq_any_iff, signature_eq, signatureFrom]
  by_cases hany : s.isAny = true
  · simp [hany]
  · rw [if_neg hany]
    cases hnegation : (s.value? .negation).any Value.isAny with
    | true =>
      have hnames : ¬ s.NamesAny := fun h => by simp [h.negation] at hnegation
      simp [hany, hnames]
    | false =>
      have hnames : s.NamesAny ↔ s.declaredTypes? = some ["ANY"] ∧ s.combinator? = none :=
        ⟨fun h => ⟨h.declared, h.combinator⟩, fun h => ⟨h.1, h.2, hnegation⟩⟩
      simp [hany, hnames, hunion]

/-! ## Schemas without a description -/

/-- There is nothing to say about the schema, in any of its descriptions; what
there may be to show below it are its extensions. -/
structure SaysNothing (s : Schema) : Prop where
  /-- It is shown as `ANY`. -/
  typeText_eq : (Value.schema s).typeText = "ANY"
  /-- No type is told apart. -/
  possibleTypes_eq : s.possibleTypes = []
  /-- No constraint is put into words. -/
  constraintTexts_eq : (Value.schema s).constraintTexts = []
  /-- No schemas are combined. -/
  combinator?_eq : s.combinator? = none
  /-- No dependency asks for more of the object. -/
  dependentSchema?_eq : (Value.schema s).dependentSchema? = none
  /-- None makes a property required. -/
  requiredBy?_eq : ∀ property, (Value.schema s).requiredBy? property = none
  /-- Below it there is something to show when the default settings show an
  extension. -/
  isExpandable_iff : (Value.schema s).isExpandable = true ↔
    (Value.schema s).visibleExtensions? {} ≠ none

/-- The schema has a description: a type, a constraint or a combinator. -/
def IsDescribed (s : Schema) : Prop :=
  s.possibleTypes ≠ [] ∨ (Value.schema s).constraintTexts ≠ [] ∨ s.combinator? ≠ none

theorem carries_eq_false_of_isAny (h : s.isAny = true) {k : Keyword}
    (hk : k ∈ Keyword.constraining) : s.carries k = false := by
  rw [carries, isAny_iff.1 h k hk, Option.isSome_none]

/-- The type names come from constraining keywords. -/
theorem possibleTypes_eq_nil_of_isAny (h : s.isAny = true) : s.possibleTypes = [] := by
  have habsent := isAny_iff.1 h
  have himplied : s.impliedTypes = [] := by
    have hnone : Keyword.implied.filter (fun p => s.carries p.1) = [] := by
      refine List.filter_eq_nil_iff.2 fun p hp => Bool.not_eq_true _ ▸ ?_
      exact carries_eq_false_of_isAny h (List.mem_append_right _ (List.mem_map_of_mem hp))
    rw [impliedTypes, hnone]
    rfl
  have hitems : s.enumItems = [] := by rw [enumItems, habsent .enum (by decide)]; rfl
  have hdeclared : s.declaredTypes? = none := by
    rw [declaredTypes?, typeNames?, habsent .type (by decide)]
    rfl
  rw [possibleTypes, hdeclared, habsent .const (by decide), hitems, himplied]
  rfl

/-- The phrases of all groups come from constraining keywords. -/
theorem phrases_eq_nil_of_isAny (h : s.isAny = true) : s.phrases = [] := by
  have habsent := isAny_iff.1 h
  have hbound : ∀ {inclusive exclusive : Keyword}, inclusive ∈ Keyword.constraining →
      exclusive ∈ Keyword.constraining → s.bound? inclusive exclusive = none := by
    intro inclusive exclusive hinclusive hexclusive
    rw [bound?, number?, habsent inclusive hinclusive, habsent exclusive hexclusive]
    rfl
  have hcount : ∀ {unit : CountUnit} {low high : Keyword}, low ∈ Keyword.constraining →
      high ∈ Keyword.constraining → s.countPhrase? unit low high = none := by
    intro unit low high hlow hhigh
    rw [countPhrase?, integer?, integer?, habsent low hlow, habsent high hhigh]
    rfl
  have hstep : s.stepPhrase? = none := by
    rw [stepPhrase?, number?, habsent .multipleOf (by decide)]
    rfl
  have hrange : s.rangePhrase? = none := by
    rw [rangePhrase?, hbound (by decide) (by decide), hbound (by decide) (by decide)]
    rfl
  rw [phrases, hrange, hstep, hcount (by decide) (by decide), hcount (by decide) (by decide),
    hcount (by decide) (by decide)]
  rfl

/-- A keyword whose schemas are shown below the node is constraining. -/
theorem mem_constraining_of_mem_expanding {k : Keyword} (h : k ∈ Keyword.expanding) :
    k ∈ Keyword.constraining := by
  have hall : ∀ k ∈ Keyword.expanding, k ∈ Keyword.constraining := by decide
  exact hall k h

theorem combinator?_eq_none_of_isAny (h : s.isAny = true) : s.combinator? = none :=
  combinator?_eq_none fun _ hk => carries_eq_false_of_isAny h (mem_constraining_of_mem_expanding hk)

/-- **There is nothing to say about a schema that is any.** -/
theorem saysNothing_of_isAny (h : s.isAny = true) : s.SaysNothing := by
  have htypes := possibleTypes_eq_nil_of_isAny h
  have hdependencies : s.dependencies = [] := by
    rw [dependencies, isAny_iff.1 h .dependencies (by decide)]
    rfl
  refine ⟨typeText_eq_any_iff.2 (.inl h), htypes, ?_, combinator?_eq_none_of_isAny h, ?_, ?_, ?_⟩
  · rw [Value.constraintTexts, phrases_eq_nil_of_isAny h]
    rfl
  · rw [Value.dependentSchema?, dependentNodes, hdependencies]
    rfl
  · intro property
    rw [Value.requiredBy?, requiredBy, hdependencies]
    rfl
  · have hcontainer : s.maybeContainer = false := by
      rw [maybeContainer, htypes]
      rfl
    have hexpanding : Keyword.expanding.any s.carries = false := by
      rw [List.any_eq_false]
      intro k hk
      rw [carries_eq_false_of_isAny h (mem_constraining_of_mem_expanding hk)]
      exact Bool.false_ne_true
    rw [Value.isExpandable, isExpandable, hcontainer, hexpanding, Value.visibleExtensions?]
    cases s.visibleExtensions {} <;> simp

/-- **A schema that is any has nothing to say in any description, and one with a
description is not any**, and is not shown as `ANY` unless this is the one type
name that it declares itself. -/
theorem any_says_nothing (s : Schema) :
    (s.isAny = true → s.SaysNothing) ∧
      (s.IsDescribed → s.isAny = false ∧ ((Value.schema s).typeText = "ANY" ↔ s.NamesAny)) := by
  refine ⟨saysNothing_of_isAny, fun hdescribed => ?_⟩
  have hany : s.isAny = false := by
    refine Bool.eq_false_iff.2 fun h => ?_
    obtain ⟨-, htypes, htexts, hcombinator, -, -, -⟩ := saysNothing_of_isAny h
    rcases hdescribed with hne | hne | hne
    · exact hne htypes
    · exact hne htexts
    · exact hne hcombinator
  refine ⟨hany, ?_⟩
  rw [typeText_eq_any_iff, hany]
  simp

/-- A title and an extension. -/
def titled : Schema where
  declared := [(.title, .data (.str "t"))]
  extra := [("x-note", .str "n")]

/-- A type named `ANY`, and a length. -/
def namedAny : Schema where
  declared := [(.type, .data (.arr [.str "ANY", .str "ANY"])), (.minLength, .data (.num (.int 1)))]
  extra := []

theorem any_says_nothing_titled :
    titled.isAny = true ∧ titled.SaysNothing ∧ (Value.schema titled).isExpandable = true ∧
      namedAny.IsDescribed ∧ namedAny.isAny = false ∧ namedAny.NamesAny ∧
      (Value.schema namedAny).constraintTexts = ["non-empty"] := by
  have hany : titled.isAny = true := by decide
  have hsays := (any_says_nothing titled).1 hany
  have hdescribed : namedAny.IsDescribed := .inl (by decide +kernel)
  have htext : (Value.schema namedAny).typeText = "ANY" := by decide +kernel
  obtain ⟨hconstrained, hnames⟩ := (any_says_nothing namedAny).2 hdescribed
  exact ⟨hany, hsays, hsays.isExpandable_iff.2 (by decide +kernel), hdescribed, hconstrained,
    hnames.1 htext, by decide +kernel⟩

/-- A schema that is met may have a type and still be shown as `ANY`: the type of
this name. -/
theorem typeText_eq_any_of_named :
    ∃ s : Schema, (Value.schema s).Reachable ∧
      Schema.readNode (.obj [("type", .str "ANY")]) = .ok (.schema s) ∧
      s.possibleTypes = ["ANY"] ∧ s.isAny = false ∧ (Value.schema s).typeText = "ANY" := by
  have hdocument : (Json.obj [("type", .str "ANY")]).DistinctNames :=
    .obj (List.nodup_singleton _) (List.forall_mem_singleton.2 (.str _))
  exact ⟨_, .document hdocument rfl, rfl, by decide +kernel, by decide, by decide +kernel⟩

end Schema

end SchemaProse
