import SchemaProse.Constraint.Description
import SchemaProse.Proofs.Signature.Outline
/-!
# Schema — agreement on the constraining keywords

What a description says of a schema depends on its constraining keywords only,
and on little of what stands under them: two values are *alike* when nothing
that is asked of a keyword's value tells them apart. Schemas *agree* when they
carry alike values under the constraining keywords. Schemas that agree have the
same signature, describe the same types and are described by the same phrases.
-/

namespace SchemaProse

/-- Two values that are the same under a constraining keyword. -/
inductive Value.Alike : Value → Value → Prop
  /-- The same data. -/
  | data (j : Json) : Alike (.data j) (.data j)
  /-- Lists of entries with the same signatures. -/
  | list {vs ws : List Value} : vs.map signature = ws.map signature → Alike (.list vs) (.list ws)
  /-- Named entries, of which only the presence matters. -/
  | map {ms ns : List (String × Value)} : Alike (.map ms) (.map ns)
  /-- Schemas with the same signature, both of them any or both not. -/
  | schema {s t : Schema} : s.signature = t.signature → s.isAny = t.isAny →
      Alike (.schema s) (.schema t)

namespace Value.Alike

variable {v w : Value}

theorem refl (v : Value) : v.Alike v := by
  cases v with
  | data j => exact .data j
  | list vs => exact .list rfl
  | map ms => exact .map
  | schema s => exact .schema rfl rfl

theorem texts?_eq (h : v.Alike w) : v.texts? = w.texts? := by
  cases h <;> rfl

theorem number?_eq (h : v.Alike w) : v.number? = w.number? := by
  cases h <;> rfl

theorem integer?_eq (h : v.Alike w) : v.integer? = w.integer? := by
  cases h <;> rfl

theorem dataItems_eq (h : v.Alike w) : v.dataItems = w.dataItems := by
  cases h <;> rfl

theorem isTrue_eq (h : v.Alike w) : v.isTrue = w.isTrue := by
  cases h <;> rfl

theorem isFalse_eq (h : v.Alike w) : v.isFalse = w.isFalse := by
  cases h <;> rfl

theorem isAny_eq (h : v.Alike w) : v.isAny = w.isAny := by
  cases h with
  | schema _ hany => exact hany
  | _ => rfl

theorem kind_eq (h : v.Alike w) : v.toJson.kind = w.toJson.kind := by
  cases h with
  | schema => rw [toJson, toJson, Schema.toJson_eq_written, Schema.toJson_eq_written]; rfl
  | _ => rfl

theorem signature_eq (h : v.Alike w) : v.signature = w.signature := by
  cases h with
  | schema hsignature _ => rw [signature, signature, hsignature]
  | _ => rfl

theorem outline?_eq (h : v.Alike w) : v.outline? = w.outline? := by
  cases h with
  | list hsignatures => rw [outline?, outline?, hsignatures]
  | schema hsignature hany =>
    have heq := (Alike.schema hsignature hany).signature_eq
    exact congrArg (fun sig => some (Outline.one sig)) heq
  | _ => rfl

end Value.Alike

/-! ## What a signature depends on -/

namespace Schema

section Congruence

variable {s t : Schema}

/-- Whether a schema is any depends on the constraining keywords carried. -/
theorem isAny_congr (h : ∀ k ∈ Keyword.constraining, s.carries k = t.carries k) :
    s.isAny = t.isAny := by
  rw [Bool.eq_iff_iff, isAny, isAny, Bool.not_eq_true', Bool.not_eq_true', List.any_eq_false,
    List.any_eq_false]
  exact forall₂_congr fun k hk => by rw [h k hk]

/-- And so does its combinator. -/
theorem combinator?_congr (h : ∀ k ∈ Keyword.constraining, s.carries k = t.carries k) :
    s.combinator? = t.combinator? := by
  have hcarries : ∀ c : Combinator, s.carries c.keyword = t.carries c.keyword := by
    intro c
    exact h _ (by cases c <;> decide)
  rw [combinator?, combinator?]
  simp only [hcarries]

/-- **What the signature of a schema is made of**: the constraining keywords
carried, whether a node is negated that is any, the outlines of the items and of
those that follow, whether none may follow, and the members of the union. -/
theorem signature_congr (hcarries : ∀ k ∈ Keyword.constraining, s.carries k = t.carries k)
    (hnegation : (s.value? .negation).any Value.isAny = (t.value? .negation).any Value.isAny)
    (houtline : ∀ k ∈ [Keyword.items, .additionalItems],
      (outlines s.declared).lookup k = (outlines t.declared).lookup k)
    (hlast : (s.value? .additionalItems).any Value.isFalse =
      (t.value? .additionalItems).any Value.isFalse)
    (hunion : ∀ array, s.unionMembers array = t.unionMembers array) :
    s.signature = t.signature := by
  have hitems := houtline .items (by decide)
  have hfollowing := houtline .additionalItems (by decide)
  have htail : s.tail? (outlines s.declared) = t.tail? (outlines t.declared) := by
    rw [tail?, tail?, hlast, hfollowing]
  have harray : s.arrayMember (outlines s.declared) = t.arrayMember (outlines t.declared) := by
    rw [arrayMember, arrayMember, hitems, htail]
  rw [Schema.signature_eq, Schema.signature_eq, signatureFrom, signatureFrom,
    isAny_congr hcarries, hnegation, harray, hunion, combinator?_congr hcarries]

end Congruence

/-! ## Agreement -/

/-- Two schemas carry alike values under the constraining keywords, and declare
no keyword twice. -/
structure Agree (s t : Schema) : Prop where
  /-- The first schema declares no keyword twice. -/
  nodup_left : (s.declared.map Prod.fst).Nodup
  /-- Nor does the second one. -/
  nodup_right : (t.declared.map Prod.fst).Nodup
  /-- Under a constraining keyword both have alike values, or neither has one. -/
  alike : ∀ k ∈ Keyword.constraining, Option.Rel Value.Alike (s.value? k) (t.value? k)

namespace Agree

variable {s t : Schema} {k : Keyword} {α : Type}

/-- What tells no alike values apart tells the two schemas not apart. -/
theorem eq_of_alike (h : s.Agree t) (hk : k ∈ Keyword.constraining) {f : Option Value → α}
    (hf : ∀ v w, v.Alike w → f (some v) = f (some w)) : f (s.value? k) = f (t.value? k) := by
  rcases eq_none_or_exists_of_rel (h.alike k hk) with ⟨hs, ht⟩ | ⟨v, w, hs, ht, hvw⟩
  · rw [hs, ht]
  · rw [hs, ht, hf v w hvw]

theorem map_eq (h : s.Agree t) (hk : k ∈ Keyword.constraining) {f : Value → α}
    (hf : ∀ v w, v.Alike w → f v = f w) : (s.value? k).map f = (t.value? k).map f :=
  h.eq_of_alike hk (f := Option.map f) fun v w hvw => congrArg some (hf v w hvw)

theorem bind_eq (h : s.Agree t) (hk : k ∈ Keyword.constraining) {f : Value → Option α}
    (hf : ∀ v w, v.Alike w → f v = f w) : (s.value? k).bind f = (t.value? k).bind f :=
  h.eq_of_alike hk (f := (Option.bind · f)) hf

theorem any_eq (h : s.Agree t) (hk : k ∈ Keyword.constraining) {f : Value → Bool}
    (hf : ∀ v w, v.Alike w → f v = f w) : (s.value? k).any f = (t.value? k).any f :=
  h.eq_of_alike hk (f := Option.any f) hf

theorem carries_eq (h : s.Agree t) (hk : k ∈ Keyword.constraining) : s.carries k = t.carries k :=
  h.eq_of_alike hk (f := Option.isSome) fun _ _ _ => rfl

/-! ## Which keywords are carried -/

theorem isAny_eq (h : s.Agree t) : s.isAny = t.isAny :=
  isAny_congr fun _ => h.carries_eq

theorem combinator?_eq (h : s.Agree t) : s.combinator? = t.combinator? :=
  combinator?_congr fun _ => h.carries_eq

theorem impliedTypes_eq (h : s.Agree t) : s.impliedTypes = t.impliedTypes := by
  have hcarries : ∀ p ∈ Keyword.implied, s.carries p.1 = t.carries p.1 := by
    intro p hp
    refine h.carries_eq ?_
    rw [Keyword.constraining, List.mem_append]
    exact .inr (List.mem_map_of_mem hp)
  rw [impliedTypes, impliedTypes, List.filter_congr hcarries]

/-! ## Types -/

theorem declaredTypes?_eq (h : s.Agree t) : s.declaredTypes? = t.declaredTypes? := by
  rw [declaredTypes?, declaredTypes?, typeNames?, typeNames?,
    h.bind_eq (by decide) fun _ _ => Value.Alike.texts?_eq]

theorem enumItems_eq (h : s.Agree t) : s.enumItems = t.enumItems := by
  rw [enumItems, enumItems, h.map_eq (by decide) fun _ _ => Value.Alike.dataItems_eq]

theorem possibleTypes_eq (h : s.Agree t) : s.possibleTypes = t.possibleTypes := by
  rw [possibleTypes, possibleTypes, h.declaredTypes?_eq, h.enumItems_eq, h.impliedTypes_eq]
  have hconst : Keyword.const ∈ Keyword.constraining := by decide
  rcases eq_none_or_exists_of_rel (h.alike _ hconst) with ⟨hs, ht⟩ | ⟨v, w, hs, ht, hvw⟩
  · rw [hs, ht]
  · rw [hs, ht]
    dsimp only
    rw [hvw.kind_eq]

theorem unionMembers_eq (h : s.Agree t) (array : Member) :
    s.unionMembers array = t.unionMembers array := by
  rw [unionMembers, unionMembers, h.declaredTypes?_eq, h.enumItems_eq]
  have hconst : Keyword.const ∈ Keyword.constraining := by decide
  rcases eq_none_or_exists_of_rel (h.alike _ hconst) with ⟨hs, ht⟩ | ⟨v, w, hs, ht, hvw⟩
  · rw [hs, ht]
  · have hname : constantName v.toJson = constantName w.toJson := by
      rw [constantName, constantName, hvw.kind_eq]
    rw [hs, ht]
    dsimp only
    rw [hname]

theorem lookup_outlines_eq (h : s.Agree t) (hk : k ∈ Keyword.constraining) :
    (outlines s.declared).lookup k = (outlines t.declared).lookup k := by
  rw [lookup_outlines h.nodup_left, lookup_outlines h.nodup_right,
    h.bind_eq hk fun _ _ => Value.Alike.outline?_eq]

/-- **Schemas that agree have the same signature.** -/
theorem signature_eq (h : s.Agree t) : s.signature = t.signature := by
  have hconstraining : ∀ k ∈ [Keyword.items, .additionalItems], k ∈ Keyword.constraining := by
    decide
  exact signature_congr (fun _ => h.carries_eq)
    (h.any_eq (by decide) fun _ _ => Value.Alike.isAny_eq)
    (fun k hk => h.lookup_outlines_eq (hconstraining k hk))
    (h.any_eq (by decide) fun _ _ => Value.Alike.isFalse_eq) h.unionMembers_eq

/-! ## Constraints -/

theorem number?_eq (h : s.Agree t) (hk : k ∈ Keyword.constraining) : s.number? k = t.number? k :=
  h.bind_eq hk fun _ _ => Value.Alike.number?_eq

theorem integer?_eq (h : s.Agree t) (hk : k ∈ Keyword.constraining) :
    s.integer? k = t.integer? k :=
  h.bind_eq hk fun _ _ => Value.Alike.integer?_eq

theorem bound?_eq (h : s.Agree t) {inclusive exclusive : Keyword}
    (hinclusive : inclusive ∈ Keyword.constraining)
    (hexclusive : exclusive ∈ Keyword.constraining) :
    s.bound? inclusive exclusive = t.bound? inclusive exclusive := by
  rw [bound?, bound?, h.number?_eq hinclusive]
  rcases eq_none_or_exists_of_rel (h.alike _ hexclusive) with ⟨hs, ht⟩ | ⟨v, w, hs, ht, hvw⟩
  · rw [hs, ht]
  · rw [hs, ht]
    cases hvw <;> rfl

/-- **Schemas that agree are described by the same phrases.** -/
theorem phrases_eq (h : s.Agree t) : s.phrases = t.phrases := by
  have hcount : ∀ unit low high, low ∈ Keyword.constraining → high ∈ Keyword.constraining →
      s.countPhrase? unit low high = t.countPhrase? unit low high := by
    intro unit low high hlow hhigh
    rw [countPhrase?, countPhrase?, h.integer?_eq hlow, h.integer?_eq hhigh]
  have hunit : s.itemUnit = t.itemUnit := by
    rw [itemUnit, itemUnit, affirms, affirms, h.any_eq (by decide) fun _ _ => Value.Alike.isTrue_eq]
  have hrange : s.rangePhrase? = t.rangePhrase? := by
    rw [rangePhrase?, rangePhrase?, h.bound?_eq (by decide) (by decide),
      h.bound?_eq (by decide) (by decide)]
  have hstep : s.stepPhrase? = t.stepPhrase? := by
    rw [stepPhrase?, stepPhrase?, h.number?_eq (by decide)]
  rw [phrases, phrases, hrange, hstep, hunit, hcount _ _ _ (by decide) (by decide),
    hcount _ _ _ (by decide) (by decide), hcount _ _ _ (by decide) (by decide)]

/-- Schemas that agree are alike as values. -/
theorem alike_schema (h : s.Agree t) : (Value.schema s).Alike (.schema t) :=
  .schema h.signature_eq h.isAny_eq

end Agree

end Schema

end SchemaProse
