import SchemaProse.Proofs.Schema.Written
import SchemaProse.Proofs.Text.Delimited
import SchemaProse.Signature.Inference
/-!
# Signature — outlines and blank signatures

What a schema's signature takes from its other keywords is their *outline*:
the signature of a node, or those of the entries of a list. An outline is
looked up by its keyword (`lookup_outlines`). A signature is blank exactly when
it has no text (`isBlank_iff_text_eq`), so an element always has one.
-/

namespace SchemaProse

/-! ## Texts with separators -/

/-- The first of some texts stands alone, each of the others behind a
separator. -/
theorem toList_intercalate_cons (sep t : String) (ts : List String) :
    (sep.intercalate (t :: ts)).toList =
      t.toList ++ ts.flatMap fun u => sep.toList ++ u.toList := by
  rw [String.toList_intercalate, List.map_cons, intercalate_cons, List.flatMap_map]

namespace Signature

theorem texts_eq_map (ss : List Signature) : texts ss = ss.map text := by
  induction ss with
  | nil => rfl
  | cons s ss ih => rw [texts, ih, List.map_cons]

end Signature

theorem Member.texts_eq_map (ms : List Member) : texts ms = ms.map text := by
  induction ms with
  | nil => rfl
  | cons m ms ih => rw [texts, ih, List.map_cons]

/-! ## Blank signatures -/

/-- A member has no text only when it is a type without a name. -/
theorem Member.text_eq_empty_iff {m : Member} : m.text = "" ↔ m = .named "" := by
  cases m with
  | named name => simp [text]
  | array element => simp [text, ← String.toList_eq_nil_iff]
  | tuple first others tail => simp [text, ← String.toList_eq_nil_iff]

namespace Signature

/-- A union has no text when it has no members, or a single one without a
text. -/
theorem intercalate_texts_eq_empty_iff {ms : List Member} :
    " | ".intercalate (Member.texts ms) = "" ↔ ms = [] ∨ ms = [.named ""] := by
  rw [Member.texts_eq_map]
  cases ms with
  | nil => simp
  | cons m ms =>
    rw [← String.toList_eq_nil_iff, List.map_cons, toList_intercalate_cons, List.append_eq_nil_iff,
      String.toList_eq_nil_iff, Member.text_eq_empty_iff]
    cases ms <;> simp

/-- A combinator has a name. -/
theorem withCombinator_eq_empty_iff {base : String} {c : Option Combinator} :
    withCombinator base c = "" ↔ base = "" ∧ c = none := by
  cases c with
  | none => simp [withCombinator]
  | some c =>
    rw [withCombinator]
    split
    · cases c <;> simp [Combinator.name, Combinator.keyword, Keyword.name, Keyword.entry]
    · simp [← String.toList_eq_nil_iff]

/-- **A signature is blank exactly when it has no text.** -/
theorem isBlank_iff_text_eq {s : Signature} : s.isBlank = true ↔ s.text = "" := by
  cases s with
  | any => simp [isBlank, text]
  | never => simp [isBlank, text]
  | unknown => simp [isBlank, text]
  | union ms c =>
    rw [text, withCombinator_eq_empty_iff, intercalate_texts_eq_empty_iff]
    cases c with
    | some c => simp [isBlank]
    | none =>
      match ms with
      | [] => simp [isBlank]
      | [.named name] => simp [isBlank]
      | [.array e] => simp [isBlank]
      | [.tuple first others tail] => simp [isBlank]
      | m :: m' :: ms => simp [isBlank]

/-- The text of an element. -/
theorem text_element (s : Signature) :
    s.element.text = if s.text = "" then "UNKNOWN" else s.text := by
  rw [element]
  by_cases h : s.isBlank = true
  · rw [if_pos h, if_pos (isBlank_iff_text_eq.1 h), text]
  · rw [if_neg h, if_neg fun htext => h (isBlank_iff_text_eq.2 htext)]

end Signature

/-! ## Outlines -/

namespace Value

/-- What stands under a keyword, as far as signatures go: nothing if it is
empty. -/
def outline? : Value → Option Outline
  | .data .null => none
  | .list entries => some (.many (entries.map signature))
  | v => some (.one v.signature)

theorem signatures_eq_map (vs : List Value) : signatures vs = vs.map signature := by
  induction vs with
  | nil => rfl
  | cons v vs ih => rw [signatures, ih, List.map_cons]

end Value

namespace Schema

theorem outlines_eq_filterMap (declared : List (Keyword × Value)) :
    outlines declared = declared.filterMap fun m => m.2.outline?.map (m.1, ·) := by
  induction declared with
  | nil => rfl
  | cons m declared ih =>
    obtain ⟨k, v⟩ := m
    rw [List.filterMap_cons, ← ih]
    cases v with
    | data j => cases j <;> rfl
    | list entries => rw [outlines, Value.signatures_eq_map]; rfl
    | map members => rfl
    | schema s => rfl

/-- **An outline is that of the keyword's value**, when no keyword is declared
twice. -/
theorem lookup_outlines {s : Schema} (hn : (s.declared.map Prod.fst).Nodup) (k : Keyword) :
    (outlines s.declared).lookup k = (s.value? k).bind Value.outline? := by
  rw [outlines_eq_filterMap, lookup_filterMap_value _ hn, value?]

/-- An outline is that of a declared value. -/
theorem exists_of_lookup_outlines {declared : List (Keyword × Value)} {k : Keyword} {o : Outline}
    (h : (outlines declared).lookup k = some o) :
    ∃ v, (k, v) ∈ declared ∧ v.outline? = some o := by
  have hmem := mem_of_lookup_eq_some h
  rw [outlines_eq_filterMap, List.mem_filterMap] at hmem
  obtain ⟨m, hm, ho⟩ := hmem
  obtain ⟨o', ho', heq⟩ := Option.map_eq_some_iff.1 ho
  obtain ⟨rfl, rfl⟩ := Prod.mk.inj heq
  exact ⟨m.2, hm, ho'⟩

theorem signature_eq (s : Schema) : s.signature = s.signatureFrom (outlines s.declared) := by
  cases s
  rw [signature]

end Schema

end SchemaProse
