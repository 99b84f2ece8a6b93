import SchemaProse.Proofs.Reading.RoundTrip
import SchemaProse.Proofs.Signature.Unambiguous
import SchemaProse.Schema.Expansion
/-!
# Signature — flat signatures

A signature is *flat* when it is `ANY` or a union of names without a combinator,
with no array or tuple in it. Whether there is something to show below a schema,
which types it may describe and what its signature is are decided one by one,
each with its own order among type, constant and allowed values. They do not
contradict each other: where there is nothing to show below a schema, its
signature is flat, and its text is that of the types that it may describe
(`Schema.flatText`), apart from a constant, which is shown as a text.
-/

namespace SchemaProse

/-- The signature is `ANY`, or names only, without a combinator. -/
inductive Signature.Flat : Signature → Prop
  | any : Flat .any
  | names (names : List String) : Flat (.union (names.map .named) none)

namespace Signature

theorem texts_map_named (names : List String) : Member.texts (names.map .named) = names := by
  rw [Member.texts_eq_map, List.map_map]
  exact List.map_id names

/-- The text of names is that of a union without a combinator. -/
theorem text_names (names : List String) :
    (union (names.map .named) none).text = " | ".intercalate names := by
  rw [text, withCombinator, texts_map_named]

end Signature

namespace Schema

/-- A type is declared, by a name or a list of names. -/
def declaresType (s : Schema) : Bool :=
  (s.value? .type).any fun
    | .data (.str _) => true
    | .data (.arr _) => true
    | _ => false

/-- The text of a schema below which there is nothing to show. -/
def flatText (s : Schema) : String :=
  if s.isAny then "ANY"
  else if s.declaresType then " | ".intercalate s.possibleTypes
  else if s.carries .const then "string"
  else if s.enumItems ≠ [] then " | ".intercalate s.possibleTypes
  else ""

variable {s : Schema}

/-! ## Declared types -/

theorem declaresType_eq (s : Schema) : s.declaresType = s.declaredTypes?.isSome := by
  rw [declaresType, declaredTypes?, typeNames?]
  cases s.value? .type with
  | none => rfl
  | some v =>
    cases v with
    | data j => cases j <;> rfl
    | _ => rfl

/-- In a well-formed schema a type is declared when `type` is there and not
empty. -/
theorem WellFormed.declaresType_iff (hwf : s.WellFormed) :
    s.declaresType = true ↔ ∃ v, s.value? .type = some v ∧ v.isNull = false := by
  rw [declaresType]
  cases hv : s.value? .type with
  | none => simp
  | some v =>
    have hfits : v.Fits .textOrList := hwf.fits _ (mem_of_lookup_eq_some hv)
    cases hfits with
    | null => simp [Value.isNull]
    | @scalar _ j hholds => cases j <;> simp [Value.isNull] <;> cases hholds
    | bool hnode => cases hnode
    | schema hnode => cases hnode
    | list hlist => cases hlist

/-! ## Where there is nothing to show -/

theorem notMem_possibleTypes (h : s.maybeContainer = false) :
    "object" ∉ s.possibleTypes ∧ "array" ∉ s.possibleTypes := by
  rw [maybeContainer, Bool.or_eq_false_iff] at h
  refine ⟨fun hobject => ?_, fun harray => ?_⟩
  · rw [← List.contains_iff_mem, show "object" = Json.Kind.object.name from rfl, h.1] at hobject
    cases hobject
  · rw [← List.contains_iff_mem, show "array" = Json.Kind.array.name from rfl, h.2] at harray
    cases harray

/-- A constant that is no array and no object is shown as a text. -/
theorem constantName_eq_string {j : Json} (hobject : j.kind.name ≠ "object")
    (harray : j.kind.name ≠ "array") : constantName j = "string" := by
  cases j with
  | arr items => exact absurd rfl harray
  | obj members => exact absurd rfl hobject
  | _ => rfl

/-- **The members of a union are names** when the schema may describe no array
and no object: those that it may describe, apart from a constant. -/
theorem exists_unionMembers_eq (h : s.maybeContainer = false) (array : Member) :
    ∃ names : List String, s.unionMembers array = names.map .named ∧
      " | ".intercalate names =
        if s.declaresType then " | ".intercalate s.possibleTypes
        else if s.carries .const then "string"
        else if s.enumItems ≠ [] then " | ".intercalate s.possibleTypes
        else "" := by
  obtain ⟨hobject, harray⟩ := notMem_possibleTypes h
  rw [unionMembers, declaresType_eq]
  cases hdeclared : s.declaredTypes? with
  | some names =>
    have hnames : s.possibleTypes = names := by rw [possibleTypes, hdeclared]
    rw [hnames] at harray
    refine ⟨names, List.map_congr_left fun name hname => if_neg ?_, ?_⟩
    · rintro rfl
      exact harray hname
    · rw [if_pos Option.isSome_some, hnames]
  | none =>
    rw [if_neg (by simp), carries]
    cases hconst : s.value? .const with
    | some v =>
      have hkind : s.possibleTypes = [v.toJson.kind.name] := by
        rw [possibleTypes, hdeclared, hconst]
      rw [hkind, List.mem_singleton] at hobject harray
      refine ⟨[constantName v.toJson], rfl, ?_⟩
      rw [constantName_eq_string (Ne.symm hobject) (Ne.symm harray), if_pos Option.isSome_some,
        String.intercalate_singleton]
    | none =>
      refine ⟨kindNames s.enumItems, rfl, ?_⟩
      rw [if_neg (by simp)]
      by_cases hitems : s.enumItems = []
      · rw [if_neg (not_not.2 hitems), hitems]
        rfl
      · rw [if_pos hitems, possibleTypes, hdeclared, hconst]
        simp [hitems]

/-- There is nothing to show below a schema that may describe no array and no
object and carries no keyword with a schema to show. -/
theorem of_isExpandable_eq_false (h : s.isExpandable = false) :
    s.maybeContainer = false ∧ ∀ k ∈ Keyword.expanding, s.carries k = false := by
  rw [isExpandable, Bool.or_eq_false_iff, Bool.or_eq_false_iff, List.any_eq_false] at h
  obtain ⟨⟨hcontainer, hexpanding⟩, -⟩ := h
  exact ⟨hcontainer, fun k hk => Bool.eq_false_iff.2 (hexpanding k hk)⟩

theorem combinator?_eq_none (h : ∀ k ∈ Keyword.expanding, s.carries k = false) :
    s.combinator? = none := by
  rw [combinator?, List.find?_eq_none]
  intro c _
  have hkeyword : c.keyword ∈ Keyword.expanding := by cases c <;> decide
  rw [h _ hkeyword]
  exact Bool.false_ne_true

/-- The signature is `ANY` or the union of the names. -/
theorem signature_of_isExpandable_eq_false (h : s.isExpandable = false) :
    s.signature.Flat ∧ s.signature.text = s.flatText := by
  obtain ⟨hcontainer, hexpanding⟩ := of_isExpandable_eq_false h
  have hnegation : s.value? .negation = none :=
    Option.not_isSome_iff_eq_none.1 (Bool.eq_false_iff.1 (hexpanding .negation (by decide)))
  obtain ⟨names, hmembers, hnames⟩ :=
    exists_unionMembers_eq hcontainer (s.arrayMember (outlines s.declared))
  rw [signature_eq, signatureFrom, hnegation, hmembers, combinator?_eq_none hexpanding, flatText]
  by_cases hany : s.isAny = true
  · rw [if_pos hany, if_pos hany]
    exact ⟨.any, rfl⟩
  · rw [if_neg hany, if_neg hany, Option.any_none, if_neg Bool.false_ne_true, ← hnames,
      Signature.text_names]
    exact ⟨.names names, rfl⟩

/-- **A schema below which there is nothing to show has a flat signature**, with
the text that its declared type, its constant or its allowed values give. It is
never `NEVER`, since no negation is there, and none of the types that it may
describe is that of an array or object. In a schema that may come out of a
reading, a type is declared wherever `type` is not empty. -/
theorem flat_of_isExpandable_eq_false (h : s.isExpandable = false) :
    s.signature.Flat ∧ (Value.schema s).typeText = s.flatText ∧
      s.signature ≠ .never ∧ s.carries .negation = false ∧
      "array" ∉ s.possibleTypes ∧ "object" ∉ s.possibleTypes ∧
      (s.WellFormed →
        (s.declaresType = true ↔ ∃ v, s.value? .type = some v ∧ v.isNull = false)) := by
  obtain ⟨hflat, htext⟩ := signature_of_isExpandable_eq_false h
  obtain ⟨hcontainer, hexpanding⟩ := of_isExpandable_eq_false h
  obtain ⟨hobject, harray⟩ := notMem_possibleTypes hcontainer
  refine ⟨hflat, ?_, ?_, hexpanding _ (by decide), harray, hobject, WellFormed.declaresType_iff⟩
  · rw [Value.typeText, Value.signature, htext]
  · intro hnever
    rw [hnever] at hflat
    cases hflat

/-- A union of types beside a constant that is an array, a length and an
extension that is hidden. -/
def numberOrNull : Schema where
  declared := [(.type, .data (.arr [.str "integer", .str "null", .str "number"])),
    (.const, .data (.arr [])), (.minLength, .data (.num (.int 1)))]
  extra := [("x-parser-id", .obj [])]

theorem flat_numberOrNull :
    numberOrNull.WellFormed ∧ numberOrNull.isExpandable = false ∧
      (Value.schema numberOrNull).typeText = "null | number" ∧ numberOrNull.signature.Flat ∧
      ∃ v, numberOrNull.value? .type = some v ∧ v.isNull = false := by
  have hread : read [("minLength", .num (.int 1)), ("x-parser-id", .obj []),
      ("const", .arr []), ("type", .arr [.str "integer", .str "null", .str "number"])] =
        .ok numberOrNull := rfl
  have hwf : numberOrNull.WellFormed := wellFormed_of_read hread
  have hexpandable : numberOrNull.isExpandable = false := by decide +kernel
  obtain ⟨hflat, htext, -, -, -, -, hdeclares⟩ := flat_of_isExpandable_eq_false hexpandable
  have hdeclared : numberOrNull.declaresType = true := rfl
  refine ⟨hwf, hexpandable, ?_, hflat, (hdeclares hwf).1 hdeclared⟩
  rw [htext]
  decide +kernel

end Schema

end SchemaProse
