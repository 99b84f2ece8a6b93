import SchemaProse.Proofs.Signature.Readable
/-!
# Signature — the type text of a value is unambiguous

A value *declares type names* when every schema that is reached from it through
`items` and `additionalItems` gives nothing but the names of types under
`type`. The signature of such a value is well made, so its text tells it apart
from the signatures of all others.
-/

namespace SchemaProse

/-! ## Schemas below a value -/

namespace Value

/-- The schema is the value itself or is met below it, each time under `items`
or `additionalItems` or among the entries that stand there. -/
inductive Reaches : Value → Schema → Prop
  /-- The value itself. -/
  | root {s : Schema} : Reaches (.schema s) s
  /-- From an entry of the list under one of the two keywords. -/
  | entry {s t : Schema} {k : Keyword} {entries : List Value} {v : Value} :
      k ∈ [Keyword.items, .additionalItems] → (k, .list entries) ∈ s.declared → v ∈ entries →
      Reaches v t → Reaches (.schema s) t
  /-- From the node under one of the two keywords. -/
  | under {s t : Schema} {k : Keyword} {v : Value} :
      k ∈ [Keyword.items, .additionalItems] → (k, v) ∈ s.declared → Reaches v t →
      Reaches (.schema s) t

/-- The schemas that the value reaches declare the names of types only. -/
def DeclaresTypeNames (v : Value) : Prop :=
  ∀ s, v.Reaches s → ∀ names, s.typeNames? = some names → ∀ name ∈ names, name ∈ typeNames

end Value

/-! ## The members of a union -/

/-- The normal form of a union adds no name. -/
theorem mem_of_mem_unionNames {names : List String} {name : String} (h : name ∈ unionNames names) :
    name ∈ names := by
  have hdistinct : name ∈ names.eraseDups := by
    by_cases hnumber : "number" ∈ names.eraseDups
    · rw [unionNames, if_pos hnumber] at h
      exact (List.mem_filter.1 h).1
    · rwa [unionNames, if_neg hnumber] at h
  exact List.mem_eraseDups.1 hdistinct

theorem Json.name_kind_mem_typeNames (j : Json) : j.kind.name ∈ typeNames := by
  cases j.kind <;> decide +kernel

theorem mem_typeNames_of_mem_kindNames {values : List Json} {name : String}
    (h : name ∈ kindNames values) : name ∈ typeNames := by
  obtain ⟨j, -, rfl⟩ := List.mem_map.1 (List.mem_eraseDups.1 h)
  exact j.name_kind_mem_typeNames

namespace Schema

theorem constantName_mem_typeNames (j : Json) : constantName j ∈ typeNames := by
  unfold constantName
  split <;> decide +kernel

/-- A member of a union has the name of a type, or is the one for arrays. -/
theorem mem_unionMembers {s : Schema} {array m : Member}
    (hnames : ∀ names, s.typeNames? = some names → ∀ name ∈ names, name ∈ typeNames)
    (h : m ∈ s.unionMembers array) : m = array ∨ ∃ name ∈ typeNames, m = .named name := by
  unfold unionMembers at h
  split at h
  next names hdeclared =>
    obtain ⟨given, hgiven, rfl⟩ := Option.map_eq_some_iff.1 hdeclared
    obtain ⟨name, hname, rfl⟩ := List.mem_map.1 h
    split
    · exact .inl rfl
    · exact .inr ⟨name, hnames given hgiven name (mem_of_mem_unionNames hname), rfl⟩
  next =>
    split at h
    · exact .inr ⟨_, constantName_mem_typeNames _, List.mem_singleton.1 h⟩
    · obtain ⟨name, hname, rfl⟩ := List.mem_map.1 h
      exact .inr ⟨name, mem_typeNames_of_mem_kindNames hname, rfl⟩

end Schema

/-! ## The elements of an array -/

namespace Signature

theorem isBlank_element (s : Signature) : s.element.isBlank = false := by
  unfold element
  split
  next => rfl
  next h => simpa using h

theorem WellMade.element {s : Signature} (hs : s.WellMade) : s.element.WellMade := by
  unfold Signature.element
  split
  next => exact .unknown
  next => exact hs

end Signature

/-- An element that stands in an array or tuple as such. -/
theorem Member.WellMade.of_elements {m : Member} (hnamed : m.IsNamed)
    (h : ∀ e ∈ m.elements, ∃ s : Signature, s.WellMade ∧ e = s.element) : m.WellMade where
  isNamed := hnamed
  elements e he := by
    obtain ⟨s, hs, rfl⟩ := h e he
    exact hs.element
  shown e he := by
    obtain ⟨s, -, rfl⟩ := h e he
    exact s.isBlank_element

/-- The outline is made of well-made signatures. -/
def Outline.WellMade : Outline → Prop
  | .one s => s.WellMade
  | .many ss => ∀ s ∈ ss, s.WellMade

namespace Signature

/-- The elements of a tuple are those given, or a single unknown one. -/
theorem mem_elements_tupleMember {ss : List Signature} {tail : Option Signature} {e : Signature}
    (h : e ∈ (tupleMember ss tail).elements) :
    e = .unknown ∨ (∃ s ∈ ss, e = s.element) ∨ e ∈ tail := by
  unfold tupleMember at h
  split at h
  next =>
    rcases List.mem_cons.1 h with rfl | htail
    · exact .inl rfl
    · exact .inr (.inr (by simpa using htail))
  next heq =>
    simp only [Member.elements, ← List.cons_append, ← heq, List.mem_append, List.mem_map] at h
    rcases h with ⟨s, hs, rfl⟩ | htail
    · exact .inr (.inl ⟨s, hs, rfl⟩)
    · exact .inr (.inr (by simpa using htail))

end Signature

namespace Schema

variable {s : Schema} {outlines : List (Keyword × Outline)}

/-- The tail of a tuple is an element like the others. -/
theorem exists_of_mem_tail? {e : Signature}
    (h : ∀ o, outlines.lookup .additionalItems = some o → o.WellMade)
    (he : e ∈ s.tail? outlines) : ∃ x : Signature, x.WellMade ∧ e = x.element := by
  unfold tail? at he
  split at he
  next => cases he
  next =>
    split at he
    next sig hsig =>
      obtain rfl := Option.some.inj he
      exact ⟨sig, h _ hsig, rfl⟩
    next =>
      obtain rfl := Option.some.inj he
      exact ⟨.any, .any, rfl⟩

/-- **The member for arrays is well made** when what stands under `items` and
`additionalItems` is. -/
theorem wellMade_arrayMember (hitems : ∀ o, outlines.lookup .items = some o → o.WellMade)
    (htail : ∀ o, outlines.lookup .additionalItems = some o → o.WellMade) :
    (s.arrayMember outlines).WellMade := by
  unfold arrayMember
  split
  next =>
    refine .of_elements (by rintro _ ⟨⟩) fun e he => ?_
    exact ⟨.any, .any, List.mem_singleton.1 he⟩
  next sig hsig =>
    refine .of_elements (by rintro _ ⟨⟩) fun e he => ?_
    exact ⟨sig, hitems _ hsig, List.mem_singleton.1 he⟩
  next sigs hsigs =>
    refine .of_elements ?_ fun e he => ?_
    · unfold Signature.tupleMember
      split <;> rintro _ ⟨⟩
    · rcases Signature.mem_elements_tupleMember he with rfl | ⟨sig, hsig, rfl⟩ | he
      · exact ⟨.unknown, .unknown, rfl⟩
      · exact ⟨sig, hitems _ hsigs sig hsig, rfl⟩
      · exact exists_of_mem_tail? htail he

/-- **The signature of a schema is well made** when it declares the names of
types and what stands under `items` and `additionalItems` is well made. -/
theorem wellMade_signatureFrom
    (hnames : ∀ names, s.typeNames? = some names → ∀ name ∈ names, name ∈ typeNames)
    (hitems : ∀ o, outlines.lookup .items = some o → o.WellMade)
    (htail : ∀ o, outlines.lookup .additionalItems = some o → o.WellMade) :
    (s.signatureFrom outlines).WellMade := by
  unfold signatureFrom
  split
  next => exact .any
  next =>
    split
    next => exact .never
    next =>
      have hmember : ∀ m ∈ s.unionMembers (s.arrayMember outlines), m.WellMade := by
        intro m hm
        rcases mem_unionMembers hnames hm with rfl | ⟨name, hname, rfl⟩
        · exact wellMade_arrayMember hitems htail
        · refine .of_elements ?_ (by simp [Member.elements])
          rintro _ ⟨⟩
          exact hname
      exact .union (fun m hm => (hmember m hm).isNamed) (fun m hm => (hmember m hm).shown)
        fun m hm => (hmember m hm).elements

end Schema

namespace Value

/-- What a value has under a keyword is its own signature or those of its
entries. -/
theorem outline?_eq_some {v : Value} {o : Outline} (h : v.outline? = some o) :
    o = .one v.signature ∨ ∃ entries, v = .list entries ∧ o = .many (entries.map signature) := by
  unfold outline? at h
  split at h
  next => cases h
  next entries => exact .inr ⟨entries, rfl, (Option.some.inj h).symm⟩
  next => exact .inl (Option.some.inj h).symm

/-- A value below a schema declares type names when the schema does. -/
theorem DeclaresTypeNames.of_reaches {v : Value} {s : Schema} (hs : (schema s).DeclaresTypeNames)
    (h : ∀ t, v.Reaches t → (schema s).Reaches t) : v.DeclaresTypeNames :=
  fun t ht => hs t (h t ht)

/-- **A value that declares type names has a well-made signature**, and so do
the entries of a list of such values. -/
theorem wellMade_signature {v : Value} (hv : v.DeclaresTypeNames) : v.signature.WellMade := by
  -- the entries of a list under `items` are met one level further down than other values
  suffices h : (v.DeclaresTypeNames → v.signature.WellMade) ∧
      ∀ entries, v = .list entries → ∀ e ∈ entries, e.DeclaresTypeNames → e.signature.WellMade from
    h.1 hv
  clear hv
  induction v using Value.ind with
  | data j =>
    refine ⟨fun _ => ?_, by rintro _ ⟨⟩⟩
    rw [signature]
    unfold Signature.ofData
    split
    · exact .any
    · exact .never
    · exact .unknown
  | map members => exact ⟨fun _ => by rw [signature]; exact .unknown, by rintro _ ⟨⟩⟩
  | list entries ih =>
    refine ⟨fun _ => by rw [signature]; exact .unknown, ?_⟩
    rintro _ ⟨⟩ e he
    exact (ih e he).1
  | schema declared extra ih =>
    refine ⟨fun hs => ?_, by rintro _ ⟨⟩⟩
    have houtline : ∀ k ∈ [Keyword.items, .additionalItems], ∀ o,
        (Schema.outlines declared).lookup k = some o → o.WellMade := by
      intro k hk o ho
      obtain ⟨v, hv, hvo⟩ := Schema.exists_of_lookup_outlines ho
      obtain ⟨hnode, hentries⟩ := ih (k, v) hv
      rcases outline?_eq_some hvo with rfl | ⟨entries, rfl, rfl⟩
      · exact hnode (hs.of_reaches fun t => .under hk hv)
      · intro sig hsig
        obtain ⟨e, he, rfl⟩ := List.mem_map.1 hsig
        exact hentries entries rfl e he (hs.of_reaches fun t => .entry hk hv he)
    rw [signature, Schema.signature_eq]
    exact Schema.wellMade_signatureFrom (hs _ .root) (houtline _ (by simp)) (houtline _ (by simp))

end Value

/-! ## The three words -/

namespace Schema

theorem signatureFrom_eq_any_iff {s : Schema} {outlines : List (Keyword × Outline)} :
    s.signatureFrom outlines = .any ↔ s.isAny = true := by
  unfold signatureFrom
  split
  next hany => simp [hany]
  next hany => split <;> simp [hany]

/-- A schema that negates a node which is any is not any itself. -/
theorem signatureFrom_eq_never_iff {s : Schema} {outlines : List (Keyword × Outline)} :
    s.signatureFrom outlines = .never ↔ (s.value? .negation).any Value.isAny = true := by
  unfold signatureFrom
  split
  next hany =>
    have habsent : s.value? .negation = none := isAny_iff.1 hany .negation (by decide)
    simp [habsent]
  next => split <;> simp [*]

theorem signatureFrom_ne_unknown {s : Schema} {outlines : List (Keyword × Outline)} :
    s.signatureFrom outlines ≠ .unknown := by
  unfold signatureFrom
  split
  next => simp
  next => split <;> simp

end Schema

namespace Value

theorem signature_eq_any_iff {v : Value} : v.signature = .any ↔ v.isAny = true := by
  cases v with
  | data j =>
    cases j with
    | bool b => cases b <;> simp [signature, Signature.ofData, isAny]
    | _ => simp [signature, Signature.ofData, isAny]
  | list entries => simp [signature, isAny]
  | map members => simp [signature, isAny]
  | schema s =>
    rw [signature, Schema.signature_eq, isAny]
    exact Schema.signatureFrom_eq_any_iff

theorem signature_eq_never_iff {v : Value} :
    v.signature = .never ↔ v.isFalse = true ∨
      ∃ s inner, v = .schema s ∧ s.value? .negation = some inner ∧ inner.isAny = true := by
  cases v with
  | data j =>
    cases j with
    | bool b => cases b <;> simp [signature, Signature.ofData, isFalse]
    | _ => simp [signature, Signature.ofData, isFalse]
  | list entries => simp [signature, isFalse]
  | map members => simp [signature, isFalse]
  | schema s =>
    rw [signature, Schema.signature_eq, Schema.signatureFrom_eq_never_iff, Option.any_eq_true]
    simp [isFalse]

theorem signature_eq_unknown_iff {v : Value} : v.signature = .unknown ↔ v.isNode = false := by
  cases v with
  | data j =>
    cases j with
    | bool b => cases b <;> simp [signature, Signature.ofData, isNode]
    | _ => simp [signature, Signature.ofData, isNode]
  | list entries => simp [signature, isNode]
  | map members => simp [signature, isNode]
  | schema s =>
    rw [signature, Schema.signature_eq]
    exact iff_of_false Schema.signatureFrom_ne_unknown (by simp [isNode])

/-! ## The type text -/

/-- The schemas reached from a schema are itself and those reached from what
stands under `items` and `additionalItems`. -/
theorem DeclaresTypeNames.schema {s : Schema}
    (hnames : ∀ names, s.typeNames? = some names → ∀ name ∈ names, name ∈ typeNames)
    (hentries : ∀ k ∈ [Keyword.items, .additionalItems], ∀ entries,
      (k, .list entries) ∈ s.declared → ∀ v ∈ entries, v.DeclaresTypeNames)
    (hunder : ∀ k ∈ [Keyword.items, .additionalItems], ∀ v, (k, v) ∈ s.declared →
      v.DeclaresTypeNames) : (schema s).DeclaresTypeNames := by
  intro t ht
  cases ht with
  | root => exact hnames
  | entry hk hdeclared hv hreach => exact hentries _ hk _ hdeclared _ hv t hreach
  | under hk hdeclared hreach => exact hunder _ hk _ hdeclared t hreach

/-- **Type texts are unambiguous.** Two values that declare type names have the
same type text only when they have the same signature. So the text is `ANY` for
the values that are any, `NEVER` for `false` and for the schemas that negate
such a value, and `UNKNOWN` for what is no node; its brackets are balanced, and
nothing between them is empty. -/
theorem typeText_eq_iff_signature_eq {v w : Value} (hv : v.DeclaresTypeNames)
    (hw : w.DeclaresTypeNames) :
    (v.typeText = w.typeText ↔ v.signature = w.signature) ∧
      (v.typeText = "ANY" ↔ v.isAny = true) ∧
      (v.typeText = "NEVER" ↔ v.isFalse = true ∨
        ∃ s inner, v = .schema s ∧ s.value? .negation = some inner ∧ inner.isAny = true) ∧
      (v.typeText = "UNKNOWN" ↔ v.isNode = false) ∧
      Balanced v.typeText.toList ∧ ∀ e, v.signature.HasElement e → e.text ≠ "" := by
  have hwell := wellMade_signature hv
  have htext : ∀ {t : Signature}, t.WellMade → (v.typeText = t.text ↔ v.signature = t) := by
    intro t ht
    constructor
    · exact hwell.text_injective ht
    · intro h
      rw [typeText, h]
  refine ⟨htext (wellMade_signature hw), ?_, ?_, ?_, hwell.balanced,
    fun e => hwell.text_ne_of_hasElement⟩
  · exact (htext .any).trans signature_eq_any_iff
  · exact (htext .never).trans signature_eq_never_iff
  · exact (htext .unknown).trans signature_eq_unknown_iff

/-- A tuple with an opaque entry and an array with one element. -/
theorem typeText_tuple_and_array :
    ∃ v w : Value, v.DeclaresTypeNames ∧ w.DeclaresTypeNames ∧
      v.typeText = "tuple<string, UNKNOWN> | null" ∧ w.typeText = "array<string>" ∧
      v.signature ≠ w.signature ∧ v.isAny = false ∧ Balanced v.typeText.toList := by
  let text : Schema := ⟨[(.type, .data (.str "string"))], []⟩
  let v : Schema := ⟨[(.type, .data (.arr [.str "array", .str "null"])),
    (.items, .list [.schema text, .data .null]), (.additionalItems, .bool false)], []⟩
  let w : Schema := ⟨[(.type, .data (.str "array")), (.items, .schema text)], []⟩
  have hdata : ∀ j, (data j).DeclaresTypeNames := fun _ _ h => nomatch h
  have hlist : ∀ entries, (list entries).DeclaresTypeNames := fun _ _ h => nomatch h
  have htext : (Value.schema text).DeclaresTypeNames := by
    refine .schema ?_ (by simp [text]) (by simp [text])
    simp [text, Schema.typeNames?, Schema.value?, texts?, typeNames]
  have hv : (Value.schema v).DeclaresTypeNames := by
    refine .schema ?_ ?_ ?_
    · rintro _ ⟨⟩
      decide
    · simp [v, bool, htext, hdata]
    · simp [v, bool, hlist, hdata]
  have hw : (Value.schema w).DeclaresTypeNames := by
    refine .schema ?_ ?_ ?_
    · rintro _ ⟨⟩
      decide
    · simp [w]
    · simp [w, htext]
  obtain ⟨hsame, hany, -, -, hbalanced, -⟩ := typeText_eq_iff_signature_eq hv hw
  have hvtext : (Value.schema v).typeText = "tuple<string, UNKNOWN> | null" := by decide +kernel
  have hwtext : (Value.schema w).typeText = "array<string>" := by decide +kernel
  refine ⟨.schema v, .schema w, hv, hw, hvtext, hwtext, ?_, ?_, hbalanced⟩
  · rw [Ne, ← hsame, hvtext, hwtext]
    decide
  · rw [Bool.eq_false_iff, Ne, ← hany, hvtext]
    decide

end Value

end SchemaProse
