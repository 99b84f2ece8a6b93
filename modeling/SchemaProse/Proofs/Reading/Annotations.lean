import Mathlib.Data.List.Sort
import Mathlib.Data.String.Basic
import SchemaProse.Proofs.Reading.Edited
import SchemaProse.Schema.Extension
/-!
# Reading — annotations and the order of members

A document is laid *bare* when, at each schema position, the annotations and
extensions are dropped and the other members are put in the order of their
names, which leaves the same members exactly for objects that differ in their
order only (`essentials_eq_iff_perm`). Documents that are the same when laid
bare are described alike: neither annotations nor extensions nor the order of
members have a say.
-/

namespace SchemaProse

/-! ## Sorting by name -/

section SortByName

variable {β : Type}

/-- The members in the order of their names; members of one name keep their
order. -/
def sortByName (ms : List (String × β)) : List (String × β) :=
  ms.insertionSort fun m n => m.1 ≤ n.1

/-- An insertion looks like an addition in front: what it passes has another
name. -/
theorem lookup_orderedInsert (m : String × β) (ms : List (String × β)) (name : String) :
    (ms.orderedInsert (fun m n => m.1 ≤ n.1) m).lookup name = (m :: ms).lookup name := by
  induction ms with
  | nil => rfl
  | cons n ms ih =>
    rw [List.orderedInsert_cons]
    by_cases hle : m.1 ≤ n.1
    · rw [if_pos hle]
    · have hne : n.1 ≠ m.1 := fun h => hle (le_of_eq h.symm)
      rw [if_neg hle, List.lookup_cons, ih, List.lookup_cons, List.lookup_cons, List.lookup_cons]
      by_cases hn : name = n.1
      · rw [hn, beq_self_eq_true, beq_false_of_ne hne]
      · rw [beq_false_of_ne hn]

/-- **Sorting by name changes no look-up.** -/
theorem lookup_sortByName (ms : List (String × β)) (name : String) :
    (sortByName ms).lookup name = ms.lookup name := by
  induction ms with
  | nil => rfl
  | cons m ms ih =>
    have hsorted : sortByName (m :: ms) = (sortByName ms).orderedInsert (fun m n => m.1 ≤ n.1) m :=
      List.insertionSort_cons _ m ms
    rw [hsorted, lookup_orderedInsert, List.lookup_cons, List.lookup_cons, ih]

/-- **Members without a repeated name are sorted alike exactly when they are
the same but for their order.** -/
theorem sortByName_eq_iff_perm {ms ms' : List (String × β)} (hn : (ms.map Prod.fst).Nodup) :
    sortByName ms = sortByName ms' ↔ ms.Perm ms' := by
  have hperm : ∀ l : List (String × β), (sortByName l).Perm l := List.perm_insertionSort _
  constructor
  · intro h
    exact (hperm ms).symm.trans (h ▸ hperm ms')
  · intro h
    have hsorted : ∀ l : List (String × β), (sortByName l).Pairwise fun m n => m.1 ≤ n.1 := by
      intro l
      exact List.pairwise_insertionSort _ l
    refine List.Perm.eq_of_pairwise ?_ (hsorted ms) (hsorted ms')
      ((hperm ms).trans (h.trans (hperm ms').symm))
    intro m n hm hn' hmn hnm
    have hm' := (hperm ms).subset hm
    have hn'' := h.symm.subset ((hperm ms').subset hn')
    exact List.inj_on_of_nodup_map hn hm' hn'' (le_antisymm hmn hnm)

end SortByName

/-! ## Annotations -/

/-- The keywords that turn no value away and say nothing of the type. -/
def Keyword.annotations : List Keyword :=
  [schemaId, dialect, reference, comment, title, description, defaultValue, examples, readOnly,
    writeOnly, deprecated, format, definitions]

namespace Schema

/-- The name is that of no annotation and of no extension. -/
def isEssential (name : String) : Bool :=
  !isExtension name && !Keyword.annotations.any fun k => k.name == name

/-- Constraining keywords are no annotations, by name or identifier. -/
theorem isEssential_of_constraining : ∀ k ∈ Keyword.constraining,
    isEssential k.name = true ∧ isEssential k.identifier = true := by
  decide +kernel

/-- The members that are no annotations, in the order of their names. -/
def essentials (members : List (String × Json)) : List (String × Json) :=
  sortByName (members.filter fun m => isEssential m.1)

theorem lookup_essentials (members : List (String × Json)) (name : String) :
    (essentials members).lookup name =
      if isEssential name then members.lookup name else none := by
  rw [essentials, lookup_sortByName, lookup_filter_name]

/-- **Two objects are left with the same members exactly when these are the
same but for their order.** -/
theorem essentials_eq_iff_perm {members members' : List (String × Json)}
    (hn : (members.map Prod.fst).Nodup) :
    essentials members = essentials members' ↔
      (members.filter fun m => isEssential m.1).Perm
        (members'.filter fun m => isEssential m.1) :=
  sortByName_eq_iff_perm ((List.filter_sublist.map _).nodup hn)

end Schema

/-- Laying a document bare. -/
def Edit.bare : Edit where
  node := Schema.essentials
  scalar _ j := j
  data := id

/-- **Laying a document bare keeps the constraints.** -/
theorem Edit.keepsConstraints_bare : bare.KeepsConstraints where
  scalar _ _ := rfl
  data _ := rfl
  node members s h := by
    have hlookup : ∀ {name}, Schema.isEssential name = true →
        (Schema.essentials members).lookup name = members.lookup name := by
      intro name hname
      rw [Schema.lookup_essentials, if_pos hname]
    have hread : ∃ t, Schema.read (Schema.essentials members) = .ok t := by
      refine Schema.exists_read_of_forall fun k j hj => ?_
      rw [Schema.lookup_essentials] at hj
      by_cases hk : Schema.isEssential k.name = true
      · rw [if_pos hk] at hj
        obtain ⟨v, hv, -⟩ := Schema.value?_of_lookup_eq_some h hj
        exact ⟨v, hv⟩
      · rw [if_neg hk] at hj
        cases hj
    obtain ⟨t, ht⟩ := hread
    refine ⟨t, ht, fun k hk => ?_⟩
    obtain ⟨hname, hidentifier⟩ := Schema.isEssential_of_constraining k hk
    cases hj : members.lookup k.name with
    | some j =>
      obtain ⟨v, hv, hsv⟩ := Schema.value?_of_lookup_eq_some h hj
      obtain ⟨w, hw, htw⟩ := Schema.value?_of_lookup_eq_some ht ((hlookup hname).trans hj)
      rw [hsv, htw, ← hv, ← hw]
    | none =>
      rw [Schema.value?_of_lookup_eq_none h hj,
        Schema.value?_of_lookup_eq_none ht ((hlookup hname).trans hj), Schema.lookup_unknown_eq,
        Schema.lookup_unknown_eq, hlookup hidentifier]

namespace Schema

/-- **What is read agrees with what is read once the document is bare.** -/
theorem exists_read_bare_agree {members : List (String × Json)} {s : Schema}
    (h : read members = .ok s) :
    ∃ t, read (essentials (Edit.bare.fields members)) = .ok t ∧ s.Agree t :=
  exists_read_node_agree Edit.keepsConstraints_bare h fun k j v _ =>
    (Value.exists_read_alike Edit.keepsConstraints_bare j).1 k.shape v

/-- **Annotations, extensions and the order of members do not interfere.** Two
documents that are the same when laid bare have the same type text and the same
constraint texts; both are any or neither is; and they have the same combinator
and the same possible types. -/
theorem descriptions_eq_of_bare_eq {x x' : Json} {v v' : Value} (h : readNode x = .ok v)
    (h' : readNode x' = .ok v') (hbare : Edit.bare.entry x = Edit.bare.entry x') :
    v.typeText = v'.typeText ∧ v.isAny = v'.isAny ∧ v.constraintTexts = v'.constraintTexts ∧
      v.schema?.bind combinator? = v'.schema?.bind combinator? ∧
      v.schema?.map possibleTypes = v'.schema?.map possibleTypes := by
  rcases readNode_eq_ok_iff.1 h with ⟨b, rfl, rfl⟩ | ⟨ms, s, rfl, hs, rfl⟩
  · rcases readNode_eq_ok_iff.1 h' with ⟨b', rfl, rfl⟩ | ⟨ms', s', rfl, hs', rfl⟩
    · obtain rfl : b = b' := Json.bool.inj hbare
      simp
    · cases hbare
  · rcases readNode_eq_ok_iff.1 h' with ⟨b', rfl, rfl⟩ | ⟨ms', s', rfl, hs', rfl⟩
    · cases hbare
    · -- both agree with the schema read from the one bare document
      obtain ⟨t, ht, hagree⟩ := exists_read_bare_agree hs
      obtain ⟨t', ht', hagree'⟩ := exists_read_bare_agree hs'
      have hmembers : essentials (Edit.bare.fields ms) = essentials (Edit.bare.fields ms') :=
        Json.obj.inj hbare
      rw [hmembers, ht'] at ht
      obtain rfl := Except.ok.inj ht
      refine ⟨?_, ?_, ?_, ?_, ?_⟩
      · rw [Value.typeText, Value.typeText, hagree.alike_schema.signature_eq,
          hagree'.alike_schema.signature_eq]
      · rw [Value.isAny, Value.isAny, hagree.isAny_eq, hagree'.isAny_eq]
      · rw [Value.constraintTexts, Value.constraintTexts, hagree.phrases_eq, hagree'.phrases_eq]
      · exact hagree.combinator?_eq.trans hagree'.combinator?_eq.symm
      · exact congrArg some (hagree.possibleTypes_eq.trans hagree'.possibleTypes_eq.symm)

/-- A list of texts, with annotations inside and out. -/
def annotatedList : Json :=
  .obj [("title", .str "t"), ("type", .str "array"), ("x-order", .num (.int 1)),
    ("items", .obj [("minLength", .num (.int 1)), ("description", .str "d"),
      ("type", .str "string")])]

/-- The same list with other annotations, in another order. -/
def plainList : Json :=
  .obj [("items", .obj [("type", .str "string"), ("minLength", .num (.int 1))]),
    ("$comment", .str "c"), ("type", .str "array")]

theorem descriptions_annotatedList :
    ∃ v v', readNode annotatedList = .ok v ∧ readNode plainList = .ok v' ∧
      v.typeText = "array<string>" ∧ v.typeText = v'.typeText := by
  have hannotated : readNode annotatedList = .ok (.schema
      ⟨[(.title, .data (.str "t")), (.type, .data (.str "array")),
        (.items, .schema ⟨[(.description, .data (.str "d")), (.type, .data (.str "string")),
          (.minLength, .data (.num (.int 1)))], []⟩)], [("x-order", .num (.int 1))]⟩) := rfl
  obtain ⟨v', hplain⟩ : ∃ v', readNode plainList = .ok v' := ⟨_, rfl⟩
  have hbare : Edit.bare.entry annotatedList = Edit.bare.entry plainList := rfl
  exact ⟨_, v', hannotated, hplain, by decide +kernel,
    (descriptions_eq_of_bare_eq hannotated hplain hbare).1⟩

end Schema

end SchemaProse
