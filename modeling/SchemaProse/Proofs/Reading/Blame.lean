import SchemaProse.Proofs.Reading.Document
/-!
# Reading — what is rejected, and which keywords are blamed

A value *spoils* a keyword when the object that has the one member is rejected.
An object is rejected exactly when one of its members spoils a keyword, and the
keywords blamed are the ones spoilt (`mem_refused_iff_spoils`): no member
matters to another. Keywords that hold schemas are spoilt by a value of another
kind or by an object in it that is rejected itself. Data is not looked at: a
document is rejected as its *outline* is, from which all data has been taken
out.
-/

namespace SchemaProse

/-- The items of an array, or the values of an object's members. -/
def Json.entries : Json → List Json
  | .arr items => items
  | .obj members => members.map Prod.snd
  | _ => []

namespace Schema

/-- The document is read as no node. -/
def Rejects (document : Json) : Prop :=
  ∃ e, readNode document = .error e

/-- An object with this one member is rejected. -/
def Spoils (k : Keyword) (j : Json) : Prop :=
  Rejects (.obj [(k.name, j)])

/-- An entry of the value is an object that is rejected. -/
def HasRejectedEntry (j : Json) : Prop :=
  ∃ inner, .obj inner ∈ j.entries ∧ Rejects (.obj inner)

variable {members : List (String × Json)} {k : Keyword} {j : Json}

/-- An object is rejected when a keyword is refused. -/
theorem rejects_obj_iff :
    Rejects (.obj members) ↔ ∃ k, k ∈ refused (Value.readFields members) := by
  rw [Rejects]
  constructor
  · rintro ⟨e, he⟩
    obtain ⟨bad, hbad, -⟩ := readNode_obj_eq_error_iff.1 he
    obtain ⟨hne, rfl⟩ := read_eq_error_iff.1 hbad
    exact List.exists_mem_of_ne_nil _ hne
  · rintro ⟨k, hk⟩
    exact ⟨_, readNode_obj_eq_error_iff.2
      ⟨_, read_eq_error_iff.2 ⟨List.ne_nil_of_mem hk, rfl⟩, rfl⟩⟩

/-- An object is rejected when it is not read as an entry. -/
theorem rejects_obj_iff_readEntry? :
    Rejects (.obj members) ↔ Value.readEntry? (.obj members) = none := by
  rw [Rejects]
  cases hread : read members with
  | ok s =>
    have hentry := Value.readEntry?_obj_eq_some_iff.2 ⟨s, hread, rfl⟩
    refine iff_of_false ?_ (by rw [hentry]; exact Option.some_ne_none _)
    rintro ⟨e, he⟩
    obtain ⟨bad, hbad, -⟩ := readNode_obj_eq_error_iff.1 he
    rw [hread] at hbad
    cases hbad
  | error bad =>
    refine iff_of_true ⟨_, readNode_obj_eq_error_iff.2 ⟨bad, hread, rfl⟩⟩ ?_
    refine Option.eq_none_iff_forall_ne_some.2 fun v hv => ?_
    obtain ⟨s, hs, -⟩ := Value.readEntry?_obj_eq_some_iff.1 hv
    rw [hread] at hs
    cases hs

/-- A value spoils a keyword when it is not read under the keyword's shape. -/
theorem spoils_iff : Spoils k j ↔ Value.readGiven? k.shape j = none := by
  rw [Spoils, rejects_obj_iff]
  constructor
  -- whatever is refused was given, and only this keyword was
  · rintro ⟨k', hk'⟩
    obtain ⟨j', hj', hnone⟩ := mem_refused_iff.1 hk'
    have hmem := mem_of_lookup_eq_some hj'
    rw [List.mem_singleton, Prod.mk.injEq] at hmem
    obtain ⟨hname, rfl⟩ := hmem
    rwa [Keyword.name_injective hname] at hnone
  · intro hnone
    exact ⟨k, mem_refused_iff.2 ⟨j, List.lookup_cons_self, hnone⟩⟩

/-- **The refused keywords are the ones spoilt.** -/
theorem mem_refused_iff_spoils :
    k ∈ refused (Value.readFields members) ↔ ∃ j, members.lookup k.name = some j ∧ Spoils k j := by
  rw [mem_refused_iff]
  exact exists_congr fun j => and_congr_right fun _ => spoils_iff.symm

/-! ## The keywords that hold schemas -/

/-- A rejected entry is one that is not read. -/
theorem hasRejectedEntry_iff :
    HasRejectedEntry j ↔ ∃ e ∈ j.entries, Value.readEntry? e = none := by
  constructor
  · rintro ⟨inner, hinner, hrejects⟩
    exact ⟨.obj inner, hinner, rejects_obj_iff_readEntry?.1 hrejects⟩
  · rintro ⟨e, he, hnone⟩
    cases e with
    | obj inner => exact ⟨inner, he, rejects_obj_iff_readEntry?.2 hnone⟩
    | _ => cases hnone

/-- A list is spoilt by a rejected entry. -/
theorem readGiven?_arr_eq_none_iff_hasRejectedEntry {shape : Shape} (h : shape.takesList = true)
    {items : List Json} :
    Value.readGiven? shape (.arr items) = none ↔ HasRejectedEntry (.arr items) := by
  rw [Value.readGiven?_arr_eq_none_iff h, hasRejectedEntry_iff]
  rfl

/-- A node is spoilt when it is rejected. -/
theorem readGiven?_obj_eq_none_iff_rejects {shape : Shape} (h : shape.takesNode = true) :
    Value.readGiven? shape (.obj members) = none ↔ Rejects (.obj members) := by
  rw [Value.readGiven?_obj h, rejects_obj_iff_readEntry?]

/-- A keyword that takes a list is spoilt by a value of another kind and by a
rejected entry. -/
theorem spoils_iff_of_nodeList (h : k.shape = .nodeList) :
    Spoils k j ↔ j.kind ∉ [.null, .array] ∨ (j.kind = .array ∧ HasRejectedEntry j) := by
  rw [spoils_iff, h]
  cases j with
  | arr items =>
    rw [readGiven?_arr_eq_none_iff_hasRejectedEntry rfl]
    simp [Json.kind]
  | _ => simp [Value.readGiven?, Value.read?, Shape.scalar?, Json.isNull, Json.kind]

/-- A keyword that takes named entries is spoilt by a value of another kind
and by a rejected entry. -/
theorem spoils_iff_of_nodeMap (h : k.shape = .nodeMap) :
    Spoils k j ↔ j.kind ∉ [.null, .object] ∨ (j.kind = .object ∧ HasRejectedEntry j) := by
  rw [spoils_iff, h]
  cases j with
  | obj entries =>
    have hentries : HasRejectedEntry (.obj entries) ↔
        ∃ m ∈ entries, Value.readEntry? m.2 = none := by
      rw [hasRejectedEntry_iff]
      simp only [Json.entries, List.mem_map, exists_exists_and_eq_and]
    rw [hentries, Value.readGiven?_nodeMap_obj_eq_none_iff]
    simp [Json.kind]
  | _ => simp [Value.readGiven?, Value.read?, Shape.scalar?, Json.isNull, Json.kind]

/-- A keyword that takes a node is spoilt by everything else and by a rejected
node. -/
theorem spoils_iff_of_node (h : k.shape = .node) :
    Spoils k j ↔ j.kind ∉ [.null, .boolean, .object] ∨ (j.kind = .object ∧ Rejects j) := by
  rw [spoils_iff, h]
  cases j with
  | obj inner =>
    rw [readGiven?_obj_eq_none_iff_rejects rfl]
    simp [Json.kind]
  | _ => simp [Value.readGiven?, Value.read?, Shape.scalar?, Json.isNull, Json.kind]

/-- A keyword that takes a node or a list is spoilt by everything else, by a
rejected node and by a rejected entry of a list. -/
theorem spoils_iff_of_nodeOrList (h : k.shape = .nodeOrList) :
    Spoils k j ↔ j.kind ∉ [.null, .boolean, .array, .object] ∨
      (j.kind = .array ∧ HasRejectedEntry j) ∨ (j.kind = .object ∧ Rejects j) := by
  rw [spoils_iff, h]
  cases j with
  | arr items =>
    rw [readGiven?_arr_eq_none_iff_hasRejectedEntry rfl]
    simp [Json.kind]
  | obj inner =>
    rw [readGiven?_obj_eq_none_iff_rejects rfl]
    simp [Json.kind]
  | _ => simp [Value.readGiven?, Value.read?, Shape.scalar?, Json.isNull, Json.kind]

end Schema

/-! ## Data -/

/-- Taking the data out of a document: the members that are no keyword, every
value and every list of values that a keyword keeps as given, and the entries
that are no object. -/
def Edit.outline : Edit where
  node := List.filter fun m => (Keyword.ofName? m.1).isSome
  scalar
    | .anything, _ => .null
    | .anyList, .arr _ => .arr []
    | _, j => j
  data _ := .null

namespace Value

/-- A value that holds no schema is read when its outline is. -/
theorem readGiven?_outline_scalar (shape : Shape) (j : Json) :
    readGiven? shape (Edit.outline.scalar shape j) = none ↔ readGiven? shape j = none := by
  cases shape with
  | anything => cases j <;> exact iff_of_false nofun nofun
  | anyList =>
    cases j with
    | arr items => exact iff_of_false nofun nofun
    | _ => exact Iff.rfl
  | _ => exact Iff.rfl

/-- The outline has the keywords of the object, each with the outline of its
value. -/
theorem lookup_outline_fields (members : List (String × Json)) (k : Keyword) :
    (Edit.outline.node (Edit.outline.fields members)).lookup k.name =
      (members.lookup k.name).map (Edit.outline.value k.shape) := by
  change List.lookup k.name (List.filter _ _) = _
  rw [lookup_filter_name fun name => (Keyword.ofName? name).isSome, Keyword.ofName?_name,
    Edit.lookup_fields]
  rfl

/-- The outline of an object refuses the keywords that the object refuses, when
the value of each is read exactly when its outline is. -/
theorem refused_outline {members : List (String × Json)}
    (h : ∀ m ∈ members, ∀ shape, readGiven? shape (Edit.outline.value shape m.2) = none ↔
      readGiven? shape m.2 = none) :
    Schema.refused (readFields (Edit.outline.node (Edit.outline.fields members))) =
      Schema.refused (readFields members) := by
  -- both lists of refused keywords are filtered from `Keyword.all`
  refine List.filter_congr fun k _ => ?_
  rw [lookup_readFields, lookup_readFields, lookup_outline_fields]
  cases hj : members.lookup k.name with
  | none => rfl
  | some j =>
    have hvalue := h _ (mem_of_lookup_eq_some hj) k.shape
    simp only [Option.map_some]
    cases hv : readGiven? k.shape j with
    | none => rw [hvalue.2 hv]
    | some v =>
      have hne : readGiven? k.shape (Edit.outline.value k.shape j) ≠ none := by
        rw [Ne, hvalue, hv]
        exact Option.some_ne_none v
      obtain ⟨v', hv'⟩ := Option.ne_none_iff_exists'.1 hne
      rw [hv']

/-- An entry is read exactly when its outline is, if that holds of it as a
node. -/
theorem readEntry?_outline_eq_none_iff {j : Json}
    (h : readGiven? .node (Edit.outline.value .node j) = none ↔ readGiven? .node j = none) :
    readEntry? (Edit.outline.entry j) = none ↔ readEntry? j = none := by
  cases j with
  | obj members => exact h
  | _ => exact iff_of_false nofun nofun

/-- **A value is read exactly when its outline is**, under every keyword. -/
theorem read_outline_eq_none_iff (j : Json) (shape : Shape) :
    readGiven? shape (Edit.outline.value shape j) = none ↔ readGiven? shape j = none := by
  induction j using Json.ind generalizing shape with
  | obj members ih =>
    -- the keyword of a member decides the shape, so the hypothesis is needed for every shape
    have hentry : readEntry? (Edit.outline.entry (.obj members)) = none ↔
        readEntry? (.obj members) = none := by
      change readEntry? (.obj (Edit.outline.node (Edit.outline.fields members))) = none ↔ _
      rw [← Schema.rejects_obj_iff_readEntry?, ← Schema.rejects_obj_iff_readEntry?,
        Schema.rejects_obj_iff, Schema.rejects_obj_iff, refused_outline ih]
    cases shape with
    | node | nodeOrList => exact hentry
    | nodeMap =>
      rw [Edit.value_nodeMap_obj, readGiven?_nodeMap_obj_eq_none_iff,
        readGiven?_nodeMap_obj_eq_none_iff]
      simp only [List.mem_map, exists_exists_and_eq_and]
      exact exists_congr fun m => and_congr_right fun hm =>
        readEntry?_outline_eq_none_iff (ih m hm .node)
    | _ => exact readGiven?_outline_scalar _ _
  | arr items ih =>
    cases shape with
    | nodeList | nodeOrList =>
      rw [Edit.value_arr _ rfl, readGiven?_arr_eq_none_iff rfl, readGiven?_arr_eq_none_iff rfl]
      simp only [List.mem_map, exists_exists_and_eq_and]
      exact exists_congr fun j => and_congr_right fun hj =>
        readEntry?_outline_eq_none_iff (ih j hj .node)
    | _ => exact readGiven?_outline_scalar _ _
  | _ => cases shape <;> exact readGiven?_outline_scalar _ _

end Value

namespace Schema

/-- The outline of an object is rejected for the same reason as the object, if
at all. -/
theorem readNode_outline_eq_error_iff (members : List (String × Json)) (e : ReadError) :
    readNode (Edit.outline.entry (.obj members)) = .error e ↔
      readNode (.obj members) = .error e := by
  change readNode (.obj (Edit.outline.node (Edit.outline.fields members))) = .error e ↔ _
  rw [readNode_obj_eq_error_iff, readNode_obj_eq_error_iff]
  simp only [read_eq_error_iff,
    Value.refused_outline fun m _ => Value.read_outline_eq_none_iff m.2]

/-- **An object is rejected exactly for the keywords that are spoilt.** It is
rejected when one is, and the error names those keywords and no others. What
spoils a keyword that holds schemas is a value of another kind or a schema in
it that is rejected itself, and taking all data out of the object changes
nothing. -/
theorem readNode_rejects_exactly (members : List (String × Json)) :
    (Rejects (.obj members) ↔ ∃ (k : Keyword) (j : Json),
      members.lookup k.name = some j ∧ Spoils k j) ∧
    (∀ e, readNode (.obj members) = .error e → ∃ bad, e = .refused bad ∧ bad.Sublist Keyword.all ∧
      ∀ k, k ∈ bad ↔ ∃ j, members.lookup k.name = some j ∧ Spoils k j) ∧
    (∀ k ∈ [Keyword.oneOf, .anyOf, .allOf], ∀ j, Spoils k j ↔
      j.kind ∉ [.null, .array] ∨ (j.kind = .array ∧ HasRejectedEntry j)) ∧
    (∀ k ∈ [Keyword.properties, .patternProperties, .dependencies, .definitions], ∀ j,
      Spoils k j ↔ j.kind ∉ [.null, .object] ∨ (j.kind = .object ∧ HasRejectedEntry j)) ∧
    (∀ j, Spoils .items j ↔ j.kind ∉ [.null, .boolean, .array, .object] ∨
      (j.kind = .array ∧ HasRejectedEntry j) ∨ (j.kind = .object ∧ Rejects j)) ∧
    (∀ k ∈ [Keyword.additionalItems, .contains, .additionalProperties, .propertyNames, .negation,
      .condition, .consequent, .alternative], ∀ j, Spoils k j ↔
        j.kind ∉ [.null, .boolean, .object] ∨ (j.kind = .object ∧ Rejects j)) ∧
    ∀ e, readNode (Edit.outline.entry (.obj members)) = .error e ↔
      readNode (.obj members) = .error e := by
  refine ⟨?_, fun e he => ?_, fun k hk j => ?_, fun k hk j => ?_, fun j => ?_, fun k hk j => ?_,
    readNode_outline_eq_error_iff members⟩
  · rw [rejects_obj_iff]
    exact exists_congr fun k => mem_refused_iff_spoils
  · obtain ⟨bad, hbad, rfl⟩ := readNode_obj_eq_error_iff.1 he
    obtain ⟨-, rfl⟩ := read_eq_error_iff.1 hbad
    exact ⟨_, rfl, List.filter_sublist, fun k => mem_refused_iff_spoils⟩
  · have hshape : ∀ k ∈ [Keyword.oneOf, .anyOf, .allOf], k.shape = .nodeList := by decide
    exact spoils_iff_of_nodeList (hshape k hk)
  · have hshape : ∀ k ∈ [Keyword.properties, .patternProperties, .dependencies, .definitions],
        k.shape = .nodeMap := by decide
    exact spoils_iff_of_nodeMap (hshape k hk)
  · exact spoils_iff_of_nodeOrList rfl
  · have hshape : ∀ k ∈ [Keyword.additionalItems, .contains, .additionalProperties,
        .propertyNames, .negation, .condition, .consequent, .alternative], k.shape = .node := by
      decide
    exact spoils_iff_of_node (hshape k hk)

end Schema

end SchemaProse
