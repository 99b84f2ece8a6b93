import SchemaProse.Proofs.Reading.Tidy
import SchemaProse.Proofs.Signature.Documented
/-!
# Reading — the type text of what has been read

The type text of what is read from a document is the one that the document has
as it stands, but for misspelt keywords, which count as given. So it is that of
the document *completed*: at each schema position the misspelt keywords are
added, each with an empty value.
-/

namespace SchemaProse

/-! ## What a schema shows -/

namespace Schema

/-- At a schema position the edit keeps the values of the keywords, once these
are edited, and gives the misspelt keywords an empty value. -/
def CompletedBy (e : Edit) (members : List (String × Json)) : Prop :=
  ∀ k : Keyword, (e.node (e.fields members)).lookup k.name =
    match members.lookup k.name with
    | some j => some (e.value k.shape j)
    | none => if k ∈ misspelt members then some .null else none

variable {e : Edit} {members : List (String × Json)} {s : Schema}

/-- **What is read from an object and what the edited object gives**: nothing,
the value read and its edit, or an empty value. -/
theorem value?_cases (hread : read members = .ok s) (hcompleted : CompletedBy e members)
    (k : Keyword) :
    (s.value? k = none ∧ Document.given? (e.node (e.fields members)) k = none) ∨
      (s.value? k = some (.data .null) ∧
        Document.given? (e.node (e.fields members)) k = some .null) ∨
      ∃ j v, members.lookup k.name = some j ∧ Value.readGiven? k.shape j = some v ∧
        s.value? k = some v ∧
        Document.given? (e.node (e.fields members)) k = some (e.value k.shape j) := by
  rw [Document.given?, hcompleted k]
  cases hj : members.lookup k.name with
  | some j =>
    obtain ⟨v, hv, hs⟩ := value?_of_lookup_eq_some hread hj
    exact .inr (.inr ⟨j, v, rfl, hv, hs, rfl⟩)
  | none =>
    have hmisspelt : k ∈ misspelt members ↔
        ((unknown members).lookup k.identifier).isSome = true := by
      rw [mem_misspelt_iff, and_iff_right hj]
    rw [value?_of_lookup_eq_none hread hj]
    by_cases hk : k ∈ misspelt members
    · rw [if_pos (hmisspelt.1 hk)]
      exact .inr (.inl ⟨rfl, if_pos hk⟩)
    · rw [if_neg fun h => hk (hmisspelt.2 h)]
      exact .inl ⟨rfl, if_neg hk⟩

/-- **A schema shows the completed object that it is read from**, when what is
read under its keywords does. -/
theorem shows_of_read (hread : read members = .ok s) (hcompleted : CompletedBy e members)
    (hscalar : ∀ shape j, e.scalar shape j = j)
    (hvalues : ∀ (k : Keyword) j v, k.shape.takesNode = true → members.lookup k.name = some j →
      Value.readGiven? k.shape j = some v → v.Shows (e.value k.shape j)) :
    s.Shows (e.node (e.fields members)) where
  nodup := nodup_declared_of_read hread
  carries k := by
    rw [carries, Document.gives]
    rcases value?_cases hread hcompleted k with ⟨hs, hj⟩ | ⟨hs, hj⟩ | ⟨j, v, -, -, hs, hj⟩ <;>
      rw [hs, hj] <;> rfl
  data k hk := by
    rcases value?_cases hread hcompleted k with ⟨hs, hj⟩ | ⟨hs, hj⟩ | ⟨j, v, -, hv, hs, hj⟩
    · rw [hs, hj, Option.map_none]
    · rw [hs, hj, Option.map_some]
    · have hshapes : ∀ k ∈ [Keyword.type, .const, .enum], k.shape.isVerbatim = true := by
        decide
      have hshape := hshapes k hk
      rw [hs, hj, Option.map_some, e.value_of_isScalar (Shape.isScalar_of_isVerbatim hshape),
        hscalar, Value.eq_data_of_readGiven? hshape hv]
  nodes k hk := by
    have hshapes : ∀ k ∈ [Keyword.negation, .items, .additionalItems],
        k.shape.takesNode = true := by
      decide
    have hnode := hshapes k hk
    rcases value?_cases hread hcompleted k with ⟨hs, hj⟩ | ⟨hs, hj⟩ | ⟨j, v, hlookup, hv, hs, hj⟩
    · rw [hs, hj]
      exact .none
    · rw [hs, hj]
      exact .some .null
    · rw [hs, hj]
      exact .some (hvalues k j v hnode hlookup hv)

/-- The edit completes the object at every schema position. -/
def CompletedBelow (e : Edit) (members : List (String × Json)) : Prop :=
  ∀ inner, Position members inner → CompletedBy e inner

/-- A schema that stands under a keyword of a completed one is completed. -/
theorem CompletedBelow.under (h : CompletedBelow e members) {k : Keyword} {j : Json}
    (hj : members.lookup k.name = some j) {inner : List (String × Json)}
    (hstands : StandsIn k.shape j inner) : CompletedBelow e inner :=
  fun ms hms => h ms ((Position.under .root hj hstands).trans hms)

end Schema

/-- **What is read has the type text of the completed document**, a node under
a keyword and an entry alike. -/
theorem Value.shows_of_read {e : Edit} (hscalar : ∀ shape j, e.scalar shape j = j)
    (hdata : ∀ j, e.data j = j) (j : Json) :
    (∀ shape v, shape.takesNode = true →
      (∀ inner, StandsIn shape j inner → Schema.CompletedBelow e inner) →
      readGiven? shape j = some v → v.Shows (e.value shape j)) ∧
    ∀ v, (∀ inner, j = .obj inner → Schema.CompletedBelow e inner) →
      readEntry? j = some v → v.typeText = (e.entry j).typeText := by
  have hentry : ∀ {j : Json} {v}, j.kind ≠ .object → readEntry? j = some v →
      v.typeText = (e.entry j).typeText := by
    intro j v hkind hv
    rw [readEntry?_of_kind hkind] at hv
    obtain rfl := Option.some.inj hv
    rw [e.entry_of_kind hkind, hdata]
    cases j with
    | obj members => exact absurd rfl hkind
    | bool b => cases b <;> rfl
    | _ => rfl
  have hnone : ∀ {shape : Shape} {j j' : Json}, shape.takesNode = true →
      shape.scalar? j ≠ some j' := by
    intro shape j j' hnode
    rw [Shape.scalar?_of_takesNode hnode]
    simp
  induction j using Json.ind with
  | obj members ih =>
    have hobj : ∀ {s}, Schema.CompletedBelow e members → Schema.read members = .ok s →
        s.Shows (e.node (e.fields members)) := by
      intro s hcompleted hs
      exact Schema.shows_of_read hs (hcompleted _ .root) hscalar fun k j v hnode hj hv =>
        (ih _ (mem_of_lookup_eq_some hj)).1 _ _ hnode (fun inner => hcompleted.under hj) hv
    refine ⟨fun shape v hnode hcompleted hv => ?_, fun v hcompleted hv => ?_⟩
    · cases reads_of_read? hv with
      | scalar hj' => exact absurd hj' (hnone hnode)
      | schema _ hs =>
        have hshows := hobj (hcompleted _ (.node hnode)) hs
        rw [e.value_obj hnode]
        exact .schema hshows.isAny_eq hshows.typeText_eq
      | map => cases hnode
    · obtain ⟨s, hs, rfl⟩ := readEntry?_obj_eq_some_iff.1 hv
      exact (hobj (hcompleted _ rfl) hs).typeText_eq
  | arr items ih =>
    refine ⟨fun shape v hnode hcompleted hv => ?_, fun v _ => hentry (by simp [Json.kind])⟩
    cases reads_of_read? hv with
    | scalar hj' => exact absurd hj' (hnone hnode)
    | list hlist hvs =>
      rw [e.value_arr hlist]
      refine .list ?_
      rw [List.map_map]
      refine map_eq_map_of_forall₂ (readEntries?_eq_some_iff.1 hvs) fun j hj v hjv => ?_
      exact (ih j hj).2 v (fun inner hinner => hcompleted inner (.entry hlist (hinner ▸ hj))) hjv
  | null =>
    refine ⟨fun shape v _ _ hv => ?_, fun v _ => hentry (by simp [Json.kind])⟩
    rw [e.value_of_kind (by simp [Json.kind]) (by simp [Json.kind]), hscalar,
      ← Option.some.inj hv]
    exact .null
  | bool b =>
    refine ⟨fun shape v hnode _ hv => ?_, fun v _ => hentry (by simp [Json.kind])⟩
    rw [e.value_of_kind (by simp [Json.kind]) (by simp [Json.kind]), hscalar]
    cases reads_of_read? hv with
    | scalar hj' => exact absurd hj' (hnone hnode)
    | bool => exact .bool b
  | _ =>
    refine ⟨fun shape v hnode _ hv => ?_, fun v _ => hentry (by simp [Json.kind])⟩
    cases reads_of_read? hv with
    | scalar hj' => exact absurd hj' (hnone hnode)

/-! ## Completing a document -/

/-- Adding the misspelt keywords, each with an empty value. -/
def Edit.completed : Edit where
  node members := members ++ (Schema.misspelt members).map fun k => (k.name, .null)
  scalar _ j := j
  data := id

/-- Leaving a document as it is. -/
def Edit.same : Edit where
  node := id
  scalar _ j := j
  data := id

/-- An edit that changes nothing at a position changes nothing at all. -/
theorem Edit.same_eq (j : Json) : (∀ shape, same.value shape j = j) ∧ same.entry j = j := by
  have hleaf : ∀ {j : Json}, j.kind ≠ .object → j.kind ≠ .array →
      (∀ shape, same.value shape j = j) ∧ same.entry j = j := by
    intro j hobj harr
    exact ⟨fun shape => same.value_of_kind hobj harr shape, same.entry_of_kind hobj⟩
  have hmap : ∀ {α : Type} {f : α → α} {l : List α}, (∀ a ∈ l, f a = a) → l.map f = l :=
    fun h => (List.map_congr_left h).trans (List.map_id _)
  induction j using Json.ind with
  | obj members ih =>
    have hfields : same.fields members = members := by
      rw [same.fields_eq_map]
      refine hmap fun m hm => Prod.ext rfl ?_
      rw [field]
      cases Keyword.ofName? m.1 with
      | none => rfl
      | some k => exact (ih m hm).1 k.shape
    have hmembers : same.members members = members := by
      rw [same.members_eq_map]
      exact hmap fun m hm => Prod.ext rfl (ih m hm).2
    refine ⟨fun shape => ?_, congrArg Json.obj hfields⟩
    cases shape with
    | node | nodeOrList => exact congrArg Json.obj hfields
    | nodeMap => exact congrArg Json.obj hmembers
    | _ => rfl
  | arr items ih =>
    have hentries : same.entries items = items := by
      rw [same.entries_eq_map]
      exact hmap fun j hj => (ih j hj).2
    refine ⟨fun shape => ?_, rfl⟩
    cases shape with
    | nodeList | nodeOrList => exact congrArg Json.arr hentries
    | _ => rfl
  | _ => exact hleaf (by simp [Json.kind]) (by simp [Json.kind])

namespace Schema

variable {members : List (String × Json)}

/-- An edit of the values misspells no other keyword. -/
theorem misspelt_fields {e : Edit} (hdata : ∀ j, e.data j = j) (members : List (String × Json)) :
    misspelt (e.fields members) = misspelt members := by
  rw [misspelt, misspelt, e.unknown_fields hdata]
  refine List.filter_congr fun k _ => ?_
  rw [e.lookup_fields, Option.isNone_map]

/-- **Adding the misspelt keywords completes every object.** -/
theorem completedBy_completed (members : List (String × Json)) :
    CompletedBy Edit.completed members := by
  intro k
  have hadded : ∀ ks : List Keyword, (ks.map fun k => (k.name, Json.null)).lookup k.name =
      if k ∈ ks then some .null else none := by
    intro ks
    induction ks with
    | nil => rfl
    | cons k' ks ih =>
      rw [List.map_cons, List.lookup_cons, ih]
      by_cases hk : k = k'
      · simp [hk]
      · rw [beq_false_of_ne fun h => hk (Keyword.name_injective h)]
        simp [hk]
  have hnode : Edit.completed.node (Edit.completed.fields members) =
      Edit.completed.fields members ++
        (misspelt members).map fun k => (k.name, Json.null) := by
    rw [← misspelt_fields (e := Edit.completed) fun _ => rfl]
    rfl
  rw [hnode, List.lookup_append, Edit.lookup_fields, hadded]
  cases members.lookup k.name <;> rfl

/-- **An object without misspelt keywords is complete as it stands.** -/
theorem completedBy_same (h : misspelt members = []) : CompletedBy Edit.same members := by
  intro k
  have hnode : Edit.same.node (Edit.same.fields members) = Edit.same.fields members := rfl
  rw [hnode, Edit.lookup_fields, h]
  cases members.lookup k.name <;> rfl

/-- **The type text of a document.** A node has the type text of the document
that it is read from, where no keyword is misspelt at a schema position; and in
every case that of the document completed. -/
theorem typeText_eq_of_readNode {document : Json} {v : Value} (h : readNode document = .ok v) :
    ((∀ members, document = .obj members → WellSpelt members) →
      v.typeText = document.typeText) ∧
    v.typeText = (Edit.completed.entry document).typeText := by
  have hentry := readEntry?_of_readNode h
  constructor
  · intro hspelt
    have hcompleted : ∀ members, document = .obj members → CompletedBelow Edit.same members := by
      intro members hmembers inner hinner
      exact completedBy_same (hspelt members hmembers inner hinner)
    have htext :=
      (Value.shows_of_read (fun _ _ => rfl) (fun _ => rfl) document).2 v hcompleted hentry
    rwa [(Edit.same_eq document).2] at htext
  · have hcompleted : ∀ members, document = .obj members →
        CompletedBelow Edit.completed members := by
      intro members _ inner _
      exact completedBy_completed inner
    exact (Value.shows_of_read (fun _ _ => rfl) (fun _ => rfl) document).2 v hcompleted hentry

/-- A pair with an opaque second entry. -/
def pairDocument : List (String × Json) :=
  [("items", .arr [.obj [("const", .null)], .str "opaque"]), ("type", .str "array"),
    ("oneOf", .null)]

theorem typeText_pairDocument :
    ∃ v, readNode (.obj pairDocument) = .ok v ∧ WellSpelt pairDocument ∧
      v.typeText = Json.typeText (.obj pairDocument) ∧
      Json.typeText (.obj pairDocument) = "tuple<string, UNKNOWN, ...optional<ANY>> oneOf" := by
  have hpositions : ∀ inner, Position pairDocument inner →
      inner = pairDocument ∨ inner = [("const", .null)] := by
    intro inner hinner
    induction hinner with
    | root => exact .inl rfl
    | @under ms inner k j _ hj hstands ih =>
      have hmem := mem_of_lookup_eq_some hj
      generalize k.shape = shape at hstands
      rcases ih with rfl | rfl
      · simp only [pairDocument, List.mem_cons, Prod.mk.injEq, List.not_mem_nil, or_false] at hmem
        rcases hmem with ⟨-, rfl⟩ | ⟨-, rfl⟩ | ⟨-, rfl⟩
        · cases hstands with
          | entry _ hm => exact .inr (by simpa using hm)
        · cases hstands
        · cases hstands
      · simp only [List.mem_cons, Prod.mk.injEq, List.not_mem_nil, or_false] at hmem
        obtain ⟨-, rfl⟩ := hmem
        cases hstands
  have hspelt : WellSpelt pairDocument := by
    intro inner hinner
    rcases hpositions inner hinner with rfl | rfl <;> decide +kernel
  obtain ⟨v, hv⟩ : ∃ v, readNode (.obj pairDocument) = .ok v := ⟨_, rfl⟩
  refine ⟨v, hv, hspelt, (typeText_eq_of_readNode hv).1 fun members hmembers => ?_,
    by decide +kernel⟩
  exact Json.obj.inj hmembers ▸ hspelt

/-- An object with the one member `min_length` gives no constraining keyword,
but the node read from it is not any and has no type text. -/
theorem typeText_minLength_of_identifier :
    ∃ v, readNode (.obj [("min_length", .num (.int 3))]) = .ok v ∧ v.typeText = "" ∧
      Json.typeText (.obj [("min_length", .num (.int 3))]) = "ANY" :=
  ⟨_, rfl, by decide +kernel, by decide +kernel⟩

end Schema

end SchemaProse
