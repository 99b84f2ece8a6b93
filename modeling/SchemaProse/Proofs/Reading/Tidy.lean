import SchemaProse.Proofs.Reading.Document
import SchemaProse.Proofs.Reading.Presence
/-!
# Reading — what writing changes

The written form of what has been read is the document made *tidy*: at each
schema position the keywords come first, in their own order, and the other
members follow as they came; a scalar value that does not have the declared
form is replaced by the value meant; and nothing else changes. This holds where
no keyword is misspelt, since a misspelt one is written as an empty keyword.
-/

namespace SchemaProse

namespace Schema

/-- The members of a schema position in the order of writing: the keywords
first, then the members that are no keyword. -/
def arranged (members : List (String × Json)) : List (String × Json) :=
  (Keyword.all.filterMap fun k => (members.lookup k.name).map (k.name, ·)) ++ unknown members

end Schema

/-- The value that a scalar stands for: itself when it has the declared form or
no reading. -/
def Shape.meant (shape : Shape) (j : Json) : Json :=
  if shape.holds j then j else (shape.scalar? j).getD j

/-- A scalar that is read stands for the value that it is read as. -/
theorem Shape.meant_of_scalar? {shape : Shape} {j j' : Json} (h : shape.scalar? j = some j') :
    shape.meant j = j' := by
  unfold meant
  split
  next hj =>
    rw [scalar?_of_holds hj] at h
    exact Option.some.inj h
  next => rw [h, Option.getD_some]

/-- Making a document tidy. -/
def Edit.tidy : Edit where
  node := Schema.arranged
  scalar := Shape.meant
  data := id

/-- An empty value stays empty. -/
theorem Edit.tidy_value_null (shape : Shape) : tidy.value shape .null = .null := by
  cases shape <;> rfl

/-- A truth value in the place of a node stays as it is. -/
theorem Edit.tidy_value_bool {shape : Shape} (h : shape.takesNode = true) (b : Bool) :
    tidy.value shape (.bool b) = .bool b := by
  cases shape with
  | node | nodeOrList => rfl
  | _ => cases h

namespace Schema

/-- No keyword is misspelt at a schema position of the object. -/
def WellSpelt (members : List (String × Json)) : Prop :=
  ∀ inner, Position members inner → misspelt inner = []

variable {members : List (String × Json)} {s : Schema}

/-- A schema that stands under a keyword of a well-spelt one is well spelt. -/
theorem WellSpelt.under (h : WellSpelt members) {k : Keyword} {j : Json}
    (hj : members.lookup k.name = some j) {inner : List (String × Json)}
    (hstands : StandsIn k.shape j inner) : WellSpelt inner :=
  fun ms hms => h ms ((Position.under .root hj hstands).trans hms)

/-- **Arranging changes the order only**, when no name is repeated. -/
theorem arranged_perm (hn : (members.map Prod.fst).Nodup) : (arranged members).Perm members := by
  -- both lists are without repetition and have the same members, the keywords of the object
  have hknown : (Keyword.all.filterMap fun k => (members.lookup k.name).map (k.name, ·)).Perm
      (members.filter fun m => (Keyword.ofName? m.1).isSome) := by
    refine (List.perm_ext_iff_of_nodup ?_ (hn.of_map.filter _)).2 fun m => ?_
    · refine Keyword.nodup_all.filterMap fun k k' m hk hk' => ?_
      obtain ⟨j, -, rfl⟩ := Option.map_eq_some_iff.1 hk
      obtain ⟨j', -, hm⟩ := Option.map_eq_some_iff.1 hk'
      exact Keyword.name_injective (congrArg Prod.fst hm).symm
    · rw [List.mem_filterMap, List.mem_filter, Option.isSome_iff_exists]
      constructor
      · rintro ⟨k, -, hk⟩
        obtain ⟨j, hj, rfl⟩ := Option.map_eq_some_iff.1 hk
        exact ⟨mem_of_lookup_eq_some hj, k, Keyword.ofName?_name k⟩
      · rintro ⟨hm, k, hk⟩
        obtain ⟨name, j⟩ := m
        obtain rfl := Keyword.ofName?_eq_some_iff.1 hk
        exact ⟨k, Keyword.mem_all k, by rw [(lookup_eq_some_iff_mem hn).2 hm, Option.map_some]⟩
  have hunknown : unknown members = members.filter fun m => !(Keyword.ofName? m.1).isSome := by
    simp [unknown]
  rw [arranged, hunknown]
  exact (hknown.append_right _).trans (List.filter_append_perm _ _)

/-- An object without misspelt keywords is written as its members, tidy and
arranged, when the value of each keyword is written tidy. -/
theorem written_eq_arranged (h : read members = .ok s) (hspelt : misspelt members = [])
    (hvalues : ∀ (k : Keyword) j v, members.lookup k.name = some j →
      Value.readGiven? k.shape j = some v → v.toJson = Edit.tidy.value k.shape j) :
    s.written = arranged (Edit.tidy.fields members) := by
  have hfield : ∀ k : Keyword, (field? (Value.readFields members) (unknown members) k).map
      (fun m => (m.1.name, m.2.toJson)) =
        ((Edit.tidy.fields members).lookup k.name).map (k.name, ·) := by
    intro k
    rw [Edit.lookup_fields]
    cases hj : members.lookup k.name with
    | some j =>
      obtain ⟨v, hv, -⟩ := value?_of_lookup_eq_some h hj
      rw [field?_of_lookup_eq_some hj, hv, Option.map_some, Option.map_some, Option.map_some,
        Option.map_some, hvalues k j v hj hv]
    | none =>
      -- the schema would hold an empty value here only if the keyword were misspelt
      have hidentifier : ¬ ((unknown members).lookup k.identifier).isSome = true := fun hk => by
        have hmem := mem_misspelt_iff.2 ⟨hj, hk⟩
        rw [hspelt] at hmem
        cases hmem
      rw [field?_of_lookup_eq_none hj, if_neg hidentifier]
      rfl
  rw [written, arranged, Edit.unknown_fields _ fun _ => rfl, (read_eq_ok_iff.1 h).2]
  simp only [List.map_filterMap, hfield]

end Schema

/-- **What is read is written tidy**, a value and an entry alike, when no
keyword is misspelt at a schema position in it. -/
theorem Value.toJson_eq_tidy (j : Json) :
    (∀ shape v, (∀ inner, StandsIn shape j inner → Schema.WellSpelt inner) →
      Value.readGiven? shape j = some v → v.toJson = Edit.tidy.value shape j) ∧
    ∀ v, (∀ inner, j = .obj inner → Schema.WellSpelt inner) →
      Value.readEntry? j = some v → v.toJson = Edit.tidy.entry j := by
  have hscalar : ∀ {shape : Shape} {j j' : Json}, shape.scalar? j = some j' →
      toJson (.data j') = Edit.tidy.value shape j := by
    intro shape j j' hj'
    rw [Edit.value_of_isScalar _ (Shape.isScalar_of_holds (Shape.holds_of_scalar? hj'))]
    exact (Shape.meant_of_scalar? hj').symm
  have hdata : ∀ {j : Json} {v}, j.kind ≠ .object → readEntry? j = some v →
      v.toJson = Edit.tidy.entry j := by
    intro j v hkind hv
    rw [readEntry?_of_kind hkind] at hv
    rw [Edit.entry_of_kind _ hkind, ← Option.some.inj hv]
    rfl
  induction j using Json.ind with
  | obj members ih =>
    -- an object is written alike under a keyword and as an entry
    have hwritten : ∀ {s}, Schema.WellSpelt members → Schema.read members = .ok s →
        toJson (.schema s) = Edit.tidy.entry (.obj members) := by
      intro s hspelt hs
      have hmembers := Schema.written_eq_arranged hs (hspelt _ .root) fun k j v hj hv =>
        (ih _ (mem_of_lookup_eq_some hj)).1 _ _ (fun inner => hspelt.under hj) hv
      rw [toJson, Schema.toJson_eq_written, hmembers]
      rfl
    refine ⟨fun shape v hspelt hv => ?_, fun v hspelt hv => ?_⟩
    · cases reads_of_read? hv with
      | scalar hj' => exact hscalar hj'
      | schema hnode hs =>
        rw [Edit.value_obj _ hnode]
        exact hwritten (hspelt _ (.node hnode)) hs
      | map hms =>
        rw [toJson, membersToJson_eq_map, Edit.value_nodeMap_obj]
        congr 1
        refine map_eq_map_of_forall₂ (readMembers?_eq_some_iff.1 hms) fun m hm n hmn => ?_
        have hinner : ∀ inner, m.2 = .obj inner → StandsIn .nodeMap (.obj members) inner := by
          intro inner h
          have hmem : (m.1, Json.obj inner) ∈ members := h ▸ hm
          exact .member hmem
        rw [hmn.1, (ih m hm).2 n.2 (fun inner h => hspelt inner (hinner inner h)) hmn.2]
    · obtain ⟨s, hs, rfl⟩ := readEntry?_obj_eq_some_iff.1 hv
      exact hwritten (hspelt _ rfl) hs
  | arr items ih =>
    refine ⟨fun shape v hspelt hv => ?_, fun v _ => hdata (by simp [Json.kind])⟩
    cases reads_of_read? hv with
    | scalar hj' => exact hscalar hj'
    | list hlist hvs =>
      rw [toJson, listToJson_eq_map, Edit.value_arr _ hlist]
      congr 1
      refine map_eq_map_of_forall₂ (readEntries?_eq_some_iff.1 hvs) fun j hj v hjv => ?_
      exact (ih j hj).2 v (fun inner hinner => hspelt inner (.entry hlist (hinner ▸ hj))) hjv
  | null =>
    refine ⟨fun shape v _ hv => ?_, fun v _ => hdata (by simp [Json.kind])⟩
    rw [← Option.some.inj hv, Edit.tidy_value_null]
    rfl
  | bool b =>
    refine ⟨fun shape v _ hv => ?_, fun v _ => hdata (by simp [Json.kind])⟩
    cases reads_of_read? hv with
    | scalar hj' => exact hscalar hj'
    | bool hnode =>
      rw [Edit.tidy_value_bool hnode]
      rfl
  | _ =>
    refine ⟨fun shape v _ hv => ?_, fun v _ => hdata (by simp [Json.kind])⟩
    cases reads_of_read? hv with
    | scalar hj' => exact hscalar hj'

namespace Schema

variable {members : List (String × Json)} {v : Value}

/-- **Reading and writing loses nothing and invents nothing.** Where no keyword
is misspelt at a schema position, the written form of what is read is the
document made tidy: values of another spelling are replaced by the values
meant, and the members of the schema positions are arranged, which changes
their order only. -/
theorem toJson_eq_tidy_of_wellSpelt (h : readNode (.obj members) = .ok v)
    (hspelt : WellSpelt members) :
    v.toJson = Edit.tidy.entry (.obj members) ∧
      ∀ inner, (inner.map Prod.fst).Nodup → (arranged inner).Perm inner := by
  have hentry := readEntry?_of_readNode h
  refine ⟨(Value.toJson_eq_tidy (.obj members)).2 _ (fun inner hinner => ?_) hentry,
    fun inner hn => arranged_perm hn⟩
  obtain rfl := Json.obj.inj hinner
  exact hspelt

/-- A schema with a member out of order and a number in another spelling. -/
def oneBranch : List (String × Json) :=
  [("x-a", .null), ("title", .str "t"), ("minLength", .str "+03.0")]

/-- A schema with that one as a branch, beside data that looks like a schema. -/
def oneChoice : List (String × Json) :=
  [("x-note", .str "n"),
    ("oneOf", .arr [.arr [.obj [("minLength", .str "3")]], .obj oneBranch, .bool true]),
    ("minLength", .bool true)]

theorem toJson_oneChoice :
    ∃ v, readNode (.obj oneChoice) = .ok v ∧ WellSpelt oneChoice ∧
      v.toJson = .obj [("minLength", .num (.int 1)),
        ("oneOf", .arr [.arr [.obj [("minLength", .str "3")]],
          .obj [("title", .str "t"), ("minLength", .num (.int 3)), ("x-a", .null)], .bool true]),
        ("x-note", .str "n")] := by
  have hpositions : ∀ inner, Position oneChoice inner → inner = oneChoice ∨ inner = oneBranch := by
    intro inner hinner
    induction hinner with
    | root => exact .inl rfl
    | @under ms inner k j _ hj hstands ih =>
      have hmem := mem_of_lookup_eq_some hj
      generalize k.shape = shape at hstands
      rcases ih with rfl | rfl
      · simp only [oneChoice, List.mem_cons, Prod.mk.injEq, List.not_mem_nil, or_false] at hmem
        rcases hmem with ⟨-, rfl⟩ | ⟨-, rfl⟩ | ⟨-, rfl⟩
        · cases hstands
        · cases hstands with
          | entry _ hm => exact .inr (by simpa using hm)
        · cases hstands
      · simp only [oneBranch, List.mem_cons, Prod.mk.injEq, List.not_mem_nil, or_false] at hmem
        rcases hmem with ⟨-, rfl⟩ | ⟨-, rfl⟩ | ⟨-, rfl⟩ <;> cases hstands
  have hspelt : WellSpelt oneChoice := by
    intro inner hinner
    rcases hpositions inner hinner with rfl | rfl <;> decide +kernel
  obtain ⟨s, hs⟩ := exists_read_of_refused_eq_nil
    (show refused (Value.readFields oneChoice) = [] by decide +kernel)
  have hread := readNode_obj_eq_ok_iff.2 ⟨s, hs, rfl⟩
  refine ⟨_, hread, hspelt, (toJson_eq_tidy_of_wellSpelt hread hspelt).1.trans ?_⟩
  rfl

end Schema

end SchemaProse
