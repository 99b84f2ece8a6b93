import SchemaProse.Proofs.Reading.Blame
import SchemaProse.Proofs.Synthesis.Entries
import SchemaProse.Proofs.Synthesis.Wrapper
import SchemaProse.Synthesis.Variable
/-!
# Synthesis — the variables of a server

A variable is read twice: as a variable, which looks at four fields and keeps
every other member as it is, and then as a schema, which looks at every member
that is a keyword. The fields of a variable fit the keywords of their names and
`type` is put in as a text, so the second reading fails for one reason only: a
member that the first one did not look at *clashes* with the keyword of its
name. Variables of which none clashes always make a schema, and a clash refuses
them all (`synthesize_ok_unless_clashes`).
-/

namespace SchemaProse

namespace ServerVariable

/-! ## Documents of variables -/

/-- The members of the property that is drafted for a variable: its own, with
the type `string` put in. -/
def documentMembers (v : ServerVariable) : List (String × Json) :=
  Json.putMember Keyword.type.name (.str Json.Kind.string.name) v.members

/-- The document that is drafted for some variables. -/
def draft (vs : List (String × ServerVariable)) : Json :=
  .obj (Schema.draft (vs.map fun m => (m.1, .obj m.2.documentMembers)) (some (vs.map Prod.fst)))

/-- A member that is no field of the variable has the name of a keyword and a
value that the keyword cannot have. A type is no matter, since it is replaced. -/
def Clashes (v : ServerVariable) : Prop :=
  ∃ k : Keyword, k ≠ .type ∧ ∃ j, v.extra.lookup k.name = some j ∧ Schema.Spoils k j

/-- The schema of variables that are given as they may be, if there are any. -/
def synthesize (entries : Option (List (String × Given read))) :
    Except Refusal (Option Schema) :=
  (readEach Given.read (entries.getD [])).bind schemaOf?

/-- On documents, this is reading all of them and then making the schema. -/
theorem synthesize_documents (documents : List (String × Json)) :
    synthesize (some (documents.map fun m => (m.1, .document m.2))) =
      (readAll documents).bind schemaOf? := by
  rw [synthesize, Option.getD_some, readEach_documents, readAll]

/-! ## Reading a variable -/

variable {v : ServerVariable}

/-- What is read of a variable: its fields, which fit, and its other members. -/
theorem exists_of_read {j : Json} (h : read j = .ok v) :
    ∃ members, j = .obj members ∧ refused members = [] ∧
      v = ⟨fieldShapes.filterMap fun f => (members.lookup f.1).map (f.1, ·),
        members.filter fun m => (fieldShapes.lookup m.1).isNone⟩ := by
  cases j with
  | obj members =>
    simp only [read] at h
    split at h
    next hrefused => exact ⟨members, rfl, hrefused, (Except.ok.inj h).symm⟩
    next => cases h
  | _ => cases h

/-- A field of a variable that was read is one of the four and fits. -/
theorem fits_of_read {j : Json} (h : read j = .ok v) {name : String} {i : Json}
    (hi : v.fields.lookup name = some i) :
    ∃ shape, (name, shape) ∈ fieldShapes ∧ fits shape i = true := by
  obtain ⟨members, -, hrefused, rfl⟩ := exists_of_read h
  obtain ⟨f, hf, hfi⟩ := List.mem_filterMap.1 (mem_of_lookup_eq_some hi)
  obtain ⟨i', hi', hpair⟩ := Option.map_eq_some_iff.1 hfi
  obtain ⟨rfl, rfl⟩ := Prod.mk.inj hpair
  refine ⟨f.2, hf, ?_⟩
  by_contra hfits
  -- a field that does not fit would have been refused
  have hmem : f.1 ∈ refused members := by
    refine List.mem_map.2 ⟨f, List.mem_filter.2 ⟨hf, ?_⟩, rfl⟩
    simpa [hi'] using hfits
  rw [hrefused] at hmem
  cases hmem

/-- No other member has the name of a field. -/
theorem lookup_extra_of_read {j : Json} (h : read j = .ok v) {name : String} {shape : Shape}
    (hname : (name, shape) ∈ fieldShapes) : v.extra.lookup name = none := by
  obtain ⟨members, -, -, rfl⟩ := exists_of_read h
  have hfield : (fieldShapes.lookup name).isSome = true :=
    lookup_isSome_iff_mem.2 (List.mem_map_of_mem hname)
  have hhidden := lookup_filter_name (fun name => (fieldShapes.lookup name).isNone) members name
  rw [hhidden, if_neg]
  simp [Option.isSome_iff_ne_none.1 hfield]

/-- A value that fits a shape is read under a scalar shape that takes as much. -/
theorem exists_readGiven?_of_fits {shape shape' : Shape} (hscalar : shape'.isScalar = true)
    (hshape : ∀ i, (shape.scalar? i).isSome = true → (shape'.scalar? i).isSome = true) {i : Json}
    (hi : fits shape i = true) : ∃ w, Value.readGiven? shape' i = some w := by
  cases hnull : i.isNull with
  | true => exact ⟨_, by rw [Value.readGiven?, hnull, if_pos rfl]⟩
  | false =>
    have hsome : (shape.scalar? i).isSome = true := by simpa [fits, hnull] using hi
    obtain ⟨i', hi'⟩ := Option.isSome_iff_exists.1 (hshape i hsome)
    refine ⟨.data i', ?_⟩
    rw [Value.readGiven?, hnull, if_neg (by simp), Value.read?_of_isScalar hscalar, hi',
      Option.map_some]

/-- **The fields of a variable fit the keywords of their names.** -/
theorem not_spoils_of_fits {k : Keyword} {shape : Shape} (hk : (k.name, shape) ∈ fieldShapes)
    {i : Json} (hi : fits shape i = true) : ¬ Schema.Spoils k i := by
  have hlist : ∀ i, (Shape.textList.scalar? i).isSome = true →
      (Shape.anyList.scalar? i).isSome = true := by
    intro i h
    cases i with
    | arr items => rfl
    | _ => cases h
  have hread : ∃ w, Value.readGiven? k.shape i = some w := by
    simp only [fieldShapes, List.mem_cons, Prod.mk.injEq, List.not_mem_nil, or_false] at hk
    rcases hk with ⟨hname, rfl⟩ | ⟨hname, rfl⟩ | ⟨hname, rfl⟩ | ⟨hname, rfl⟩
    · obtain rfl : k = .enum := Keyword.name_injective hname
      exact exists_readGiven?_of_fits rfl hlist hi
    · obtain rfl : k = .defaultValue := Keyword.name_injective hname
      exact exists_readGiven?_of_fits rfl (fun _ _ => rfl) hi
    · obtain rfl : k = .description := Keyword.name_injective hname
      exact exists_readGiven?_of_fits rfl (fun _ => id) hi
    · obtain rfl : k = .examples := Keyword.name_injective hname
      exact exists_readGiven?_of_fits rfl hlist hi
  obtain ⟨w, hw⟩ := hread
  rw [Schema.spoils_iff, hw]
  exact Option.some_ne_none w

/-- **A variable spoils a keyword exactly when a member clashes.** -/
theorem exists_spoilt_iff_clashes {j : Json} (h : read j = .ok v) :
    (∃ (k : Keyword) (i : Json), v.documentMembers.lookup k.name = some i ∧ Schema.Spoils k i) ↔
      v.Clashes := by
  have htype : ¬ Schema.Spoils .type (.str Json.Kind.string.name) := by
    rw [Schema.spoils_iff]
    exact Option.some_ne_none _
  have hlookup : ∀ {k : Keyword}, k ≠ .type → v.documentMembers.lookup k.name =
      (v.fields.lookup k.name).or (v.extra.lookup k.name) := by
    intro k hk
    have hname : k.name ≠ Keyword.type.name := fun e => hk (Keyword.name_injective e)
    rw [documentMembers, Json.lookup_putMember, if_neg hname, members, List.lookup_append]
  constructor
  · rintro ⟨k, i, hi, hspoils⟩
    by_cases hk : k = .type
    · subst hk
      rw [documentMembers, Json.lookup_putMember, if_pos rfl] at hi
      exact absurd (Option.some.inj hi ▸ hspoils) htype
    · rw [hlookup hk] at hi
      cases hfield : v.fields.lookup k.name with
      | none =>
        rw [hfield, Option.none_or] at hi
        exact ⟨k, hk, i, hi, hspoils⟩
      | some i' =>
        rw [hfield, Option.some_or] at hi
        obtain rfl := Option.some.inj hi
        obtain ⟨shape, hshape, hfits⟩ := fits_of_read h hfield
        exact absurd hspoils (not_spoils_of_fits hshape hfits)
  · rintro ⟨k, hk, i, hi, hspoils⟩
    have hfield : v.fields.lookup k.name = none := by
      refine Option.eq_none_iff_forall_ne_some.2 fun i' hi' => ?_
      obtain ⟨shape, hshape, -⟩ := fits_of_read h hi'
      rw [lookup_extra_of_read h hshape] at hi
      cases hi
    refine ⟨k, i, ?_, hspoils⟩
    rw [hlookup hk, hfield, Option.none_or, hi]

/-! ## The schema of some variables -/

/-- The property is read from the document that is drafted for it. -/
theorem read_propertyMembers (v : ServerVariable) :
    Schema.read v.propertyMembers = Schema.read v.documentMembers := by
  have hfilter : ∀ name, (v.members.filter fun m => m.1 != Keyword.type.name).lookup name =
      if name != Keyword.type.name then v.members.lookup name else none :=
    lookup_filter_name (fun name => name != Keyword.type.name) v.members
  refine Schema.read_congr (fun k => ?_) ?_
  · rw [propertyMembers, documentMembers, List.lookup_append, hfilter, Json.lookup_putMember]
    by_cases hk : k.name = Keyword.type.name
    · simp [hk]
    · simp [hk, List.lookup_cons, beq_false_of_ne hk]
  · have htype : (Keyword.ofName? Keyword.type.name).isNone = false := by decide
    have hothers : ∀ m ∈ v.members, ((Keyword.ofName? m.1).isNone && m.1 != Keyword.type.name) =
        (Keyword.ofName? m.1).isNone := by
      intro m _
      by_cases hm : m.1 = Keyword.type.name
      · simp [hm, htype]
      · simp [hm]
    rw [propertyMembers, documentMembers, Json.unknown_putMember, Schema.unknown, Schema.unknown,
      List.filter_append, List.filter_filter, List.filter_congr hothers]
    simp [htype]

/-- The properties are read from the documents drafted for the variables. -/
theorem properties?_eq (vs : List (String × ServerVariable)) :
    properties? vs = Value.readMembers? (vs.map fun m => (m.1, .obj m.2.documentMembers)) := by
  induction vs with
  | nil => rfl
  | cons m vs ih =>
    obtain ⟨name, v⟩ := m
    have hentry : Value.readEntry? (.obj v.documentMembers) =
        (Schema.read v.propertyMembers).toOption.map .schema := by
      rw [read_propertyMembers]
      rfl
    rw [List.map_cons, properties?, Value.readMembers?, hentry, ih]
    cases (Schema.read v.propertyMembers).toOption <;> rfl

variable {vs : List (String × ServerVariable)}

/-- The documents are not all read when a variable clashes. -/
theorem readMembers?_documents_eq_none_iff (h : ∀ m ∈ vs, ∃ j, read j = .ok m.2) :
    Value.readMembers? (vs.map fun m => (m.1, .obj m.2.documentMembers)) = none ↔
      ∃ m ∈ vs, m.2.Clashes := by
  rw [Value.readMembers?_eq_none_iff]
  simp only [List.mem_map, exists_exists_and_eq_and]
  refine exists_congr fun m => and_congr_right fun hm => ?_
  obtain ⟨j, hj⟩ := h m hm
  rw [← exists_spoilt_iff_clashes hj, ← Schema.rejects_obj_iff_readEntry?, Schema.rejects_obj_iff]
  exact exists_congr fun k => Schema.mem_refused_iff_spoils

/-- The schema that variables make, if there are any, or the refusal of its
properties. -/
theorem schemaOf?_of_ne_nil (h : vs ≠ []) :
    schemaOf? vs = match properties? vs with
      | some properties => .ok (some (.wrapper properties (some (vs.map Prod.fst))))
      | none => .error ⟨.schema, ["properties"]⟩ := by
  cases vs with
  | nil => exact absurd rfl h
  | cons m vs => rfl

/-- **The document drafted for variables is read as the schema that they
make**, or is refused for its properties. -/
theorem readNode_draft (vs : List (String × ServerVariable)) :
    Schema.readNode (draft vs) = match properties? vs with
      | some properties => .ok (.schema (.wrapper properties (some (vs.map Prod.fst))))
      | none => .error (.refused [.properties]) := by
  rw [draft, Schema.readNode, Schema.read_draft, properties?_eq]
  cases Value.readMembers? (vs.map fun m => (m.1, .obj m.2.documentMembers)) <;> rfl

/-- **Variables are refused together when one of them clashes, and make a
schema otherwise.** All of them have been read as variables, so that nothing
else can refuse them; and the document drafted for them is read or refused
alike. -/
theorem synthesize_ok_unless_clashes (entries : List (String × Given read)) (hne : entries ≠ [])
    (hread : ∀ m ∈ entries, ∃ v, m.2.read = .ok v) :
    ∃ vs, List.Forall₂ (fun m n => m.1 = n.1 ∧ m.2.read = .ok n.2) entries vs ∧
      ((∀ m ∈ vs, ¬ m.2.Clashes) →
        ∃ s, synthesize (some entries) = .ok (some s) ∧
          Schema.readNode (draft vs) = .ok (.schema s)) ∧
      ((∃ m ∈ vs, m.2.Clashes) →
        synthesize (some entries) = .error ⟨.schema, ["properties"]⟩ ∧
          Schema.readNode (draft vs) = .error (.refused [.properties])) := by
  obtain ⟨vs, hvs⟩ := exists_readEach_of_forall hread
  have hne' : vs ≠ [] := by
    rintro rfl
    exact hne (List.forall₂_nil_right_iff.1 (readEach_eq_ok_iff.1 hvs))
  have hrefused : properties? vs = none ↔ ∃ m ∈ vs, m.2.Clashes := by
    rw [properties?_eq, readMembers?_documents_eq_none_iff (exists_document_of_readEach hvs)]
  have hsynthesize : synthesize (some entries) = schemaOf? vs := by
    rw [synthesize, Option.getD_some, hvs, Except.bind]
  refine ⟨vs, readEach_eq_ok_iff.1 hvs, ?_⟩
  rw [hsynthesize, schemaOf?_of_ne_nil hne', readNode_draft]
  refine ⟨fun hnone => ?_, fun hsome => ?_⟩
  · cases hproperties : properties? vs with
    | none =>
      obtain ⟨m, hm, hclashes⟩ := hrefused.1 hproperties
      exact absurd hclashes (hnone m hm)
    | some properties => exact ⟨_, rfl, rfl⟩
  · rw [hrefused.2 hsome]
    exact ⟨rfl, rfl⟩

/-- A variable with a type and a length of its own; the length is one that a
schema can have. -/
def portVariable : Json :=
  .obj [("default", .str "8883"), ("type", .num (.int 5)), ("maxLength", .str "4"),
    ("x-secret", .bool true)]

theorem synthesize_portVariable :
    (∃ v, read portVariable = .ok v ∧ ¬ v.Clashes) ∧
      ∃ s, synthesize (some [("port", .document portVariable)]) = .ok (some s) ∧
        s.toJson.member? "properties" = some (.obj [("port",
          .obj [("default", .str "8883"), ("type", .str "string"), ("maxLength", .num (.int 4)),
            ("x-secret", .bool true)])]) := by
  have hread : read portVariable = .ok ⟨[("default", .str "8883")],
      [("type", .num (.int 5)), ("maxLength", .str "4"), ("x-secret", .bool true)]⟩ := rfl
  have hclashes : ¬ Clashes ⟨[("default", .str "8883")],
      [("type", .num (.int 5)), ("maxLength", .str "4"), ("x-secret", .bool true)]⟩ := by
    rintro ⟨k, hk, i, hi, hspoils⟩
    have hmem := mem_of_lookup_eq_some hi
    simp only [List.mem_cons, Prod.mk.injEq, List.not_mem_nil, or_false] at hmem
    rcases hmem with ⟨hname, -⟩ | ⟨hname, rfl⟩ | ⟨hname, -⟩
    · exact hk (Keyword.name_injective hname)
    · obtain rfl : k = .maxLength := Keyword.name_injective hname
      have hlength : Value.readGiven? .integer (.str "4") = some (.data (.num (.int 4))) := rfl
      exact nomatch hlength.symm.trans (Schema.spoils_iff.1 hspoils)
    · have hnone : Keyword.ofName? "x-secret" = none := by decide
      exact Keyword.ofName?_eq_none_iff.1 hnone k hname
  obtain ⟨vs, hvs, hok, -⟩ := synthesize_ok_unless_clashes [("port", .document portVariable)]
    (List.cons_ne_nil _ _) (List.forall_mem_singleton.2 ⟨_, hread⟩)
  have hnone : ∀ m ∈ vs, ¬ m.2.Clashes := by
    intro m hm
    obtain ⟨e, he, -, hm⟩ := exists_mem_of_forall₂ hvs hm
    obtain rfl := List.mem_singleton.1 he
    exact Except.ok.inj (hread.symm.trans hm) ▸ hclashes
  obtain ⟨s, hs, -⟩ := hok hnone
  refine ⟨⟨_, hread, hclashes⟩, s, hs, ?_⟩
  obtain rfl := Option.some.inj (Except.ok.inj hs)
  rfl

/-- A variable is accepted, and as the only variable it makes no schema: its
length is none that a schema can have. -/
theorem synthesize_unreadable_length :
    (∃ v, read (.obj [("default", .str "8883"), ("minLength", .str "four")]) = .ok v) ∧
      synthesize (some [("port",
        .document (.obj [("default", .str "8883"), ("minLength", .str "four")]))]) =
        .error ⟨.schema, ["properties"]⟩ :=
  ⟨⟨_, rfl⟩, rfl⟩

end ServerVariable

end SchemaProse
