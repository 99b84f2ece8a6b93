import SchemaProse.Proofs.Reading.RoundTrip
/-!
# Reading — distinct names

A document comes from a text in which no object names a member twice. Reading
keeps it so: the value that is read is written without repeated names, at every
depth (`distinctNames_of_read`), although keywords may be read that no member
names.
-/

namespace SchemaProse

/-- No object of the value names a member twice. -/
inductive Json.DistinctNames : Json → Prop
  /-- A value without parts. -/
  | leaf {j : Json} : j.kind ≠ .array → j.kind ≠ .object → Json.DistinctNames j
  /-- An array, item by item. -/
  | arr {items : List Json} : (∀ j ∈ items, Json.DistinctNames j) → Json.DistinctNames (.arr items)
  /-- An object with distinct names, member by member. -/
  | obj {members : List (String × Json)} : (members.map Prod.fst).Nodup →
      (∀ m ∈ members, Json.DistinctNames m.2) → Json.DistinctNames (.obj members)

namespace Json.DistinctNames

theorem items {items : List Json} (h : DistinctNames (.arr items)) :
    ∀ j ∈ items, j.DistinctNames := by
  cases h with
  | leaf harr _ => exact absurd rfl harr
  | arr hitems => exact hitems

theorem names {members : List (String × Json)} (h : DistinctNames (.obj members)) :
    (members.map Prod.fst).Nodup := by
  cases h with
  | leaf _ hobj => exact absurd rfl hobj
  | obj hnames _ => exact hnames

theorem values {members : List (String × Json)} (h : DistinctNames (.obj members)) :
    ∀ m ∈ members, m.2.DistinctNames := by
  cases h with
  | leaf _ hobj => exact absurd rfl hobj
  | obj _ hvalues => exact hvalues

/-- Leaving members out repeats no name. -/
theorem sublist {members members' : List (String × Json)} (h : DistinctNames (.obj members))
    (hsub : members'.Sublist members) : DistinctNames (.obj members') :=
  .obj ((hsub.map _).nodup h.names) fun m hm => h.values m (hsub.subset hm)

theorem null : DistinctNames .null :=
  .leaf nofun nofun

theorem bool (b : Bool) : DistinctNames (.bool b) :=
  .leaf nofun nofun

theorem str (s : String) : DistinctNames (.str s) :=
  .leaf nofun nofun

end Json.DistinctNames

namespace Shape

variable {shape : Shape}

/-- Only a shape whose values are kept as they are given takes values with
parts. -/
theorem isVerbatim_of_holds {j : Json} (h : shape.holds j = true)
    (hj : j.kind = .array ∨ j.kind = .object) : shape.isVerbatim = true := by
  cases j with
  | arr items => cases shape <;> first | rfl | cases h
  | obj members => cases shape <;> first | rfl | cases h
  | _ => rcases hj with hkind | hkind <;> cases hkind

/-- A scalar is kept as it is given, or is read as a value without parts. -/
theorem distinctNames_of_scalar? {j j' : Json} (h : shape.scalar? j = some j')
    (hj : j.DistinctNames) : j'.DistinctNames := by
  cases hverbatim : shape.isVerbatim with
  | true => exact eq_of_scalar? hverbatim h ▸ hj
  | false =>
    have hparts : ¬ (j'.kind = .array ∨ j'.kind = .object) := fun hkind => by
      rw [isVerbatim_of_holds (holds_of_scalar? h) hkind] at hverbatim
      cases hverbatim
    obtain ⟨harr, hobj⟩ := not_or.1 hparts
    exact .leaf harr hobj

end Shape

namespace Schema

variable {members : List (String × Json)} {s : Schema}

/-- An object without repeated names reads into a schema that is written
without them, when its members do. -/
theorem distinctNames_of_values (h : read members = .ok s)
    (hmembers : (Json.obj members).DistinctNames)
    (hvalues : ∀ m ∈ members, ∀ shape v, Value.read? shape m.2 = some v →
      v.toJson.DistinctNames) : s.toJson.DistinctNames := by
  have hnames : (s.written.map Prod.fst).Nodup := by
    rw [map_fst_written]
    exact nodup_keywords_of_read h hmembers.names
  rw [toJson_eq_written]
  refine .obj hnames fun m hm => ?_
  rcases List.mem_append.1 hm with hm | hm
  · obtain ⟨d, hd, rfl⟩ := List.mem_map.1 hm
    rcases empty_or_exists_of_mem_declared h hd with hnull | ⟨j, hj, hv⟩
    · rw [hnull]
      exact .null
    · exact hvalues _ hj _ _ hv
  · rw [extra_of_read h] at hm
    exact hmembers.values m (List.mem_filter.1 hm).1

end Schema

/-- **What is read from a value without repeated names is written without
them**, and so is what is read from an entry. -/
theorem Value.distinctNames_of_read (j : Json) (hj : j.DistinctNames) :
    (∀ shape v, Value.read? shape j = some v → v.toJson.DistinctNames) ∧
      ∀ v, Value.readEntry? j = some v → v.toJson.DistinctNames := by
  -- data is kept as it is, and only an object is read as an entry other than data
  have hdata : ∀ {j : Json}, j.kind ≠ .object → j.DistinctNames →
      ∀ v, Value.readEntry? j = some v → v.toJson.DistinctNames := by
    intro j hkind hj v hv
    rw [readEntry?_of_kind hkind] at hv
    exact Option.some.inj hv ▸ hj
  induction j using Json.ind with
  | obj members ih =>
    have hread : ∀ m ∈ members, _ := fun m hm => ih m hm (hj.values m hm)
    have hschema : ∀ {s}, Schema.read members = .ok s → s.toJson.DistinctNames := fun hs =>
      Schema.distinctNames_of_values hs hj fun m hm => (hread m hm).1
    refine ⟨fun shape v hv => ?_, fun v hv => ?_⟩
    · cases reads_of_read? hv with
      | scalar hj' => exact Shape.distinctNames_of_scalar? hj' hj
      | schema _ hs => exact hschema hs
      | @map _ ms hms =>
        have hforall := readMembers?_eq_some_iff.1 hms
        have hnames : ms.map Prod.fst = members.map Prod.fst :=
          map_eq_map_of_forall₂ hforall fun m _ n hmn => hmn.1.symm
        rw [toJson, membersToJson_eq_map]
        refine .obj ?_ fun n hn => ?_
        · rw [List.map_map]
          exact hnames ▸ hj.names
        · obtain ⟨n', hn', rfl⟩ := List.mem_map.1 hn
          obtain ⟨m, hm, -, hmn⟩ := exists_mem_of_forall₂ hforall hn'
          exact (hread m hm).2 _ hmn
    · obtain ⟨s, hs, rfl⟩ := readEntry?_obj_eq_some_iff.1 hv
      exact hschema hs
  | arr items ih =>
    refine ⟨fun shape v hv => ?_, hdata (by simp [Json.kind]) hj⟩
    cases reads_of_read? hv with
    | scalar hj' => exact Shape.distinctNames_of_scalar? hj' hj
    | list _ hvs =>
      rw [toJson, listToJson_eq_map]
      refine .arr fun i hi => ?_
      obtain ⟨v, hv, rfl⟩ := List.mem_map.1 hi
      obtain ⟨j, hjmem, hjv⟩ := exists_mem_of_forall₂ (readEntries?_eq_some_iff.1 hvs) hv
      exact (ih j hjmem (hj.items j hjmem)).2 _ hjv
  | bool b =>
    refine ⟨fun shape v hv => ?_, hdata (by simp [Json.kind]) hj⟩
    cases reads_of_read? hv with
    | scalar hj' => exact Shape.distinctNames_of_scalar? hj' hj
    | bool _ => exact .bool b
  | _ =>
    refine ⟨fun shape v hv => ?_, hdata (by simp [Json.kind]) hj⟩
    cases reads_of_read? hv with
    | scalar hj' => exact Shape.distinctNames_of_scalar? hj' hj

end SchemaProse
