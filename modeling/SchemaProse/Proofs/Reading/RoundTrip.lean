import SchemaProse.Proofs.Reading.Presence
/-!
# Reading — the written form reads back

`Schema.WellFormed` says what a schema has to be to come out of a reading: its
keywords in order, each with a value that fits the keyword's shape; no keyword
among the other members; and no identifier there without its keyword. Reading
yields well-formed schemas only (`wellFormed_of_read`), and a well-formed
schema is read back from its written form as it was (`read_written`). So what
has been read once, whatever the spelling of its values, is a fixed point of
writing and reading.
-/

namespace SchemaProse

mutual

/-- The value may stand under a keyword of a shape. -/
inductive Value.Fits : Shape → Value → Prop
  /-- An empty value, under every keyword. -/
  | null {shape : Shape} : Value.Fits shape (.data .null)
  /-- A value of the declared form. -/
  | scalar {shape : Shape} {j : Json} : shape.holds j = true → Value.Fits shape (.data j)
  /-- A truth value in the place of a node. -/
  | bool {shape : Shape} {b : Bool} : shape.takesNode = true → Value.Fits shape (.data (.bool b))
  /-- A schema in the place of a node. -/
  | schema {shape : Shape} {s : Schema} :
      shape.takesNode = true → Schema.WellFormed s → Value.Fits shape (.schema s)
  /-- A list of entries. -/
  | list {shape : Shape} {vs : List Value} :
      shape.takesList = true → (∀ v ∈ vs, Value.IsEntry v) → Value.Fits shape (.list vs)
  /-- Named entries. -/
  | map {ms : List (String × Value)} :
      (∀ m ∈ ms, Value.IsEntry m.2) → Value.Fits .nodeMap (.map ms)

/-- The value may be an entry of a list or map. -/
inductive Value.IsEntry : Value → Prop
  /-- Data other than an object. -/
  | data {j : Json} : j.kind ≠ .object → Value.IsEntry (.data j)
  /-- A schema. -/
  | schema {s : Schema} : Schema.WellFormed s → Value.IsEntry (.schema s)

/-- The schema may come out of a reading. -/
inductive Schema.WellFormed : Schema → Prop
  | intro {declared : List (Keyword × Value)} {extra : List (String × Json)} :
      (declared.map Prod.fst).Sublist Keyword.all →
      (∀ m ∈ declared, Value.Fits m.1.shape m.2) →
      (∀ m ∈ extra, Keyword.ofName? m.1 = none) →
      (∀ k : Keyword, k.identifier ∈ extra.map Prod.fst → k ∈ declared.map Prod.fst) →
      Schema.WellFormed ⟨declared, extra⟩

end

/-! ## Reading yields well-formed schemas -/

namespace Schema

variable {members : List (String × Json)} {s : Schema}

/-- An object whose members read into fitting values reads into a well-formed
schema. -/
theorem wellFormed_of_fits (h : read members = .ok s)
    (hfits : ∀ m ∈ members, ∀ shape v, Value.read? shape m.2 = some v → v.Fits shape) :
    s.WellFormed := by
  have horder := declared_sublist_of_read h
  have hcarried : ∀ k : Keyword, k.identifier ∈ s.extra.map Prod.fst →
      k ∈ s.declared.map Prod.fst := by
    intro k hk
    rw [extra_of_read h, ← lookup_isSome_iff_mem] at hk
    rw [← carries_iff_mem, carries_iff_of_read h, mem_misspelt_iff, ← lookup_isSome_iff_mem]
    cases members.lookup k.name <;> simp [hk]
  have hdeclared : ∀ m ∈ s.declared, m.2.Fits m.1.shape := by
    intro m hm
    rcases empty_or_exists_of_mem_declared h hm with hnull | ⟨j, hj, hv⟩
    -- an empty value fits every keyword
    · exact hnull ▸ .null
    · exact hfits _ hj _ _ hv
  have hother : ∀ m ∈ s.extra, Keyword.ofName? m.1 = none := by
    intro m hm
    rw [extra_of_read h] at hm
    exact Option.isNone_iff_eq_none.1 (List.mem_filter.1 hm).2
  obtain ⟨declared, extra⟩ := s
  exact .intro horder hdeclared hother hcarried

end Schema

/-- What is read from a value fits the shape, and what is read from an entry
is an entry. -/
theorem Value.fits_and_isEntry_of_read (j : Json) :
    (∀ shape v, Value.read? shape j = some v → v.Fits shape) ∧
      ∀ v, Value.readEntry? j = some v → v.IsEntry := by
  -- only an object is read as an entry other than data
  have hdata : ∀ {j : Json}, j.kind ≠ .object → ∀ v, Value.readEntry? j = some v →
      v.IsEntry := by
    intro j hkind v hv
    rw [readEntry?_of_kind hkind] at hv
    exact Option.some.inj hv ▸ .data hkind
  induction j using Json.ind with
  | obj members ih =>
    have hschema : ∀ {s}, Schema.read members = .ok s → s.WellFormed := fun hs =>
      Schema.wellFormed_of_fits hs fun m hm => (ih m hm).1
    refine ⟨fun shape v hv => ?_, fun v hv => ?_⟩
    · cases reads_of_read? hv with
      | scalar hj' => exact .scalar (Shape.holds_of_scalar? hj')
      | schema hnode hs => exact .schema hnode (hschema hs)
      | map hms =>
        refine .map fun n hn => ?_
        obtain ⟨m, hm, -, hmn⟩ := exists_mem_of_forall₂ (readMembers?_eq_some_iff.1 hms) hn
        exact (ih m hm).2 _ hmn
    · obtain ⟨s, hs, rfl⟩ := readEntry?_obj_eq_some_iff.1 hv
      exact .schema (hschema hs)
  | arr items ih =>
    refine ⟨fun shape v hv => ?_, hdata (by simp [Json.kind])⟩
    cases reads_of_read? hv with
    | scalar hj' => exact .scalar (Shape.holds_of_scalar? hj')
    | list hlist hvs =>
      refine .list hlist fun v hv => ?_
      obtain ⟨j, hj, hjv⟩ := exists_mem_of_forall₂ (readEntries?_eq_some_iff.1 hvs) hv
      exact (ih j hj).2 _ hjv
  | bool b =>
    refine ⟨fun shape v hv => ?_, hdata (by simp [Json.kind])⟩
    cases reads_of_read? hv with
    | scalar hj' => exact .scalar (Shape.holds_of_scalar? hj')
    | bool hnode => exact .bool hnode
  | _ =>
    refine ⟨fun shape v hv => ?_, hdata (by simp [Json.kind])⟩
    cases reads_of_read? hv with
    | scalar hj' => exact .scalar (Shape.holds_of_scalar? hj')

/-- **Reading yields well-formed schemas only.** -/
theorem Schema.wellFormed_of_read {members : List (String × Json)} {s : Schema}
    (h : read members = .ok s) : s.WellFormed :=
  wellFormed_of_fits h fun m _ => (Value.fits_and_isEntry_of_read m.2).1

/-! ## A well-formed schema reads back -/

namespace Schema

variable {s : Schema}

theorem WellFormed.order (h : s.WellFormed) : (s.declared.map Prod.fst).Sublist Keyword.all := by
  cases h with
  | intro order => exact order

theorem WellFormed.fits (h : s.WellFormed) : ∀ m ∈ s.declared, m.2.Fits m.1.shape := by
  cases h with
  | intro _ fits => exact fits

theorem WellFormed.other (h : s.WellFormed) : ∀ m ∈ s.extra, Keyword.ofName? m.1 = none := by
  cases h with
  | intro _ _ other => exact other

theorem WellFormed.carried (h : s.WellFormed) {k : Keyword}
    (hk : k.identifier ∈ s.extra.map Prod.fst) : k ∈ s.declared.map Prod.fst := by
  cases h with
  | intro _ _ _ carried => exact carried k hk

/-- A keyword is found in the written form where the schema declares it. -/
theorem lookup_written (hwf : s.WellFormed) (k : Keyword) :
    s.written.lookup k.name = (s.value? k).map Value.toJson := by
  rw [written, List.lookup_append, lookup_map_key Keyword.name_injective, value?]
  -- no other member has the name of a keyword, so the second list adds nothing
  refine Option.or_eq_left_of_none ?_
  rw [lookup_eq_none_iff_notMem, List.mem_map]
  rintro ⟨m, hm, hname⟩
  exact Keyword.ofName?_eq_none_iff.1 (hwf.other m hm) k hname.symm

/-- The members of the written form that are no keyword are the schema's other
members. -/
theorem unknown_written (hwf : s.WellFormed) : unknown s.written = s.extra := by
  rw [unknown, written, List.filter_append, List.filter_eq_nil_iff.2, List.nil_append,
    List.filter_eq_self.2]
  · intro m hm
    rw [hwf.other m hm, Option.isNone_none]
  · intro m hm
    obtain ⟨n, -, rfl⟩ := List.mem_map.1 hm
    simp [Keyword.ofName?_name]

/-- **A well-formed schema is read back from its written form** when the value
of each keyword is. -/
theorem read_written_of_readGiven? (hwf : s.WellFormed)
    (hvalues : ∀ m ∈ s.declared, Value.readGiven? m.1.shape m.2.toJson = some m.2) :
    read s.written = .ok s := by
  have hvalue : ∀ {k v}, s.value? k = some v → Value.readGiven? k.shape v.toJson = some v :=
    fun hv => hvalues _ (mem_of_lookup_eq_some hv)
  have hrefused : refused (Value.readFields s.written) = [] := by
    refine List.eq_nil_iff_forall_not_mem.2 fun k hk => ?_
    obtain ⟨j, hj, hnone⟩ := mem_refused_iff.1 hk
    rw [lookup_written hwf] at hj
    obtain ⟨v, hv, rfl⟩ := Option.map_eq_some_iff.1 hj
    rw [hvalue hv] at hnone
    cases hnone
  have hfield : ∀ k, field? (Value.readFields s.written) s.extra k = (s.value? k).map (k, ·) := by
    intro k
    have hlookup := lookup_written hwf k
    cases hv : s.value? k with
    | some v =>
      rw [hv, Option.map_some] at hlookup
      rw [field?_of_lookup_eq_some hlookup, hvalue hv]
    | none =>
      rw [hv, Option.map_none] at hlookup
      rw [field?_of_lookup_eq_none hlookup]
      -- the identifier of an absent keyword is not among the other members
      refine if_neg fun hidentifier => ?_
      exact lookup_eq_none_iff_notMem.1 hv (hwf.carried (lookup_isSome_iff_mem.1 hidentifier))
  have hdeclared : Keyword.all.filterMap (fun k => (s.value? k).map (k, ·)) = s.declared :=
    filterMap_lookup_of_sublist Keyword.nodup_all hwf.order
  refine read_eq_ok_iff.2 ⟨hrefused, ?_⟩
  rw [unknown_written hwf, funext hfield, hdeclared]
  cases s
  rfl

end Schema

/-- A fitting value is read back from its written form, and so is an entry. -/
theorem Value.read_toJson (v : Value) :
    (∀ shape, v.Fits shape → Value.readGiven? shape v.toJson = some v) ∧
      (v.IsEntry → Value.readEntry? v.toJson = some v) := by
  induction v using Value.ind with
  | data j =>
    refine ⟨fun shape h => ?_, fun h => ?_⟩
    · cases h with
      | null => rfl
      | scalar hj =>
        cases j with
        | null => rfl
        | _ => exact read?_of_reads (.scalar (Shape.scalar?_of_holds hj))
      | bool hnode => exact read?_of_reads (.bool hnode)
    · cases h with
      | data hkind => exact readEntry?_of_kind hkind
  | list vs ih =>
    refine ⟨fun shape h => ?_, fun h => nomatch h⟩
    cases h with
    | list hlist hvs =>
      have hentries : readEntries? (vs.map toJson) = some vs := by
        rw [readEntries?_eq_some_iff, List.forall₂_map_left_iff, List.forall₂_same]
        exact fun v hv => (ih v hv).2 (hvs v hv)
      rw [toJson, listToJson_eq_map]
      exact read?_of_reads (.list hlist hentries)
  | map ms ih =>
    refine ⟨fun shape h => ?_, fun h => nomatch h⟩
    cases h with
    | map hms =>
      have hentries : readMembers? (ms.map fun m => (m.1, m.2.toJson)) = some ms := by
        rw [readMembers?_eq_some_iff, List.forall₂_map_left_iff, List.forall₂_same]
        exact fun m hm => ⟨rfl, (ih m hm).2 (hms m hm)⟩
      rw [toJson, membersToJson_eq_map]
      exact read?_of_reads (.map hentries)
  | schema declared extra ih =>
    -- well-formedness gives the shape under which each declared value fits, and the induction
    -- hypothesis reads the value back under that shape
    have hread : ∀ {s : Schema}, s = ⟨declared, extra⟩ → s.WellFormed →
        Schema.read s.written = .ok s := by
      rintro s rfl hwf
      exact Schema.read_written_of_readGiven? hwf fun m hm =>
        (ih m hm).1 _ (hwf.fits m hm)
    refine ⟨fun shape h => ?_, fun h => ?_⟩
    · cases h with
      | schema hnode hwf =>
        rw [toJson, Schema.toJson_eq_written]
        exact read?_of_reads (.schema hnode (hread rfl hwf))
    · cases h with
      | schema hwf =>
        rw [toJson, Schema.toJson_eq_written]
        exact readEntry?_obj_eq_some_iff.2 ⟨_, hread rfl hwf, rfl⟩

namespace Schema

/-- **A well-formed schema is read back from its written form.** -/
theorem read_written {s : Schema} (hwf : s.WellFormed) : read s.written = .ok s :=
  read_written_of_readGiven? hwf fun m hm => (Value.read_toJson m.2).1 _ (hwf.fits m hm)

/-- **What has been read is a fixed point.** The written form of the node read
from a document is read as the same node, whatever spellings, other members,
empty values and nested nodes the document had. -/
theorem readNode_toJson {document : Json} {v : Value} (h : readNode document = .ok v) :
    readNode v.toJson = .ok v := by
  cases document with
  | obj members =>
    obtain ⟨s, hs, rfl⟩ := readNode_obj_eq_ok_iff.1 h
    rw [Value.toJson, toJson_eq_written, readNode_obj_eq_ok_iff]
    exact ⟨s, read_written (wellFormed_of_read hs), rfl⟩
  | bool b => exact Except.ok.inj h ▸ rfl
  | num n => cases n <;> cases h
  | _ => cases h

/-- An object with misspelt and empty keywords, values in other spellings, and
data that looks like a schema. -/
def manySpellings : List (String × Json) :=
  [("not_", .num (.int 1)), ("minLength", .str "+03.0"), ("exclusiveMinimum", .str "1"),
    ("deprecated", .null),
    ("items", .arr [.obj [("uniqueItems", .str "Yes")], .arr [.obj [("type", .null)]], .bool true]),
    ("x-note", .obj [("minLength", .str "3")])]

/-- The object as it is written: in declared order, with the values that are
meant, and with the misspelt keyword beside the one that it is taken for. -/
def plainSpellings : List (String × Json) :=
  [("deprecated", .null), ("exclusiveMinimum", .bool true), ("minLength", .num (.int 3)),
    ("items", .arr [.obj [("uniqueItems", .bool true)], .arr [.obj [("type", .null)]], .bool true]),
    ("not", .null), ("not_", .num (.int 1)), ("x-note", .obj [("minLength", .str "3")])]

theorem readNode_toJson_manySpellings :
    ∃ v, readNode (.obj manySpellings) = .ok v ∧ v.toJson = .obj plainSpellings ∧
      readNode (.obj plainSpellings) = .ok v := by
  have hwritten : (readNode (.obj manySpellings)).toOption.map Value.toJson =
      some (.obj plainSpellings) := rfl
  cases hv : readNode (.obj manySpellings) with
  | error e =>
    rw [hv] at hwritten
    cases hwritten
  | ok v =>
    rw [hv] at hwritten
    have hjson : v.toJson = .obj plainSpellings := Option.some.inj hwritten
    exact ⟨v, rfl, hjson, hjson ▸ readNode_toJson hv⟩

end Schema

end SchemaProse
