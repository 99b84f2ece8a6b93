import SchemaProse.Proofs.Reading.Document
import SchemaProse.Proofs.Schema.Agreement
/-!
# Reading — edits that keep the constraints

An edit *keeps the constraints* when it leaves scalar values and data and, at a
single schema position, all that the constraining keywords are read from. What
is read from a document then agrees with what is read from its edit, however
deep the edited positions are (`Value.exists_read_alike`).
-/

namespace SchemaProse

/-- The edit leaves what constraining keywords are read from. -/
structure Edit.KeepsConstraints (e : Edit) : Prop where
  /-- Scalar values stay as they are. -/
  scalar : ∀ shape j, e.scalar shape j = j
  /-- So does data. -/
  data : ∀ j, e.data j = j
  /-- The edited members of an object are read, with the same values under the
  constraining keywords. -/
  node : ∀ members s, Schema.read members = .ok s → ∃ t, Schema.read (e.node members) = .ok t ∧
    ∀ k ∈ Keyword.constraining, t.value? k = s.value? k

namespace Schema

variable {members : List (String × Json)} {s : Schema}

/-- **Values that are read alike make schemas that agree**, when no other
member is changed. -/
theorem exists_read_fields_agree {e : Edit} (hdata : ∀ j, e.data j = j)
    (h : read members = .ok s)
    (hvalues : ∀ (k : Keyword) j v, members.lookup k.name = some j →
      Value.readGiven? k.shape j = some v →
      ∃ w, Value.readGiven? k.shape (e.value k.shape j) = some w ∧ v.Alike w) :
    ∃ t, read (e.fields members) = .ok t ∧ s.Agree t := by
  have hread : ∃ t, read (e.fields members) = .ok t := by
    refine exists_read_of_forall fun k j' hj' => ?_
    rw [Edit.lookup_fields] at hj'
    obtain ⟨j, hj, rfl⟩ := Option.map_eq_some_iff.1 hj'
    obtain ⟨v, hv, -⟩ := value?_of_lookup_eq_some h hj
    obtain ⟨w, hw, -⟩ := hvalues k j v hj hv
    exact ⟨w, hw⟩
  obtain ⟨t, ht⟩ := hread
  refine ⟨t, ht, nodup_declared_of_read h, nodup_declared_of_read ht, fun k _ => ?_⟩
  have hlookup := e.lookup_fields members k
  cases hj : members.lookup k.name with
  | some j =>
    obtain ⟨v, hv, hsv⟩ := value?_of_lookup_eq_some h hj
    obtain ⟨w, hw, hvw⟩ := hvalues k j v hj hv
    rw [hj, Option.map_some] at hlookup
    obtain ⟨w', hw', htw⟩ := value?_of_lookup_eq_some ht hlookup
    obtain rfl := Option.some.inj (hw.symm.trans hw')
    rw [hsv, htw]
    exact .some hvw
  | none =>
    rw [hj, Option.map_none] at hlookup
    rw [value?_of_lookup_eq_none h hj, value?_of_lookup_eq_none ht hlookup,
      Edit.unknown_fields e hdata]
    split
    · exact .some (.data .null)
    · exact .none

/-- **Members edited below and then as a whole are read to a schema that
agrees.** -/
theorem exists_read_node_agree {e : Edit} (he : e.KeepsConstraints) (h : read members = .ok s)
    (hvalues : ∀ (k : Keyword) j v, members.lookup k.name = some j →
      Value.readGiven? k.shape j = some v →
      ∃ w, Value.readGiven? k.shape (e.value k.shape j) = some w ∧ v.Alike w) :
    ∃ t, read (e.node (e.fields members)) = .ok t ∧ s.Agree t := by
  obtain ⟨u, hu, hagree⟩ := exists_read_fields_agree he.data h hvalues
  obtain ⟨t, ht, hsame⟩ := he.node _ u hu
  refine ⟨t, ht, hagree.nodup_left, nodup_declared_of_read ht, fun k hk => ?_⟩
  rw [hsame k hk]
  exact hagree.alike k hk

end Schema

namespace Value

/-- Entries that are read alike have the same signatures. -/
theorem exists_readEntries?_alike {f : Json → Json} {items : List Json} {vs : List Value}
    (h : List.Forall₂ (fun j v => readEntry? j = some v) items vs)
    (hentry : ∀ j ∈ items, ∀ v, readEntry? j = some v →
      ∃ w, readEntry? (f j) = some w ∧ v.Alike w) :
    ∃ ws, readEntries? (items.map f) = some ws ∧ vs.map signature = ws.map signature := by
  induction h with
  | nil => exact ⟨[], rfl, rfl⟩
  | cons hv _ ih =>
    obtain ⟨w, hw, hvw⟩ := hentry _ List.mem_cons_self _ hv
    obtain ⟨ws, hws, hsignatures⟩ := ih fun j hj => hentry j (List.mem_cons_of_mem _ hj)
    refine ⟨w :: ws, ?_, by rw [List.map_cons, List.map_cons, hvw.signature_eq, hsignatures]⟩
    rw [List.map_cons, readEntries?_eq_some_iff]
    exact .cons hw (readEntries?_eq_some_iff.1 hws)

/-- Named entries are read when each of them is. -/
theorem exists_readMembers?_map {f : Json → Json} {members : List (String × Json)}
    {ms : List (String × Value)} (h : readMembers? members = some ms)
    (hentry : ∀ m ∈ members, ∀ v, readEntry? m.2 = some v → ∃ w, readEntry? (f m.2) = some w) :
    ∃ ns, readMembers? (members.map fun m => (m.1, f m.2)) = some ns := by
  rw [← Option.ne_none_iff_exists']
  intro hnone
  obtain ⟨m', hm', hentries⟩ := readMembers?_eq_none_iff.1 hnone
  obtain ⟨m, hm, rfl⟩ := List.mem_map.1 hm'
  cases hv : readEntry? m.2 with
  | none =>
    rw [readMembers?_eq_none_iff.2 ⟨m, hm, hv⟩] at h
    cases h
  | some v =>
    obtain ⟨w, hw⟩ := hentry m hm v hv
    rw [hw] at hentries
    cases hentries

/-- **Values are read alike after an edit that keeps the constraints**, given
under a keyword and as entries. -/
theorem exists_read_alike {e : Edit} (he : e.KeepsConstraints) (j : Json) :
    (∀ shape v, readGiven? shape j = some v →
      ∃ w, readGiven? shape (e.value shape j) = some w ∧ v.Alike w) ∧
    ∀ v, readEntry? j = some v → ∃ w, readEntry? (e.entry j) = some w ∧ v.Alike w := by
  have hvalue : ∀ {shape : Shape} {j : Json} {v}, e.value shape j = e.scalar shape j →
      readGiven? shape j = some v →
      ∃ w, readGiven? shape (e.value shape j) = some w ∧ v.Alike w := by
    intro shape j v hleaf hv
    rw [hleaf, he.scalar]
    exact ⟨v, hv, .refl v⟩
  have hscalar : ∀ {shape : Shape} {j j' : Json}, shape.scalar? j = some j' →
      e.value shape j = e.scalar shape j := by
    intro shape j j' hj'
    exact e.value_of_isScalar (Shape.isScalar_of_holds (Shape.holds_of_scalar? hj')) j
  have hdata : ∀ {j : Json} {v}, j.kind ≠ .object → readEntry? j = some v →
      ∃ w, readEntry? (e.entry j) = some w ∧ v.Alike w := by
    intro j v hkind hv
    rw [e.entry_of_kind hkind, he.data]
    exact ⟨v, hv, .refl v⟩
  induction j using Json.ind with
  | obj members ih =>
    have hobj : ∀ {s}, Schema.read members = .ok s →
        ∃ w, readEntry? (e.entry (.obj members)) = some w ∧ Alike (.schema s) w := by
      intro s hs
      obtain ⟨t, ht, hagree⟩ := Schema.exists_read_node_agree he hs fun k j v hj hv =>
        (ih _ (mem_of_lookup_eq_some hj)).1 _ _ hv
      exact ⟨.schema t, readEntry?_obj_eq_some_iff.2 ⟨t, ht, rfl⟩, hagree.alike_schema⟩
    refine ⟨fun shape v hv => ?_, fun v hv => ?_⟩
    · cases reads_of_read? hv with
      | scalar hj' => exact hvalue (hscalar hj') hv
      | schema hnode hs =>
        rw [e.value_obj hnode]
        exact readGiven?_obj hnode _ ▸ hobj hs
      | map hms =>
        obtain ⟨ns, hns⟩ := exists_readMembers?_map hms fun m hm v hv =>
          ((ih m hm).2 v hv).imp fun _ => And.left
        refine ⟨.map ns, ?_, .map⟩
        rw [e.value_nodeMap_obj]
        exact read?_of_reads (.map hns)
    · obtain ⟨s, hs, rfl⟩ := readEntry?_obj_eq_some_iff.1 hv
      exact hobj hs
  | arr items ih =>
    refine ⟨fun shape v hv => ?_, fun v => hdata (by simp [Json.kind])⟩
    cases reads_of_read? hv with
    | scalar hj' => exact hvalue (hscalar hj') hv
    | list hlist hvs =>
      obtain ⟨ws, hws, hsignatures⟩ := exists_readEntries?_alike (readEntries?_eq_some_iff.1 hvs)
        fun j hj => (ih j hj).2
      refine ⟨.list ws, ?_, .list hsignatures⟩
      rw [e.value_arr hlist]
      exact read?_of_reads (.list hlist hws)
  | _ =>
    refine ⟨fun shape v => hvalue ?_, fun v => hdata (by simp [Json.kind])⟩
    exact e.value_of_kind (by simp [Json.kind]) (by simp [Json.kind]) shape

end Value

end SchemaProse
