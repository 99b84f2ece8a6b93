import SchemaProse.Proofs.Reading.Distinct
import SchemaProse.Proofs.Synthesis.Parameters
import SchemaProse.Proofs.Synthesis.Variables
/-!
# Synthesis — drafts have distinct names

What a schema is synthesized from has no object that names a member twice, and
then neither has the document that is drafted for it. Giving a member a value
does not repeat its name (`DistinctNames.putMember`), and every wrapper is
drafted with keywords of its own (`distinctNames_draft`).
-/

namespace SchemaProse

/-! ## Parts of drafts -/

namespace Json

variable {name : String} {j : Json} {ms : List (String × Json)}

/-- Putting a member in repeats no name. -/
theorem DistinctNames.putMember (h : DistinctNames (.obj ms)) (hj : j.DistinctNames) :
    DistinctNames (.obj (putMember name j ms)) := by
  refine .obj ?_ fun m hm => ?_
  · rw [map_fst_putMember]
    split
    next => exact h.names
    next hname =>
      refine h.names.append (List.nodup_singleton name) fun n hn hn' => ?_
      exact hname (List.mem_singleton.1 hn' ▸ hn)
  · rcases eq_or_mem_of_mem_putMember hm with rfl | hm
    · exact hj
    · exact h.values m hm

end Json

/-- An object of keywords repeats no name when no keyword is given twice. -/
theorem Keyword.distinctNames_members {fields : List (Keyword × Json)}
    (hkeywords : (fields.map Prod.fst).Nodup) (hvalues : ∀ f ∈ fields, f.2.DistinctNames) :
    (Json.obj (Keyword.members fields)).DistinctNames := by
  refine .obj ?_ (List.forall_mem_map.2 hvalues)
  have hnames := hkeywords.map Keyword.name_injective
  rw [Keyword.members, List.map_map]
  rwa [List.map_map] at hnames

/-- A wrapper's draft repeats no name when its properties do not. -/
theorem Schema.distinctNames_draft {properties : List (String × Json)}
    (hproperties : (Json.obj properties).DistinctNames) (required : Option (List String)) :
    (Json.obj (draft properties required)).DistinctNames := by
  refine Keyword.distinctNames_members ?_ ?_
  · cases required <;> simp [Example.Markers.drafted]
  · refine List.forall_mem_append.2 ⟨List.forall_mem_append.2 ⟨?_, ?_⟩, ?_⟩
    · simp only [List.forall_mem_cons]
      exact ⟨.str _, hproperties, nofun⟩
    · intro f hf
      obtain ⟨names, -, rfl⟩ := Option.map_eq_some_iff.1 (Option.mem_toList.1 hf)
      refine .arr (List.forall_mem_map.2 fun name _ => .str name)
    · simp only [Example.Markers.drafted, List.forall_mem_cons]
      exact ⟨.bool _, .bool _, nofun⟩

/-! ## Examples -/

namespace Example

/-- No object of the example names a member twice. -/
inductive DistinctNames : Example → Prop
  /-- An example without parts. -/
  | leaf {e : Example} : (∀ items, e ≠ .arr items) → (∀ members, e ≠ .obj members) →
      DistinctNames e
  /-- An array, item by item. -/
  | arr {items : List Example} : (∀ e ∈ items, DistinctNames e) → DistinctNames (.arr items)
  /-- An object with distinct names, member by member. -/
  | obj {members : List (String × Example)} : (members.map Prod.fst).Nodup →
      (∀ m ∈ members, DistinctNames m.2) → DistinctNames (.obj members)

/-- **The document of an example repeats no name.** -/
theorem DistinctNames.document {e : Example} (h : e.DistinctNames) (settings : Settings) :
    (e.document .drafted settings).DistinctNames := by
  have htext : ∀ text, (Markers.drafted.text text).DistinctNames := by
    intro text
    refine Keyword.distinctNames_members (by simp [Markers.drafted]) ?_
    simp only [Markers.drafted, List.cons_append, List.nil_append, List.forall_mem_cons]
    exact ⟨.str _, .str _, .bool _, .bool _, nofun⟩
  induction e using Example.ind with
  | arr items ih =>
    have hitems : ∀ e ∈ items, e.DistinctNames := by
      cases h with
      | leaf harr _ => exact absurd rfl (harr items)
      | arr hitems => exact hitems
    have hdocuments : (Json.arr (items.map (Example.document .drafted settings))).DistinctNames :=
      .arr (List.forall_mem_map.2 fun e he => ih e he (hitems e he))
    rw [Example.document, itemDocuments_eq_map]
    refine Keyword.distinctNames_members (by simp [Markers.drafted]) ?_
    simp only [Markers.drafted, List.cons_append, List.nil_append, List.forall_mem_cons]
    exact ⟨.str _, hdocuments, .bool _, .bool _, nofun⟩
  | obj members ih =>
    obtain ⟨hnames, hvalues⟩ :
        (members.map Prod.fst).Nodup ∧ ∀ m ∈ members, m.2.DistinctNames := by
      cases h with
      | leaf _ hobj => exact absurd rfl (hobj members)
      | obj hnames hvalues => exact ⟨hnames, hvalues⟩
    rw [Example.document, memberDocuments_eq_map]
    refine Schema.distinctNames_draft (.obj ?_ ?_) none
    · rw [List.map_map]
      exact hnames
    · exact List.forall_mem_map.2 fun m hm => ih m hm (hvalues m hm)
  | _ => exact htext _

end Example

/-! ## Parameters and variables -/

section Entries

variable {α : Type} {reader : Json → Except Refusal α} {entries : List (String × Given reader)}
variable {records : List (String × α)}

/-- The entry is given as a document without repeated names, or has been read
from one. -/
def Given.DistinctNames (e : Given reader) : Prop :=
  ∃ j : Json, j.DistinctNames ∧ e.read = reader j

/-- The records have the names of the entries. -/
theorem map_fst_of_readEach (h : readEach Given.read entries = .ok records) :
    records.map Prod.fst = entries.map Prod.fst :=
  map_eq_map_of_forall₂ (readEach_eq_ok_iff.1 h) fun _ _ _ hmn => hmn.1.symm

/-- Each record is read from a document without repeated names. -/
theorem exists_distinct_of_readEach (h : readEach Given.read entries = .ok records)
    (hentries : ∀ m ∈ entries, m.2.DistinctNames) {n : String × α} (hn : n ∈ records) :
    ∃ j : Json, j.DistinctNames ∧ reader j = .ok n.2 := by
  obtain ⟨m, hm, -, hmn⟩ := exists_mem_of_forall₂ (readEach_eq_ok_iff.1 h) hn
  obtain ⟨j, hj, hread⟩ := hentries m hm
  exact ⟨j, hj, hread ▸ hmn⟩

end Entries

namespace Parameter

/-- The members that a parameter's schema is written as repeat no name. -/
theorem distinctNames_ownMembers {p : Parameter} {j : Json} (h : read j = .ok p)
    (hj : j.DistinctNames) : (Json.obj p.ownMembers).DistinctNames := by
  have hempty : (Json.obj []).DistinctNames := .obj List.nodup_nil nofun
  obtain ⟨members, rfl, hschema⟩ := exists_of_read h
  unfold ownMembers
  split
  next s hs =>
    rw [hs] at hschema
    obtain ⟨i, hi, hread⟩ := exists_of_field?_eq_some hschema
    have hdistinct : i.DistinctNames := hj.values _ (mem_of_lookup_eq_some hi)
    have hwritten := (Value.distinctNames_of_read i hdistinct).1 _ _ hread
    rwa [Value.toJson, Schema.toJson_eq_written] at hwritten
  next => exact .obj (List.nodup_singleton _) (List.forall_mem_singleton.2 hempty)
  next => exact hempty

/-- **The draft of some parameters repeats no name.** -/
theorem distinctNames_draft {ps : List (String × Parameter)} (hnames : (ps.map Prod.fst).Nodup)
    (h : ∀ m ∈ ps, ∃ j : Json, j.DistinctNames ∧ read j = .ok m.2) :
    (draft ps).DistinctNames := by
  have hput : ∀ {k text members}, (Json.obj members).DistinctNames →
      (Json.obj (putText k text members)).DistinctNames := by
    intro k text members hmembers
    cases text with
    | none => exact hmembers
    | some text => exact hmembers.putMember (.str text)
  refine Schema.distinctNames_draft (.obj ?_ ?_) _
  · rw [List.map_map]
    exact hnames
  · refine List.forall_mem_map.2 fun m hm => ?_
    obtain ⟨j, hj, hread⟩ := h m hm
    exact hput (hput (distinctNames_ownMembers hread hj))

end Parameter

namespace ServerVariable

/-- The members of a variable repeat no name: its fields have names of their
own. -/
theorem distinctNames_members {v : ServerVariable} {j : Json} (h : read j = .ok v)
    (hj : j.DistinctNames) : (Json.obj v.members).DistinctNames := by
  obtain ⟨members, rfl, -, rfl⟩ := exists_of_read h
  have hkey : ∀ name m, (members.lookup name).map (name, ·) = some m →
      m.1 = name ∧ m ∈ members := by
    intro name m hm
    obtain ⟨i, hi, rfl⟩ := Option.map_eq_some_iff.1 hm
    exact ⟨rfl, mem_of_lookup_eq_some hi⟩
  have hfields : (fieldShapes.filterMap fun f => (members.lookup f.1).map (f.1, ·)) =
      (fieldShapes.map Prod.fst).filterMap fun name => (members.lookup name).map (name, ·) := by
    rw [List.filterMap_map]
    rfl
  have hsub := map_fst_filterMap_sublist (fun name m hm => (hkey name m hm).1)
    (fieldShapes.map Prod.fst)
  rw [ServerVariable.members, hfields]
  refine .obj ?_ fun m hm => ?_
  · rw [List.map_append]
    have hnodup : (fieldShapes.map Prod.fst).Nodup := by decide
    refine (hsub.nodup hnodup).append ((List.filter_sublist.map _).nodup hj.names) ?_
    intro name hfield hextra
    -- what is kept beside the fields has no name of a field
    obtain ⟨m, hm, rfl⟩ := List.mem_map.1 hextra
    have hshape := lookup_isSome_iff_mem.2 (hsub.subset hfield)
    have hnone : (fieldShapes.lookup m.1).isNone = true := (List.mem_filter.1 hm).2
    rw [Option.isNone_iff_eq_none.1 hnone] at hshape
    cases hshape
  · rcases List.mem_append.1 hm with hfield | hextra
    · obtain ⟨name, -, hname⟩ := List.mem_filterMap.1 hfield
      exact hj.values m (hkey name m hname).2
    · exact hj.values m (List.mem_filter.1 hextra).1

/-- **The draft of some variables repeats no name.** -/
theorem distinctNames_draft {vs : List (String × ServerVariable)}
    (hnames : (vs.map Prod.fst).Nodup)
    (h : ∀ m ∈ vs, ∃ j : Json, j.DistinctNames ∧ read j = .ok m.2) :
    (draft vs).DistinctNames := by
  refine Schema.distinctNames_draft (.obj ?_ ?_) _
  · rw [List.map_map]
    exact hnames
  · refine List.forall_mem_map.2 fun m hm => ?_
    obtain ⟨j, hj, hread⟩ := h m hm
    exact (distinctNames_members hread hj).putMember (.str _)

end ServerVariable

end SchemaProse
