import SchemaProse.Proofs.Reading.RoundTrip
import SchemaProse.Schema.Extension
/-!
# Schema — its views

A schema may be asked whether it has a member, for the value of a member, for
the names of its members, for its extensions and for its written form. The
answers come from the table of the keywords, from the order of the keywords and
from the other members as they came, so that they *agree* is a fact of the
schemas that reading yields (`viewsAgree`).
-/

namespace SchemaProse

/-- A value that fits a scalar shape is data. -/
theorem Value.Fits.exists_data {shape : Shape} {v : Value} (h : v.Fits shape)
    (hshape : shape.isScalar = true) : ∃ j, v = .data j := by
  have hnode : shape.takesNode = false := by
    cases shape <;> first | rfl | cases hshape
  have hlist : shape.takesList = false := by
    cases shape <;> first | rfl | cases hshape
  cases h with
  | null => exact ⟨_, rfl⟩
  | scalar _ => exact ⟨_, rfl⟩
  | bool _ => exact ⟨_, rfl⟩
  | schema hnode' _ => cases hnode.symm.trans hnode'
  | list hlist' _ => cases hlist.symm.trans hlist'
  | map _ => cases hshape

namespace Schema

/-- The views of the schema agree. -/
structure ViewsAgree (s : Schema) : Prop where
  /-- The names that it has are the names that it lists. -/
  has_iff_mem_keywords : ∀ name, s.has name = true ↔ name ∈ s.keywords
  /-- They are the names that it is written under. -/
  has_iff_member : ∀ name, s.has name = true ↔ (s.toJson.member? name).isSome = true
  /-- No name is listed twice. -/
  nodup_keywords : s.keywords.Nodup
  /-- It is written as an object, under the names that it lists and in their
  order. -/
  keywords_written : ∃ members, s.toJson = .obj members ∧ members.map Prod.fst = s.keywords
  /-- A member that it has is written as the value that is looked up. -/
  member_eq : ∀ name, s.has name = true → ∀ default,
    s.toJson.member? name = some ((s.get? name).getD default).toJson
  /-- A look-up of any other name falls back to the default. -/
  getD_eq : ∀ name, s.has name = false → ∀ default : Value, (s.get? name).getD default = default
  /-- Its extensions are the names that it lists and that begin with `x-`, in
  their order. -/
  extensions_names : s.extensions.map Prod.fst = s.keywords.filter isExtension
  /-- Each of them has the value that is looked up. -/
  extensions_values : ∀ m ∈ s.extensions, s.get? m.1 = some (.data m.2)
  /-- A keyword that it does not have holds no value. -/
  value?_eq_none : ∀ k : Keyword, s.has k.name = false → s.value? k = none

variable {s : Schema}

/-- **The written form holds what is looked up.** -/
theorem lookup_written_name (hwf : s.WellFormed) (name : String) :
    s.written.lookup name = (s.get? name).map Value.toJson := by
  cases hname : Keyword.ofName? name with
  | some k =>
    obtain rfl := Keyword.ofName?_eq_some_iff.1 hname
    rw [get?_name, lookup_written hwf]
  | none =>
    -- the keywords of the written form have other names
    have hdeclared : (s.declared.map fun m => (m.1.name, m.2.toJson)).lookup name = none := by
      rw [lookup_eq_none_iff_notMem, List.map_map, List.mem_map]
      rintro ⟨m, -, hm⟩
      exact Keyword.ofName?_eq_none_iff.1 hname m.1 hm
    rw [get?_of_ofName?_eq_none s hname, written, List.lookup_append, hdeclared, Option.none_or]
    cases s.extra.lookup name <;> rfl

/-- A name is there when it is written. -/
theorem has_eq_isSome_lookup_written (hwf : s.WellFormed) (name : String) :
    s.has name = (s.written.lookup name).isSome := by
  rw [has, lookup_written_name hwf, Option.isSome_map]

/-! ## Extensions -/

/-- The markers are the keywords whose names are an extension's. -/
theorem filter_isExtension_all :
    Keyword.all.filter (fun k => isExtension k.name) = Keyword.markers := by
  decide +kernel

/-- A keyword whose name is an extension's is a marker. -/
theorem mem_markers_of_isExtension {k : Keyword} (h : isExtension k.name = true) :
    k ∈ Keyword.markers := by
  rw [← filter_isExtension_all]
  exact List.mem_filter.2 ⟨k.mem_all, h⟩

/-- And begins as private markers do. -/
theorem startsWith_of_mem_markers {k : Keyword} (h : k ∈ Keyword.markers) :
    Text.startsWith "x-schema-private-" k.name = true := by
  have hall : ∀ k ∈ Keyword.markers, Text.startsWith "x-schema-private-" k.name = true := by decide
  exact hall k h

/-- The extensions keep the order in which names are listed. -/
theorem map_fst_extensions (hwf : s.WellFormed) :
    s.extensions.map Prod.fst = s.keywords.filter isExtension := by
  have hdeclared : Keyword.all.filterMap (fun k => (s.value? k).map (k, ·)) = s.declared :=
    filterMap_lookup_of_sublist Keyword.nodup_all hwf.order
  have hmarkers : s.markers.map Prod.fst =
      (s.declared.map fun m => m.1.name).filter isExtension := by
    rw [markers, ← filter_isExtension_all, ← hdeclared, List.map_filterMap, List.map_filterMap,
      List.filterMap_filter, List.filter_filterMap]
    refine List.filterMap_congr fun k _ => ?_
    cases hk : isExtension k.name <;> cases s.value? k <;> simp [Option.filter, hk]
  have hextra : (s.extra.filter fun m => isExtension m.1).map Prod.fst =
      (s.extra.map Prod.fst).filter isExtension := by
    rw [List.filter_map]
    rfl
  rw [extensions, keywords, List.map_append, List.filter_append, hmarkers, hextra]

/-- **Each extension has the value that is looked up.** -/
theorem get?_of_mem_extensions (hwf : s.WellFormed) (hnames : s.keywords.Nodup)
    {m : String × Json} (hm : m ∈ s.extensions) : s.get? m.1 = some (.data m.2) := by
  rcases List.mem_append.1 hm with hmarker | hextra
  · have hscalar : ∀ k ∈ Keyword.markers, k.shape.isScalar = true := by decide
    obtain ⟨k, hk, hkm⟩ := List.mem_filterMap.1 hmarker
    obtain ⟨v, hv, rfl⟩ := Option.map_eq_some_iff.1 hkm
    have hfits : v.Fits k.shape := hwf.fits _ (mem_of_lookup_eq_some hv)
    obtain ⟨j, rfl⟩ := hfits.exists_data (hscalar k hk)
    rw [get?_name, hv, Value.toJson]
  · have hmem : m ∈ s.extra := (List.mem_filter.1 hextra).1
    have hdistinct : (s.extra.map Prod.fst).Nodup := (List.sublist_append_right _ _).nodup hnames
    have hlookup : s.extra.lookup m.1 = some m.2 := (lookup_eq_some_iff_mem hdistinct).2 hmem
    rw [get?_of_ofName?_eq_none s (hwf.other m hmem), hlookup, Option.map_some]

/-- **The views agree** on a schema that may come out of a reading and lists no
name twice. -/
theorem viewsAgree (hwf : s.WellFormed) (hnames : s.keywords.Nodup) : s.ViewsAgree where
  has_iff_mem_keywords name := by
    rw [has_eq_isSome_lookup_written hwf, lookup_isSome_iff_mem, map_fst_written]
  has_iff_member name := by
    rw [has_eq_isSome_lookup_written hwf, toJson_eq_written]
    rfl
  nodup_keywords := hnames
  keywords_written := ⟨s.written, toJson_eq_written s, map_fst_written s⟩
  member_eq name hname default := by
    obtain ⟨v, hv⟩ := Option.isSome_iff_exists.1 hname
    have hwritten : s.written.lookup name = some v.toJson := by
      rw [lookup_written_name hwf, hv, Option.map_some]
    rw [hv, Option.getD_some, toJson_eq_written, ← hwritten]
    rfl
  getD_eq name hname default := by
    have habsent : s.get? name = none :=
      Option.not_isSome_iff_eq_none.1 (Bool.not_eq_true _ ▸ hname)
    rw [habsent, Option.getD_none]
  extensions_names := map_fst_extensions hwf
  extensions_values _ := get?_of_mem_extensions hwf hnames
  value?_eq_none k hk := by
    rw [← get?_name]
    exact Option.not_isSome_iff_eq_none.1 (Bool.not_eq_true _ ▸ hk)

end Schema

end SchemaProse
