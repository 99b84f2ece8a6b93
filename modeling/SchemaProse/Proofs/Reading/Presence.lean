import SchemaProse.Proofs.Reading.Steps
import SchemaProse.Proofs.Schema.Written
/-!
# Reading — which members a schema shows

A schema *tracks* a list of names when the names it has, the names it lists
and the names it is written under are those of the list, and a look-up of any
other name falls back to the default. The schema read from an object tracks
the names of the object's members and, beside them, the names of its
*misspelt* keywords, which are given by their identifier only. So it tracks
the object's own names exactly when no keyword is misspelt.
-/

namespace SchemaProse

namespace Schema

/-- The keywords that no member names and whose identifier is the name of a
member that is no keyword. -/
def misspelt (members : List (String × Json)) : List Keyword :=
  Keyword.all.filter fun k =>
    (members.lookup k.name).isNone && ((unknown members).lookup k.identifier).isSome

/-- The names of a list are the ones that a schema shows. -/
structure Tracks (s : Schema) (names : List String) : Prop where
  /-- A member is there exactly when its name is in the list. -/
  has_iff : ∀ name, s.has name = true ↔ name ∈ names
  /-- The names that the schema lists are those of the list, each once. -/
  perm_keywords : names.Nodup → s.keywords.Perm names
  /-- A look-up of any other name falls back to the default. -/
  getD_eq : ∀ name, name ∉ names → ∀ default : Value, (s.get? name).getD default = default
  /-- The schema is written under the names of the list. -/
  member_iff : ∀ name, (s.toJson.member? name).isSome = true ↔ name ∈ names

variable {members : List (String × Json)} {s : Schema}

theorem mem_misspelt_iff {k : Keyword} :
    k ∈ misspelt members ↔
      members.lookup k.name = none ∧ ((unknown members).lookup k.identifier).isSome = true := by
  simp [misspelt, Keyword.mem_all]

/-- A keyword is carried when a member names it or when it is misspelt. -/
theorem carries_iff_of_read (h : read members = .ok s) {k : Keyword} :
    s.carries k = true ↔ k.name ∈ members.map Prod.fst ∨ k ∈ misspelt members := by
  rw [carries, mem_misspelt_iff, ← lookup_isSome_iff_mem]
  cases hk : members.lookup k.name with
  | some j =>
    obtain ⟨v, -, hv⟩ := value?_of_lookup_eq_some h hk
    simp [hv]
  | none =>
    rw [value?_of_lookup_eq_none h hk]
    cases (unknown members).lookup k.identifier <;> simp

/-- **A name is shown when a member or a misspelt keyword has it.** -/
theorem has_iff_of_read (h : read members = .ok s) (name : String) :
    s.has name = true ↔
      name ∈ members.map Prod.fst ++ (misspelt members).map Keyword.name := by
  rw [List.mem_append, List.mem_map (f := Keyword.name)]
  cases hname : Keyword.ofName? name with
  | none =>
    have hnot : ¬ ∃ k ∈ misspelt members, k.name = name := by
      rintro ⟨k, -, hk⟩
      exact Keyword.ofName?_eq_none_iff.1 hname k hk
    rw [has, get?_of_ofName?_eq_none s hname, extra_of_read h, lookup_unknown hname,
      Option.isSome_map, lookup_isSome_iff_mem]
    simp only [hnot, or_false]
  | some k =>
    obtain rfl := Keyword.ofName?_eq_some_iff.1 hname
    rw [has, get?_name, ← carries, carries_iff_of_read h]
    refine or_congr_right ⟨fun hk => ⟨k, hk, rfl⟩, ?_⟩
    rintro ⟨k', hk', hnames⟩
    exact Keyword.name_injective hnames ▸ hk'

/-- The names that the schema lists are the names it has. -/
theorem mem_keywords_iff_of_read (h : read members = .ok s) (name : String) :
    name ∈ s.keywords ↔ s.has name = true := by
  have hextra := extra_of_read h
  rw [keywords, List.mem_append, has]
  cases hname : Keyword.ofName? name with
  | none =>
    rw [get?_of_ofName?_eq_none s hname, Option.isSome_map, lookup_isSome_iff_mem]
    refine or_iff_right ?_
    rw [List.mem_map]
    rintro ⟨m, -, hm⟩
    exact Keyword.ofName?_eq_none_iff.1 hname m.1 hm
  | some k =>
    obtain rfl := Keyword.ofName?_eq_some_iff.1 hname
    -- the name of a keyword is listed among the keywords only
    have hother : k.name ∉ s.extra.map Prod.fst := by
      rw [hextra, ← lookup_eq_none_iff_notMem, lookup_unknown_eq, hname]
      rfl
    rw [get?_name, ← carries, carries_iff_mem, or_iff_left hother, List.mem_map, List.mem_map]
    constructor
    · rintro ⟨m, hm, hnames⟩
      exact ⟨m, hm, Keyword.name_injective hnames⟩
    · rintro ⟨m, hm, rfl⟩
      exact ⟨m, hm, rfl⟩

/-- No name is listed twice when no two members share one. -/
theorem nodup_keywords_of_read (h : read members = .ok s) (hn : (members.map Prod.fst).Nodup) :
    s.keywords.Nodup := by
  have hdeclared : (s.declared.map fun m => m.1.name).Nodup := by
    simpa [Function.comp_def] using (nodup_declared_of_read h).map Keyword.name_injective
  have hextra : (s.extra.map Prod.fst).Nodup := by
    rw [extra_of_read h]
    exact (List.filter_sublist.map _).nodup hn
  -- what is listed in both parts would be a keyword and none
  refine hdeclared.append hextra fun name hk he => ?_
  obtain ⟨m, -, rfl⟩ := List.mem_map.1 hk
  obtain ⟨n, hn, hnames⟩ := List.mem_map.1 he
  rw [extra_of_read h, unknown, List.mem_filter, hnames, Keyword.ofName?_name] at hn
  exact absurd hn.2 (by simp)

/-- The names that a schema has are the ones it tracks. -/
theorem tracks_of_has_iff (h : read members = .ok s) {names : List String}
    (hsub : (members.map Prod.fst).Sublist names)
    (hhas : ∀ name, s.has name = true ↔ name ∈ names) : s.Tracks names where
  has_iff := hhas
  perm_keywords hn := by
    rw [List.perm_ext_iff_of_nodup (nodup_keywords_of_read h (hsub.nodup hn)) hn]
    exact fun name => (mem_keywords_iff_of_read h name).trans (hhas name)
  getD_eq name hname default := by
    have habsent : s.get? name = none := by
      rw [← Option.not_isSome_iff_eq_none, ← has, hhas]
      exact hname
    rw [habsent, Option.getD_none]
  member_iff name := by
    rw [toJson_eq_written, Json.member?, Json.obj?, Option.bind_some, lookup_isSome_iff_mem,
      map_fst_written, mem_keywords_iff_of_read h, hhas]

/-- A misspelt keyword is there and is empty. -/
theorem get?_of_mem_misspelt (h : read members = .ok s) {k : Keyword} (hk : k ∈ misspelt members) :
    s.get? k.name = some (.data .null) := by
  obtain ⟨hname, hidentifier⟩ := mem_misspelt_iff.1 hk
  rw [get?_name, value?_of_lookup_eq_none h hname, if_pos hidentifier]

/-- **Presence is exact but for misspelt keywords.** The schema read from an
object tracks the names of the object's members exactly when no keyword is
misspelt. In every case it tracks those names and the misspelt keywords', and
each misspelt keyword is empty. -/
theorem tracks_members_iff_misspelt_eq_nil (h : read members = .ok s) :
    (s.Tracks (members.map Prod.fst) ↔ misspelt members = []) ∧
      s.Tracks (members.map Prod.fst ++ (misspelt members).map Keyword.name) ∧
      ∀ k ∈ misspelt members, s.get? k.name = some (.data .null) := by
  have htracks := tracks_of_has_iff h (List.sublist_append_left _ _) (has_iff_of_read h)
  refine ⟨⟨fun hexact => ?_, fun hnone => ?_⟩, htracks, fun k => get?_of_mem_misspelt h⟩
  · refine List.eq_nil_iff_forall_not_mem.2 fun k hk => ?_
    -- a misspelt keyword is shown under a name that no member has
    have hshown : s.has k.name = true :=
      (htracks.has_iff k.name).2 (List.mem_append_right _ (List.mem_map_of_mem hk))
    have hnamed := lookup_isSome_iff_mem.2 ((hexact.has_iff k.name).1 hshown)
    rw [(mem_misspelt_iff.1 hk).1] at hnamed
    cases hnamed
  · rwa [hnone, List.map_nil, List.append_nil] at htracks

theorem tracks_members_with_identifier :
    ∃ s, read [("type", .str "string"), ("min_length", .num (.int 3)), ("x-note", .null)] = .ok s ∧
      ¬ s.Tracks ["type", "min_length", "x-note"] ∧
      s.Tracks ["type", "min_length", "x-note", "minLength"] ∧
      s.get? "minLength" = some (.data .null) := by
  obtain ⟨s, hs⟩ := exists_read_of_refused_eq_nil
    (show refused (Value.readFields [("type", .str "string"), ("min_length", .num (.int 3)),
      ("x-note", .null)]) = [] by decide +kernel)
  have hmisspelt : misspelt [("type", .str "string"), ("min_length", .num (.int 3)),
      ("x-note", .null)] = [.minLength] := by decide +kernel
  obtain ⟨hexact, htracks, hempty⟩ := tracks_members_iff_misspelt_eq_nil hs
  rw [hmisspelt] at hexact htracks hempty
  exact ⟨s, hs, fun h => absurd (hexact.1 h) (by simp), htracks,
    hempty .minLength (List.mem_singleton.2 rfl)⟩

/-- An object with the one member `min_length` has no member `minLength`, but
the schema read from it has one. -/
theorem has_minLength_of_identifier :
    ∃ s, read [("min_length", .num (.int 3))] = .ok s ∧ s.has "minLength" = true ∧
      "minLength" ∉ [("min_length", Json.num (.int 3))].map Prod.fst := by
  obtain ⟨s, hs⟩ := exists_read_of_refused_eq_nil
    (show refused (Value.readFields [("min_length", .num (.int 3))]) = [] by decide +kernel)
  have hmisspelt : misspelt [("min_length", .num (.int 3))] = [.minLength] := by decide +kernel
  refine ⟨s, hs, (has_iff_of_read hs "minLength").2 ?_, by decide⟩
  rw [hmisspelt]
  decide +kernel

end Schema

end SchemaProse
