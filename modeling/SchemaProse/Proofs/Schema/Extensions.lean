import SchemaProse.Proofs.Schema.Views
import SchemaProse.Proofs.Text.FirstSeen
/-!
# Schema — the extensions to show

A name is one to show when it begins as an extension's does and with no hidden
beginning (`Settings.Shows`). The hidden beginnings are the reserved ones and,
behind them, those that settings add, as they are first seen
(`Settings.hidesInOrder`). The private markers begin with a reserved one, so the
extensions that a schema shows are members of the document that it was read
from, and all of those with a name to show (`showsExtensions_of_readNode`).
-/

namespace SchemaProse

/-- A text begins with another when it has it as a prefix. -/
theorem Text.startsWith_iff {start text : String} :
    Text.startsWith start text = true ↔ start.toList <+: text.toList :=
  List.isPrefixOf_iff_prefix

/-! ## What settings hide -/

namespace Settings

/-- The name is one to show: it begins as an extension's does, with no reserved
beginning and with none that the settings add, the empty one apart. -/
def Shows (settings : Settings) (name : String) : Prop :=
  "x-".toList <+: name.toList ∧ ¬ "x-parser-".toList <+: name.toList ∧
    ¬ "x-schema-private-".toList <+: name.toList ∧
    ∀ start ∈ settings.extraHidden, start ≠ "" → ¬ start.toList <+: name.toList

instance (settings : Settings) (name : String) : Decidable (settings.Shows name) :=
  inferInstanceAs (Decidable (_ ∧ _ ∧ _ ∧ _))

/-- The settings hide the reserved beginnings first, and then those that they
add. -/
structure HidesInOrder (settings : Settings) : Prop where
  /-- The reserved beginnings stand in front. -/
  reserved_prefix : ["x-parser-", "x-schema-private-"] <+: settings.hidden
  /-- No beginning is empty. -/
  empty_notMem : "" ∉ settings.hidden
  /-- None is there twice. -/
  nodup : settings.hidden.Nodup
  /-- Those that are there are the reserved ones and the others that are added
  and not empty. -/
  mem_iff : ∀ start, start ∈ settings.hidden ↔
    start ∈ ["x-parser-", "x-schema-private-"] ∨ (start ∈ settings.extraHidden ∧ start ≠ "")
  /-- Behind the reserved ones they stand in the order in which they are first
  seen. -/
  order : (settings.hidden.drop 2).Pairwise fun start other =>
    settings.extraHidden.idxOf start < settings.extraHidden.idxOf other

variable {settings : Settings} {name : String}

/-- The reserved beginnings are followed by the others that are added, each
once. -/
theorem hidden_eq (settings : Settings) :
    settings.hidden = reserved ++
      (settings.extraHidden.eraseDups.filter fun start => !reserved.elem start).filter
        (· != "") := by
  have hreserved : reserved.eraseDups.filter (· != "") = reserved := by decide
  rw [hidden, eraseDups_filter, List.eraseDups_append, List.filter_append, hreserved,
    List.removeAll, eraseDups_filter]

theorem mem_hidden_iff {start : String} :
    start ∈ settings.hidden ↔ start ∈ reserved ∨ (start ∈ settings.extraHidden ∧ start ≠ "") := by
  have hreserved : start ∈ reserved → start ≠ "" := by
    rintro h rfl
    exact absurd h (by decide)
  simp only [hidden, List.mem_eraseDups, List.mem_filter, List.mem_append, bne_iff_ne]
  constructor
  · rintro ⟨h | h, hne⟩
    · exact .inl h
    · exact .inr ⟨h, hne⟩
  · rintro (h | ⟨h, hne⟩)
    · exact ⟨.inl h, hreserved h⟩
    · exact ⟨.inr h, hne⟩

/-- **The hidden beginnings are in order.** -/
theorem hidesInOrder (settings : Settings) : settings.HidesInOrder := by
  have horder := pairwise_idxOf_eraseDups
    ((reserved ++ settings.extraHidden).filter (· != ""))
  have hadded := ((pairwise_idxOf_eraseDups settings.extraHidden).filter
    fun start => !reserved.elem start).filter (· != "")
  refine ⟨⟨_, (hidden_eq settings).symm⟩, ?_, ?_, fun start => mem_hidden_iff, ?_⟩
  · rw [mem_hidden_iff]
    exact fun h => absurd h (by simp [reserved])
  · refine horder.imp fun hlt heq => ?_
    rw [heq] at hlt
    exact Nat.lt_irrefl _ hlt
  · rw [hidden_eq]
    exact hadded

/-- A name is hidden when it begins with a hidden beginning. -/
theorem hides_iff :
    settings.hides name = true ↔ ∃ start ∈ settings.hidden, start.toList <+: name.toList := by
  simp only [hides, List.any_eq_true, Text.startsWith_iff]

/-- **A name is one to show when it is an extension's and is not hidden.** -/
theorem shows_iff :
    settings.Shows name ↔ Schema.isExtension name = true ∧ settings.hides name = false := by
  have hhidden : settings.hides name = false ↔
      ∀ start ∈ settings.hidden, ¬ start.toList <+: name.toList := by
    rw [Bool.eq_false_iff, Ne, hides_iff]
    simp only [not_exists, not_and]
  rw [hhidden, Schema.isExtension, Text.startsWith_iff, Shows]
  simp only [mem_hidden_iff, reserved, List.mem_cons, List.not_mem_nil, or_false, or_imp,
    forall_and, forall_eq, and_assoc, and_imp]

/-- Settings that hide more show no other name; the empty beginning does not
count. -/
theorem Shows.mono {fewer more : Settings}
    (hmore : ∀ start ∈ fewer.extraHidden, start ≠ "" → start ∈ more.extraHidden)
    (h : more.Shows name) : fewer.Shows name := by
  obtain ⟨hextension, hparser, hprivate, hextra⟩ := h
  exact ⟨hextension, hparser, hprivate, fun start hstart hne =>
    hextra start (hmore start hstart hne) hne⟩

/-- The private markers are hidden under all settings. -/
theorem hides_of_mem_markers (settings : Settings) {k : Keyword} (hk : k ∈ Keyword.markers) :
    settings.hides k.name = true :=
  hides_iff.2 ⟨"x-schema-private-", mem_hidden_iff.2 (.inl (by decide)),
    Text.startsWith_iff.1 (Schema.startsWith_of_mem_markers hk)⟩

end Settings

/-! ## What a schema shows -/

/-- The extensions that a value shows are members of a document, under all
settings. -/
structure Value.ShowsExtensions (v : Value) (members : List (String × Json)) : Prop where
  /-- They are the members with a name to show, as they stand there. -/
  getD_eq : ∀ settings : Settings,
    (v.visibleExtensions? settings).getD [] = members.filter fun m => settings.Shows m.1
  /-- There are none exactly when no member has such a name. -/
  eq_none_iff : ∀ settings : Settings,
    v.visibleExtensions? settings = none ↔ ∀ m ∈ members, ¬ settings.Shows m.1
  /-- The empty beginning hides nothing. -/
  without_empty : ∀ settings : Settings,
    v.visibleExtensions? { settings with extraHidden := settings.extraHidden.filter (· ≠ "") } =
      v.visibleExtensions? settings
  /-- Settings that hide more show some of the same members, in the same
  order. -/
  sublist : ∀ fewer more : Settings,
    (∀ start ∈ fewer.extraHidden, start ≠ "" → start ∈ more.extraHidden) →
      ((v.visibleExtensions? more).getD []).Sublist ((v.visibleExtensions? fewer).getD [])

namespace Schema

variable {members : List (String × Json)} {s : Schema} {settings : Settings}

/-- The extensions to show are members that are no keyword. -/
theorem visibleExtensions_eq (s : Schema) (settings : Settings) :
    s.visibleExtensions settings =
      (s.extra.filter fun m => isExtension m.1).filter fun m => !settings.hides m.1 := by
  have hmarkers : s.markers.filter (fun m => !settings.hides m.1) = [] := by
    rw [List.filter_eq_nil_iff]
    intro m hm
    obtain ⟨k, hk, hkm⟩ := List.mem_filterMap.1 hm
    obtain ⟨w, -, rfl⟩ := Option.map_eq_some_iff.1 hkm
    simp [settings.hides_of_mem_markers hk]
  rw [visibleExtensions, extensions, List.filter_append, hmarkers, List.nil_append]

/-- No keyword has a name to show. -/
theorem ofName?_eq_none_of_shows {name : String} (h : settings.Shows name) :
    Keyword.ofName? name = none := by
  obtain ⟨hextension, hhides⟩ := Settings.shows_iff.1 h
  rw [Keyword.ofName?_eq_none_iff]
  rintro k rfl
  -- an extension among the keywords is a private marker
  rw [settings.hides_of_mem_markers (mem_markers_of_isExtension hextension)] at hhides
  cases hhides

/-- **The extensions to show are the members with a name to show.** -/
theorem visibleExtensions_of_read (h : read members = .ok s) (settings : Settings) :
    s.visibleExtensions settings = members.filter fun m => settings.Shows m.1 := by
  rw [visibleExtensions_eq, extra_of_read h, unknown, List.filter_filter, List.filter_filter]
  refine List.filter_congr fun m _ => ?_
  rw [Bool.eq_iff_iff]
  simp only [Bool.and_eq_true, Bool.not_eq_true', decide_eq_true_eq, Option.isNone_iff_eq_none]
  constructor
  · rintro ⟨⟨hhides, hextension⟩, -⟩
    exact Settings.shows_iff.2 ⟨hextension, hhides⟩
  · intro hshows
    obtain ⟨hextension, hhides⟩ := Settings.shows_iff.1 hshows
    exact ⟨⟨hhides, hextension⟩, ofName?_eq_none_of_shows hshows⟩

/-- A schema has extensions to show when there is one. -/
theorem visibleExtensions?_eq (s : Schema) (settings : Settings) :
    (Value.schema s).visibleExtensions? settings =
      if s.visibleExtensions settings = [] then none else some (s.visibleExtensions settings) := by
  unfold Value.visibleExtensions?
  dsimp only
  split
  next hnil => rw [if_pos hnil]
  next hne => rw [if_neg hne]

/-- **A node shows the extensions of its document that are not hidden**, and
the hidden beginnings are in order. -/
theorem showsExtensions_of_readNode {v : Value} (h : readNode (.obj members) = .ok v) :
    v.ShowsExtensions members ∧ ∀ settings : Settings, settings.HidesInOrder := by
  refine ⟨?_, Settings.hidesInOrder⟩
  obtain ⟨s, hs, rfl⟩ := readNode_obj_eq_ok_iff.1 h
  have hshown (settings : Settings) : ((Value.schema s).visibleExtensions? settings).getD [] =
      members.filter fun m => settings.Shows m.1 := by
    rw [visibleExtensions?_eq, ← visibleExtensions_of_read hs]
    split
    next hnil => rw [hnil, Option.getD_none]
    next => rfl
  refine ⟨hshown, fun settings => ?_, fun settings => ?_, fun fewer more hmore => ?_⟩
  · rw [visibleExtensions?_eq, ite_eq_left_iff, visibleExtensions_of_read hs]
    simp
  · have hsame : ∀ name, Settings.Shows
        { settings with extraHidden := settings.extraHidden.filter (· ≠ "") } name ↔
          settings.Shows name := by
      intro name
      constructor
      · exact Settings.Shows.mono fun start hstart hne =>
          List.mem_filter.2 ⟨hstart, decide_eq_true hne⟩
      · exact Settings.Shows.mono fun start hstart _ => (List.mem_filter.1 hstart).1
    rw [visibleExtensions?_eq, visibleExtensions?_eq, visibleExtensions_of_read hs,
      visibleExtensions_of_read hs]
    simp only [hsame]
  · rw [hshown, hshown]
    refine List.monotone_filter_right _ fun m hm => ?_
    rw [decide_eq_true_eq] at hm ⊢
    exact hm.mono hmore

/-- An object with extensions to show and to hide, a private marker that is
there by its identifier only, and names that only look like an extension's. -/
def mixedExtensions : List (String × Json) :=
  [("x-zeta", .arr []), ("type", .str "string"), ("x-parser-id", .null), ("x-", .bool true),
    ("render_type", .null), ("x-schema-private-raw-value", .str "yes"), ("X-note", .null),
    ("x-schema-privately", .null), ("x-internal-id", .null)]

theorem showsExtensions_mixedExtensions :
    ∃ v, readNode (.obj mixedExtensions) = .ok v ∧ v.ShowsExtensions mixedExtensions ∧
      v.visibleExtensions? { extraHidden := ["", "x-internal-", "x-parser-", "x-internal-"] } =
        some [("x-zeta", .arr []), ("x-", .bool true), ("x-schema-privately", .null)] ∧
      v.visibleExtensions? { extraHidden := ["x-"] } = none := by
  obtain ⟨s, hs⟩ := exists_read_of_refused_eq_nil
    (show refused (Value.readFields mixedExtensions) = [] by decide +kernel)
  have hread := readNode_obj_eq_ok_iff.2 ⟨s, hs, rfl⟩
  have hshows := (showsExtensions_of_readNode hread).1
  refine ⟨.schema s, hread, hshows, ?_, ?_⟩
  · rw [visibleExtensions?_eq, visibleExtensions_of_read hs]
    rfl
  · rw [hshows.eq_none_iff]
    decide

end Schema

end SchemaProse
