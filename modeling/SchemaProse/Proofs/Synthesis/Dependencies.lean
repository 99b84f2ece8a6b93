import SchemaProse.Proofs.Synthesis.Wrapper
import SchemaProse.Schema.Dependency
import SchemaProse.Schema.Path
/-!
# Synthesis — dependencies

The entries of `dependencies` are read in order, each to its own value
(`forall₂_dependencies`): objects and truth values to nodes, and anything else to
the data that it is. So the owners of nodes and the owners of lists are told
apart by the document (`forall₂_dependentNodes`, `requiredBy_eq`). The nodes are
gathered in a wrapper that is drafted as a document and read, which never fails
since every node has been read before (`read_draft_dependentNodes`). No entry
counts twice, and only entries that are neither node nor list count nowhere
(`splitsDependencies_of_readNode`).
-/

namespace SchemaProse

/-! ## What a document says -/

namespace Json

/-- The value is an object or a truth value. -/
def isNodeForm (j : Json) : Bool :=
  j.kind == .object || j.kind == .boolean

/-- The value is an array that has the text among its items. -/
def lists (text : String) : Json → Bool
  | .arr items => items.any fun j => j.str? == some text
  | _ => false

theorem lists_arr_iff {text : String} {items : List Json} :
    lists text (.arr items) = true ↔ .str text ∈ items := by
  rw [lists, List.any_eq_true]
  constructor
  · rintro ⟨j, hj, htext⟩
    cases j with
    | str s =>
      obtain rfl : s = text := by simpa [str?] using htext
      exact hj
    | _ => cases htext
  · exact fun h => ⟨_, h, by simp [str?]⟩

end Json

/-- The entries of the dependencies that an object gives. -/
def Document.dependencies (members : List (String × Json)) : List (String × Json) :=
  match members.lookup "dependencies" with
  | some (.obj entries) => entries
  | _ => []

/-! ## Splitting the entries -/

/-- The schema gathers the nodes among some dependencies: an object schema that
is not shown itself, with a property for each of them and no required names. -/
structure Schema.GathersNodes (s : Schema) (entries : List (String × Json)) (v : Value) :
    Prop where
  keywords : s.keywords = ["type", "properties", "x-schema-private-render-type",
    "x-schema-private-render-additional-info"]
  type : s.get? "type" = some (.data (.str "object"))
  renderType : s.get? "x-schema-private-render-type" = some (.bool false)
  renderAdditionalInfo : s.get? "x-schema-private-render-additional-info" = some (.bool false)
  /-- The properties are the nodes that the entries are read as, and stand as
  they are among the dependencies of the value; the document that is drafted
  for them is read as the schema. -/
  properties : ∃ properties dependencies, s.get? "properties" = some (.map properties) ∧
    List.Forall₂ (fun e m => e.1 = m.1 ∧ readNode e.2 = .ok m.2)
      (entries.filter fun e => e.2.isNodeForm) properties ∧
    v.child? (.member "dependencies") = some (.map dependencies) ∧
    properties.Sublist dependencies ∧
    readNode (.obj (draft (properties.map fun m => (m.1, m.2.toJson)) none)) = .ok (.schema s)

namespace Value

/-- The owners of the dependencies that are gathered in a schema. -/
def nodeOwners (v : Value) : List String :=
  ((v.dependentSchema?.bind fun s => s.get? "properties").map fun w => w.members.map Prod.fst).getD []

/-- The owners of the dependencies that require a property. -/
def listOwners (v : Value) (property : String) : List String :=
  (v.requiredBy? property).getD []

/-- The entries of a value's dependencies are split between the schema that
gathers nodes and the owners that require a property. -/
structure SplitsDependencies (v : Value) (entries : List (String × Json)) : Prop where
  /-- No schema is made exactly when no entry is an object or a truth value. -/
  dependentSchema?_eq_none_iff :
    v.dependentSchema? = none ↔ ∀ e ∈ entries, e.2.isNodeForm = false
  /-- The schema that is made gathers the entries that are. -/
  gathersNodes : ∀ s, v.dependentSchema? = some s → s.GathersNodes entries v
  /-- No owners are named exactly when no entry is a list that has the
  property. -/
  requiredBy?_eq_none_iff : ∀ property,
    v.requiredBy? property = none ↔ ∀ e ∈ entries, e.2.lists property = false
  /-- The owners that are named are those of the lists that do, in order. -/
  listOwners_eq : ∀ property,
    v.listOwners property = (entries.filter fun e => e.2.lists property).map Prod.fst
  /-- None of them is named twice. -/
  nodup_listOwners : ∀ property, (v.listOwners property).Nodup
  /-- An object or a truth value counts as a node only. -/
  of_isNodeForm : ∀ e ∈ entries, e.2.isNodeForm = true →
    e.1 ∈ v.nodeOwners ∧ ∀ property, e.1 ∉ v.listOwners property
  /-- A list counts as such only, for the texts among its items. -/
  of_arr : ∀ owner items, (owner, .arr items) ∈ entries →
    owner ∉ v.nodeOwners ∧ ∀ property, owner ∈ v.listOwners property ↔ .str property ∈ items
  /-- Any other entry counts nowhere. -/
  of_other : ∀ e ∈ entries, e.2.isNodeForm = false → e.2.kind ≠ .array →
    e.1 ∉ v.nodeOwners ∧ ∀ property, e.1 ∉ v.listOwners property
  /-- No owner counts twice. -/
  disjoint : ∀ owner ∈ v.nodeOwners, ∀ property, owner ∉ v.listOwners property

end Value

/-! ## The forms of the entries -/

namespace Json

variable {j : Json}

/-- Only a list has a property among its texts. -/
theorem kind_of_lists {property : String} (h : j.lists property = true) : j.kind = .array := by
  cases j with
  | arr items => rfl
  | _ => cases h

/-- A list does not have the form of a node. -/
theorem kind_ne_array_of_isNodeForm (h : j.isNodeForm = true) : j.kind ≠ .array := by
  intro harr
  rw [isNodeForm, harr] at h
  cases h

end Json

/-! ## Reading the entries -/

namespace Value

variable {j : Json} {v : Value}

/-- Objects and truth values are read as nodes. -/
theorem isNode_of_readEntry? (h : readEntry? j = some v) : v.isNode = j.isNodeForm := by
  cases j with
  | obj members =>
    obtain ⟨s, -, rfl⟩ := readEntry?_obj_eq_some_iff.1 h
    rfl
  | _ => exact Option.some.inj h ▸ rfl

/-- And they are read so on their own. -/
theorem readNode_of_readEntry? (h : readEntry? j = some v) (hnode : j.isNodeForm = true) :
    Schema.readNode j = .ok v := by
  cases j with
  | obj members => exact Schema.readNode_obj_eq_ok_iff.2 (readEntry?_obj_eq_some_iff.1 h)
  | bool b => exact Option.some.inj h ▸ rfl
  | _ => cases hnode

/-- The texts of a list are kept. -/
theorem contains_dataItems_of_readEntry? (h : readEntry? j = some v) (text : String) :
    (v.dataItems.filterMap Json.str?).contains text = j.lists text := by
  cases j with
  | obj members =>
    obtain ⟨s, -, rfl⟩ := readEntry?_obj_eq_some_iff.1 h
    rfl
  | arr items =>
    obtain rfl := Option.some.inj h
    rw [Bool.eq_iff_iff, List.contains_iff_mem, List.mem_filterMap, Json.lists_arr_iff, dataItems]
    constructor
    · rintro ⟨j, hj, htext⟩
      cases j with
      | str s => exact Option.some.inj htext ▸ hj
      | _ => cases htext
    · exact fun hmem => ⟨_, hmem, rfl⟩
  | _ => exact Option.some.inj h ▸ rfl

end Value

namespace Schema

variable {members : List (String × Json)} {s : Schema}

/-- **The entries are read in order**, each to its own value. -/
theorem forall₂_dependencies (h : read members = .ok s) :
    List.Forall₂ (fun e m => e.1 = m.1 ∧ Value.readEntry? e.2 = some m.2)
      (Document.dependencies members) s.dependencies := by
  unfold Document.dependencies dependencies
  have hname : members.lookup Keyword.dependencies.name = members.lookup "dependencies" := rfl
  cases hj : members.lookup "dependencies" with
  | none =>
    rw [value?_of_lookup_eq_none h (hname.trans hj)]
    change List.Forall₂ _ [] _
    split <;> exact .nil
  | some j =>
    obtain ⟨v, hv, hvalue⟩ := value?_of_lookup_eq_some h (hname.trans hj)
    rw [hvalue, Option.map_some, Option.getD_some]
    cases j with
    | obj entries =>
      obtain ⟨ms, hms, rfl⟩ := Option.map_eq_some_iff.1 hv
      exact Value.readMembers?_eq_some_iff.1 hms
    | null => exact Option.some.inj hv ▸ .nil
    | _ => cases hv

/-- **The nodes are those of the objects and truth values.** -/
theorem forall₂_dependentNodes (h : read members = .ok s) :
    List.Forall₂ (fun e m => e.1 = m.1 ∧ readNode e.2 = .ok m.2)
      ((Document.dependencies members).filter fun e => e.2.isNodeForm) s.dependentNodes := by
  refine (forall₂_filter (forall₂_dependencies h) fun e m hem =>
    (Value.isNode_of_readEntry? hem.2).symm).imp ?_
  rintro e m ⟨⟨hname, hentry⟩, hnode⟩
  exact ⟨hname, Value.readNode_of_readEntry? hentry hnode⟩

/-- **The owners that require a property are those of the lists that have it.** -/
theorem requiredBy_eq (h : read members = .ok s) (property : String) :
    s.requiredBy property =
      ((Document.dependencies members).filter fun e => e.2.lists property).map Prod.fst :=
  map_eq_map_of_forall₂ (forall₂_filter (forall₂_dependencies h) fun _ _ hem =>
    (Value.contains_dataItems_of_readEntry? hem.2 property).symm) fun _ _ _ hem => hem.1.1.symm

/-- The nodes among the entries are read from the document drafted for them. -/
theorem read_draft_dependentNodes (hentries : ∀ m ∈ s.dependencies, m.2.IsEntry) :
    read (draft (s.dependentNodes.map fun m => (m.1, m.2.toJson)) none) =
      .ok (.wrapper s.dependentNodes none) := by
  have hsub : s.dependentNodes.Sublist s.dependencies := List.filter_sublist
  have hmembers : Value.readMembers? (s.dependentNodes.map fun m => (m.1, m.2.toJson)) =
      some s.dependentNodes := by
    rw [Value.readMembers?_eq_some_iff, List.forall₂_map_left_iff, List.forall₂_same]
    exact fun m hm => ⟨rfl, (Value.read_toJson m.2).2 (hentries m (hsub.subset hm))⟩
  rw [read_draft, hmembers]

/-- They make a schema when there is one. -/
theorem dependentSchema?_eq (s : Schema) :
    (Value.schema s).dependentSchema? =
      if s.dependentNodes = [] then none else some (.wrapper s.dependentNodes none) := by
  unfold Value.dependentSchema?
  dsimp only
  split
  next hnil => rw [if_pos hnil]
  next hne => rw [if_neg hne]

/-- Owners are named when there is one. -/
theorem requiredBy?_eq (s : Schema) (property : String) :
    (Value.schema s).requiredBy? property =
      if s.requiredBy property = [] then none else some (s.requiredBy property) := by
  unfold Value.requiredBy?
  dsimp only
  split
  next hnil => rw [if_pos hnil]
  next hne => rw [if_neg hne]

/-- A schema has the dependencies that it is asked for when there are any. -/
theorem get?_dependencies (h : s.dependencies ≠ []) :
    s.get? "dependencies" = some (.map s.dependencies) := by
  have hname : s.get? "dependencies" = s.value? .dependencies := s.get?_name .dependencies
  rw [hname]
  unfold dependencies at h ⊢
  cases hv : s.value? .dependencies with
  | none => exact absurd (by rw [hv]; rfl) h
  | some v =>
    cases v with
    | map ms => rfl
    | _ => exact absurd (by rw [hv]; rfl) h

/-- The owners of the nodes are those of the objects and truth values. -/
theorem nodeOwners_eq (h : read members = .ok s) :
    (Value.schema s).nodeOwners =
      ((Document.dependencies members).filter fun e => e.2.isNodeForm).map Prod.fst := by
  have hnames := map_eq_map_of_forall₂ (f := Prod.fst) (g := Prod.fst) (forall₂_dependentNodes h)
    fun _ _ _ hem => hem.1.symm
  rw [← hnames, Value.nodeOwners, dependentSchema?_eq]
  split
  next hnil => rw [hnil]; rfl
  next => rfl

/-- The owners that require a property are those of the lists that have it. -/
theorem listOwners_eq (h : read members = .ok s) (property : String) :
    (Value.schema s).listOwners property =
      ((Document.dependencies members).filter fun e => e.2.lists property).map Prod.fst := by
  rw [← requiredBy_eq h, Value.listOwners, requiredBy?_eq]
  split
  next hnil => rw [hnil]; rfl
  next => rfl

/-- With distinct owners, an entry's owner has a node when the entry has the
form of one. -/
theorem mem_nodeOwners_iff (h : read members = .ok s)
    (howners : ((Document.dependencies members).map Prod.fst).Nodup) {e : String × Json}
    (he : e ∈ Document.dependencies members) :
    e.1 ∈ (Value.schema s).nodeOwners ↔ e.2.isNodeForm = true := by
  rw [nodeOwners_eq h]
  exact mem_map_fst_filter_iff howners he

/-- And it requires a property when the entry is a list that has it. -/
theorem mem_listOwners_iff (h : read members = .ok s)
    (howners : ((Document.dependencies members).map Prod.fst).Nodup) {e : String × Json}
    (he : e ∈ Document.dependencies members) (property : String) :
    e.1 ∈ (Value.schema s).listOwners property ↔ e.2.lists property = true := by
  rw [listOwners_eq h]
  exact mem_map_fst_filter_iff howners he

/-- No entry has the form of a node when there are no nodes. -/
theorem dependentNodes_eq_nil_iff (h : read members = .ok s) :
    s.dependentNodes = [] ↔ ∀ e ∈ Document.dependencies members, e.2.isNodeForm = false := by
  rw [← List.length_eq_zero_iff, ← (forall₂_dependentNodes h).length_eq, List.length_eq_zero_iff]
  simp

/-- **The schema of the dependencies gathers the nodes among them.** -/
theorem gathersNodes_of_read (h : read members = .ok s) {t : Schema}
    (ht : (Value.schema s).dependentSchema? = some t) :
    t.GathersNodes (Document.dependencies members) (.schema s) := by
  rw [dependentSchema?_eq, Option.ite_none_left_eq_some] at ht
  obtain ⟨hne, ht⟩ := ht
  obtain rfl := Option.some.inj ht
  have hsub : s.dependentNodes.Sublist s.dependencies := List.filter_sublist
  have hdependencies : s.dependencies ≠ [] := fun hnil => hne (List.sublist_nil.1 (hnil ▸ hsub))
  have hentries : ∀ m ∈ s.dependencies, m.2.IsEntry := by
    intro m hm
    obtain ⟨e, -, -, he⟩ := exists_mem_of_forall₂ (forall₂_dependencies h) hm
    exact (Value.fits_and_isEntry_of_read e.2).2 _ he
  refine ⟨rfl, rfl, rfl, rfl, _, _, rfl, forall₂_dependentNodes h,
    get?_dependencies hdependencies, hsub, ?_⟩
  exact readNode_obj_eq_ok_iff.2 ⟨_, read_draft_dependentNodes hentries, rfl⟩

/-- **The dependencies of a document are split without loss or overlap**,
whatever the forms of their entries are. -/
theorem splitsDependencies_of_readNode {v : Value} (h : readNode (.obj members) = .ok v)
    (howners : ((Document.dependencies members).map Prod.fst).Nodup) :
    v.SplitsDependencies (Document.dependencies members) := by
  obtain ⟨s, hs, rfl⟩ := readNode_obj_eq_ok_iff.1 h
  refine ⟨?_, fun t => gathersNodes_of_read hs, fun property => ?_, listOwners_eq hs,
    fun property => ?_, fun e he hform => ?_, fun owner items he => ?_,
    fun e he hother hkind => ?_, fun owner howner property hproperty => ?_⟩
  · rw [dependentSchema?_eq, ite_eq_left_iff, ← dependentNodes_eq_nil_iff hs]
    simp
  · rw [requiredBy?_eq, requiredBy_eq hs, ite_eq_left_iff]
    simp
  · rw [listOwners_eq hs]
    exact (List.filter_sublist.map _).nodup howners
  · refine ⟨(mem_nodeOwners_iff hs howners he).2 hform, fun property hproperty => ?_⟩
    have hlists := (mem_listOwners_iff hs howners he property).1 hproperty
    exact Json.kind_ne_array_of_isNodeForm hform (Json.kind_of_lists hlists)
  · refine ⟨fun howner => ?_, fun property => ?_⟩
    · exact Json.kind_ne_array_of_isNodeForm ((mem_nodeOwners_iff hs howners he).1 howner) rfl
    · rw [← Json.lists_arr_iff]
      exact mem_listOwners_iff hs howners he property
  · refine ⟨fun howner => ?_, fun property hproperty => ?_⟩
    · rw [(mem_nodeOwners_iff hs howners he).1 howner] at hother
      cases hother
    · exact hkind (Json.kind_of_lists ((mem_listOwners_iff hs howners he property).1 hproperty))
  · -- the owner is that of one entry, which would have two forms
    rw [nodeOwners_eq hs] at howner
    obtain ⟨e, he, rfl⟩ := List.mem_map.1 howner
    obtain ⟨he, hform⟩ := List.mem_filter.1 he
    have hlists := (mem_listOwners_iff hs howners he property).1 hproperty
    exact Json.kind_ne_array_of_isNodeForm hform (Json.kind_of_lists hlists)

/-- An object whose dependencies have entries of every form: lists that name
each other, themselves and what is no text, nodes with other spellings inside,
and entries that say nothing. -/
def mixedDependencies : List (String × Json) :=
  [("title", .str "mixed"),
    ("dependencies", .obj
      [("a", .arr [.str "b", .num (.int 3), .str "a", .str "b", .arr [.str "c"]]),
        ("b", .arr [.str "a"]),
        ("c", .obj [("minLength", .str "+3"), ("required", .arr [.str "a"])]),
        ("d", .bool false), ("e", .null), ("f", .arr []), ("g", .str "a")])]

theorem splitsDependencies_mixedDependencies :
    ((Document.dependencies mixedDependencies).map Prod.fst).Nodup ∧
      ∃ v, readNode (.obj mixedDependencies) = .ok v ∧
        v.SplitsDependencies (Document.dependencies mixedDependencies) ∧
        v.listOwners "a" = ["a", "b"] ∧ v.requiredBy? "c" = none ∧
        ∃ s, v.dependentSchema? = some s ∧ s.toJson.member? "properties" =
          some (.obj [("c", .obj [("minLength", .num (.int 3)), ("required", .arr [.str "a"])]),
            ("d", .bool false)]) := by
  have howners : ((Document.dependencies mixedDependencies).map Prod.fst).Nodup := by decide
  obtain ⟨s, hs⟩ := exists_read_of_refused_eq_nil
    (show refused (Value.readFields mixedDependencies) = [] by decide +kernel)
  have hread := readNode_obj_eq_ok_iff.2 ⟨s, hs, rfl⟩
  have hsplits := splitsDependencies_of_readNode hread howners
  refine ⟨howners, _, hread, hsplits, ?_, ?_, ?_⟩
  · rw [hsplits.listOwners_eq]
    decide
  · rw [hsplits.requiredBy?_eq_none_iff]
    decide
  · obtain rfl := (read_eq_ok_iff.1 hs).2
    exact ⟨_, rfl, rfl⟩

end Schema

end SchemaProse
