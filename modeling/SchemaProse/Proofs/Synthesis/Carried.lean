import SchemaProse.Proofs.Schema.Views
import SchemaProse.Proofs.Synthesis.Variables
/-!
# Synthesis — what is carried over from a server's variables

Each variable is read, written, given the type `string` and read again as a
schema. Both readings keep a field as it is, present or absent, empty or not, and
so they keep the members that are no keyword of a schema, in their order. So the
property that a variable becomes has the fields of the variable as it was given
and its open extensions, and no type but `string` (`Carries`). The schema has one
such property for each variable, in order, and requires them all
(`synthesize_carries`).
-/

namespace SchemaProse

namespace ServerVariable

/-! ## The members of a variable as it is given -/

/-- The members of a variable: those of its document, or those that were read
before. -/
def givenMembers : Given read → List (String × Json)
  | .document j => j.obj?.getD []
  | .built v _ => v.members

/-- The keywords with the names of the fields. -/
def fieldKeywords : List Keyword :=
  [.enum, .defaultValue, .description, .examples]

/-- The name is an extension's, and not that of a private marker. -/
def isOpenExtension (name : String) : Bool :=
  Schema.isExtension name && !Text.startsWith "x-schema-private-" name

/-- The property carries the members of a variable. -/
structure Carries (given : List (String × Json)) (p : Schema) : Prop where
  /-- Its type is `string`, whatever type is given. -/
  type : p.value? .type = some (.data (.str "string"))
  /-- It has the fields that are given, as they are given, and no other. -/
  field : ∀ k ∈ fieldKeywords, p.value? k = (given.lookup k.name).map .data
  /-- It has the open extensions that are given, in their order. -/
  extensions : p.written.filter (fun m => isOpenExtension m.1) =
    given.filter fun m => isOpenExtension m.1

/-- The schema carries the variables. -/
structure CarriesAll (entries : List (String × Given read)) (s : Schema) : Prop where
  /-- Their names are required. -/
  required : s.value? .required = some (.data (.arr ((entries.map Prod.fst).map .str)))
  /-- They are the names of the properties, and each property carries its
  variable. -/
  properties : ∃ properties, s.value? .properties = some (.map properties) ∧
    properties.map Prod.fst = entries.map Prod.fst ∧
    List.Forall₂ (fun m n => ∃ p, n.2 = .schema p ∧ Carries (givenMembers m.2) p)
      entries properties

/-! ## What is kept by reading a variable -/

variable {e : Given read} {v : ServerVariable}

/-- The names of the fields are those of keywords. -/
theorem map_fst_fieldShapes : fieldShapes.map Prod.fst = fieldKeywords.map Keyword.name :=
  rfl

/-- A name is looked up among the members that were read as among those that are
given. -/
theorem lookup_members_of_read (h : e.read = .ok v) (name : String) :
    v.members.lookup name = (givenMembers e).lookup name := by
  cases e with
  | built w hw =>
    obtain rfl := Except.ok.inj h
    rfl
  | document j =>
    obtain ⟨ms, rfl, -, rfl⟩ := exists_of_read h
    have hfields : (fieldShapes.filterMap fun f => (ms.lookup f.1).map (f.1, ·)) =
        (fieldShapes.map Prod.fst).filterMap fun n => (ms.lookup n).map (n, ·) := by
      rw [List.filterMap_map]
      rfl
    have hothers := lookup_filter_name (fun n => (fieldShapes.lookup n).isNone) ms name
    have hfst : ∀ n (m : String × Json), (ms.lookup n).map (n, ·) = some m → m.1 = n := by
      intro n m hm
      obtain ⟨j, -, rfl⟩ := Option.map_eq_some_iff.1 hm
      rfl
    rw [members, List.lookup_append, hfields, hothers]
    change _ = ms.lookup name
    by_cases hname : name ∈ fieldShapes.map Prod.fst
    · -- a field is looked up among the fields only
      have hfield : (fieldShapes.lookup name).isNone = false := by
        simpa using Option.isSome_iff_ne_none.1 (lookup_isSome_iff_mem.2 hname)
      rw [lookup_filterMap_key hfst hname, hfield, if_neg Bool.false_ne_true, Option.or_none,
        Option.map_map]
      exact Option.map_id'
    · have hnone : ((fieldShapes.map Prod.fst).filterMap fun n =>
          (ms.lookup n).map (n, ·)).lookup name = none :=
        lookup_eq_none_iff_notMem.2 fun hmem =>
          hname ((map_fst_filterMap_sublist hfst _).subset hmem)
      rw [hnone, lookup_eq_none_iff_notMem.2 hname, Option.none_or]
      rfl

/-- The members with names that no field has are kept in their order. -/
theorem filter_members_of_read (h : e.read = .ok v) {p : String → Bool}
    (hp : ∀ name ∈ fieldShapes.map Prod.fst, p name = false) :
    v.members.filter (fun m => p m.1) = (givenMembers e).filter fun m => p m.1 := by
  cases e with
  | built w hw =>
    obtain rfl := Except.ok.inj h
    rfl
  | document j =>
    obtain ⟨ms, rfl, -, rfl⟩ := exists_of_read h
    have hfields : (fieldShapes.filterMap fun f => (ms.lookup f.1).map (f.1, ·)).filter
        (fun m => p m.1) = [] := by
      refine List.filter_eq_nil_iff.2 fun m hm => ?_
      obtain ⟨f, hf, hfm⟩ := List.mem_filterMap.1 hm
      obtain ⟨j, -, rfl⟩ := Option.map_eq_some_iff.1 hfm
      simp [hp f.1 (List.mem_map_of_mem hf)]
    have hothers : ∀ m ∈ ms, (p m.1 && (fieldShapes.lookup m.1).isNone) = p m.1 := by
      intro m _
      cases hpm : p m.1 with
      | false => rfl
      | true =>
        have hname : m.1 ∉ fieldShapes.map Prod.fst := fun hmem =>
          Bool.false_ne_true ((hp _ hmem).symm.trans hpm)
        rw [lookup_eq_none_iff_notMem.2 hname]
        rfl
    rw [members, List.filter_append, hfields, List.nil_append, List.filter_filter,
      List.filter_congr hothers]
    rfl

/-! ## What is kept by making it a property -/

/-- An extension among the keywords is a private marker. -/
theorem isOpenExtension_keyword (k : Keyword) : isOpenExtension k.name = false := by
  rw [isOpenExtension]
  cases hextension : Schema.isExtension k.name with
  | false => rfl
  | true =>
    rw [Schema.startsWith_of_mem_markers (Schema.mem_markers_of_isExtension hextension)]
    rfl

/-- A name of an open extension is that of no keyword. -/
theorem ofName?_isNone_of_isOpenExtension {name : String} (h : isOpenExtension name = true) :
    (Keyword.ofName? name).isNone = true := by
  rw [Option.isNone_iff_eq_none, Keyword.ofName?_eq_none_iff]
  rintro k rfl
  exact Bool.false_ne_true ((isOpenExtension_keyword k).symm.trans h)

variable {p : Schema}

theorem lookup_documentMembers (v : ServerVariable) (name : String) :
    v.documentMembers.lookup name =
      if name = Keyword.type.name then some (.str Json.Kind.string.name)
      else v.members.lookup name :=
  Json.lookup_putMember _ _ _ name

/-- A keyword that keeps its values is read as it stands in the members. -/
theorem value?_eq_of_isVerbatim {members : List (String × Json)} (h : Schema.read members = .ok p)
    {k : Keyword} (hk : k.shape.isVerbatim = true) (hidentifier : k.identifier = k.name) :
    p.value? k = (members.lookup k.name).map .data := by
  cases hj : members.lookup k.name with
  | some j =>
    obtain ⟨w, hw, hp⟩ := Schema.value?_of_lookup_eq_some h hj
    rw [hp, Value.eq_data_of_readGiven? hk hw]
    rfl
  | none =>
    have hunknown : (Schema.unknown members).lookup k.identifier = none := by
      rw [hidentifier, Schema.lookup_unknown_eq, Keyword.ofName?_name]
      rfl
    rw [Schema.value?_of_lookup_eq_none h hj, hunknown]
    rfl

/-- **The property carries the variable.** -/
theorem carries_of_read (h : e.read = .ok v) (hp : Schema.read v.documentMembers = .ok p) :
    Carries (givenMembers e) p where
  type := by
    rw [value?_eq_of_isVerbatim hp rfl rfl, lookup_documentMembers, if_pos rfl]
    rfl
  field k hk := by
    have hkeyword : ∀ k ∈ fieldKeywords, k.shape.isVerbatim = true ∧ k.identifier = k.name ∧
        k.name ≠ Keyword.type.name := by decide
    obtain ⟨hshape, hidentifier, hne⟩ := hkeyword k hk
    rw [value?_eq_of_isVerbatim hp hshape hidentifier, lookup_documentMembers, if_neg hne,
      lookup_members_of_read h]
  extensions := by
    have hdeclared : (p.declared.map fun m => (m.1.name, m.2.toJson)).filter
        (fun m => isOpenExtension m.1) = [] := by
      refine List.filter_eq_nil_iff.2 fun m hm => ?_
      obtain ⟨d, -, rfl⟩ := List.mem_map.1 hm
      simp [isOpenExtension_keyword]
    have hunknown : ∀ m ∈ v.members, (isOpenExtension m.1 && (Keyword.ofName? m.1).isNone) =
        isOpenExtension m.1 := by
      intro m _
      cases hopen : isOpenExtension m.1 with
      | false => rfl
      | true => rw [ofName?_isNone_of_isOpenExtension hopen]; rfl
    have hfields : ∀ name ∈ fieldShapes.map Prod.fst, isOpenExtension name = false := by
      rw [map_fst_fieldShapes, List.forall_mem_map]
      exact fun k _ => isOpenExtension_keyword k
    rw [Schema.written, List.filter_append, hdeclared, List.nil_append, Schema.extra_of_read hp,
      documentMembers, Json.unknown_putMember, Schema.unknown, List.filter_filter,
      List.filter_congr hunknown, filter_members_of_read h hfields]

/-! ## The schema of all variables -/

variable {entries : List (String × Given read)} {s : Schema}

/-- A schema that is made is the wrapper of the properties that the variables
become. -/
theorem exists_of_synthesize (h : synthesize (some entries) = .ok (some s)) :
    ∃ vs properties,
      List.Forall₂ (fun m n => m.1 = n.1 ∧ m.2.read = .ok n.2) entries vs ∧
      List.Forall₂ (fun m n => m.1 = n.1 ∧ ∃ p, Schema.read m.2.documentMembers = .ok p ∧
        n.2 = .schema p) vs properties ∧
      s = .wrapper properties (some (vs.map Prod.fst)) := by
  rw [synthesize, Option.getD_some] at h
  cases hvs : readEach Given.read entries with
  | error r => rw [hvs] at h; cases h
  | ok vs =>
    rw [hvs, Except.bind] at h
    have hne : vs ≠ [] := by
      rintro rfl
      cases h
    rw [schemaOf?_of_ne_nil hne] at h
    split at h
    next properties hproperties =>
      rw [properties?_eq, Value.readMembers?_eq_some_iff, List.forall₂_map_left_iff] at hproperties
      simp only [Value.readEntry?_obj_eq_some_iff] at hproperties
      exact ⟨vs, properties, readEach_eq_ok_iff.1 hvs, hproperties,
        (Option.some.inj (Except.ok.inj h)).symm⟩
    next => cases h

/-- **A schema of variables carries them all.** There is none when there are no
variables. -/
theorem synthesize_carries (entries : List (String × Given read)) :
    synthesize none = .ok none ∧ synthesize (some []) = .ok none ∧
      ∀ s, synthesize (some entries) = .ok (some s) → CarriesAll entries s := by
  refine ⟨rfl, rfl, fun s hs => ?_⟩
  obtain ⟨vs, properties, hvs, hproperties, rfl⟩ := exists_of_synthesize hs
  have hnames : vs.map Prod.fst = entries.map Prod.fst :=
    map_eq_map_of_forall₂ hvs fun _ _ _ hm => hm.1.symm
  have hpropertyNames : properties.map Prod.fst = vs.map Prod.fst :=
    map_eq_map_of_forall₂ hproperties fun _ _ _ hm => hm.1.symm
  refine ⟨?_, properties, rfl, hpropertyNames.trans hnames, ?_⟩
  · rw [← hnames]
    rfl
  · refine forall₂_comp (fun m v n hm hn => ?_) hvs hproperties
    obtain ⟨-, p, hp, hn⟩ := hn
    exact ⟨p, hn, carries_of_read hm.2 hp⟩

/-- A variable with a type of its own, an empty default and extensions, and one that
has been read before. -/
def twoVariables : List (String × Given read) :=
  [("port", .document (.obj [("x-b", .null), ("type", .num (.int 5)),
      ("enum", .arr [.str "1883", .str "8883"]), ("x-schema-private-note", .str "kept"),
      ("default", .null), ("x-a", .arr [])])),
    ("host", .built ⟨[("description", .str "A host")], [("maxLength", .str "4")]⟩
      ⟨.obj [("maxLength", .str "4"), ("description", .str "A host")], rfl⟩)]

theorem synthesize_twoVariables :
    ∃ s, synthesize (some twoVariables) = .ok (some s) ∧ CarriesAll twoVariables s ∧
      s.toJson.member? "required" = some (.arr [.str "port", .str "host"]) ∧
      s.toJson.member? "properties" = some (.obj
        [("port", .obj [("default", .null), ("type", .str "string"),
            ("enum", .arr [.str "1883", .str "8883"]), ("x-b", .null),
            ("x-schema-private-note", .str "kept"), ("x-a", .arr [])]),
          ("host", .obj [("description", .str "A host"), ("type", .str "string"),
            ("maxLength", .num (.int 4))])]) := by
  obtain ⟨s, hs⟩ : ∃ s, synthesize (some twoVariables) = .ok (some s) := ⟨_, rfl⟩
  refine ⟨s, hs, (synthesize_carries twoVariables).2.2 s hs, ?_⟩
  obtain rfl := Option.some.inj (Except.ok.inj hs)
  exact ⟨rfl, rfl⟩

end ServerVariable

end SchemaProse
