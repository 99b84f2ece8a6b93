import SchemaProse.Proofs.Synthesis.Entries
import SchemaProse.Proofs.Synthesis.Wrapper
import SchemaProse.Synthesis.Parameter
/-!
# Synthesis — the parameters of a channel

A parameter's property is drafted as a document: the one that its schema is
written as, with the description and the place of the parameter put in. Reading
the draft never fails, since the schema has been read before and texts fit
where they are put, and what is read is written as the draft with its keywords
in order (`spells_documentMembers`). So parameters are refused for an entry
that is no parameter, and for nothing else (`synthesize_reproduces`).
-/

namespace SchemaProse

namespace Parameter

/-! ## Documents of parameters -/

/-- The members of the object that a parameter's schema is written as. A schema
that accepts everything has none. -/
def ownMembers (p : Parameter) : List (String × Json) :=
  match p.schema with
  | some (.schema s) => s.written
  | some (.data (.bool false)) => [("not", .obj [])]
  | _ => []

/-- Puts a text in under a keyword, if there is one. -/
def putText (k : Keyword) (text : Option String) (members : List (String × Json)) :
    List (String × Json) :=
  match text with
  | some text => Json.putMember k.name (.str text) members
  | none => members

/-- The members of the property that is drafted for a parameter. -/
def documentMembers (p : Parameter) : List (String × Json) :=
  putText .parameterLocation p.location (putText .description p.description p.ownMembers)

/-- The document that is drafted for some parameters. -/
def draft (ps : List (String × Parameter)) : Json :=
  .obj (Schema.draft (ps.map fun m => (m.1, .obj m.2.documentMembers)) (some (ps.map Prod.fst)))

/-- The names under which a parameter's own texts are put. -/
def annotates (name : String) : Bool :=
  name == Keyword.description.name || name == Keyword.parameterLocation.name

/-- The schema shows the parameter: it is the parameter's own, with the
description and the place put in. -/
structure Reproduces (p : Parameter) (s : Schema) : Prop where
  /-- It has the parameter's description, or its own when there is none. -/
  description : s.toJson.member? "description" =
    (p.description.map Json.str).or (p.ownMembers.lookup "description")
  /-- It has the parameter's place, or its own when there is none. -/
  location : s.toJson.member? "x-schema-private-parameter-location" =
    (p.location.map Json.str).or (p.ownMembers.lookup "x-schema-private-parameter-location")
  /-- All other members are those of the parameter's schema, in their order. -/
  others : s.written.filter (fun m => !annotates m.1) =
    p.ownMembers.filter fun m => !annotates m.1
  /-- It is written as the document drafted for it, with the keywords in
  order. -/
  written : s.written = Schema.arranged p.documentMembers

/-- The schema gathers the parameters: an object schema that is not shown
itself, with one required property for each of them. -/
structure Gathers (ps : List (String × Parameter)) (s : Schema) : Prop where
  keywords : s.keywords = ["type", "properties", "required", "x-schema-private-render-type",
    "x-schema-private-render-additional-info"]
  type : s.get? "type" = some (.data (.str "object"))
  required : s.get? "required" = some (.data (.arr ((ps.map Prod.fst).map .str)))
  renderType : s.get? "x-schema-private-render-type" = some (.bool false)
  renderAdditionalInfo : s.get? "x-schema-private-render-additional-info" = some (.bool false)
  properties : ∃ properties, s.get? "properties" = some (.map properties) ∧
    List.Forall₂ (fun p m => m.1 = p.1 ∧ ∃ t, m.2 = .schema t ∧ p.2.Reproduces t) ps properties

/-! ## Reading them -/

variable {p : Parameter} {s : Schema} {members : List (String × Json)}

/-- A field that is not empty is read from the member of its name. -/
theorem exists_of_field?_eq_some {α : Type} {reader : Json → Option α} {name : String} {a : α}
    (h : field? reader members name = some (some a)) :
    ∃ j, members.lookup name = some j ∧ reader j = some a := by
  unfold field? at h
  split at h
  · cases h
  · cases h
  next j _ hj =>
    obtain ⟨b, hb, hab⟩ := Option.map_eq_some_iff.1 h
    exact ⟨j, hj, Option.some.inj hab ▸ hb⟩

/-- A parameter's schema is read from the member of that name. -/
theorem exists_of_read {j : Json} (h : read j = .ok p) :
    ∃ members, j = .obj members ∧ field? (Value.read? .node) members "schema" = some p.schema := by
  cases j with
  | obj members =>
    refine ⟨members, rfl, ?_⟩
    simp only [read] at h
    split at h
    next hschema _ _ => exact Except.ok.inj h ▸ hschema
    next => cases h
  | _ => cases h

/-- A parameter's schema fits in the place of a node. -/
theorem fits_of_read {j : Json} (h : read j = .ok p) {v : Value} (hv : p.schema = some v) :
    v.Fits .node := by
  obtain ⟨members, -, hschema⟩ := exists_of_read h
  rw [hv] at hschema
  obtain ⟨i, -, hi⟩ := exists_of_field?_eq_some hschema
  exact (Value.fits_and_isEntry_of_read i).1 _ _ hi

/-- **A parameter's schema is written as its own members**, and is well
formed. -/
theorem ownMembers_eq_written {j : Json} (h : read j = .ok p) :
    p.ownMembers = (nodeSchema p.schema).written ∧ (nodeSchema p.schema).WellFormed := by
  have hempty : Schema.empty.WellFormed := .intro (List.nil_sublist _) nofun nofun nofun
  have hnothing : Schema.WellFormed ⟨[(.negation, .schema .empty)], []⟩ := by
    refine .intro (by decide) ?_ nofun nofun
    exact List.forall_mem_singleton.2 (.schema rfl hempty)
  unfold ownMembers nodeSchema
  cases hp : p.schema with
  | none => exact ⟨rfl, hempty⟩
  | some v =>
    cases fits_of_read h hp with
    | null => exact ⟨rfl, hempty⟩
    | scalar hj => cases hj
    | @bool _ b _ =>
      cases b with
      | true => exact ⟨rfl, hempty⟩
      | false => exact ⟨rfl, hnothing⟩
    | schema _ hwf => exact ⟨rfl, hwf⟩
    | list hlist _ => cases hlist

/-- A text that is put in is found under its keyword. -/
theorem lookup_putText (k : Keyword) (text : Option String) (members : List (String × Json))
    (name : String) :
    (putText k text members).lookup name =
      if name = k.name then (text.map Json.str).or (members.lookup name)
      else members.lookup name := by
  cases text with
  | none => simp [putText]
  | some text => rw [putText, Json.lookup_putMember, Option.map_some, Option.some_or]

/-- Putting a text in leaves the members that are no keyword. -/
theorem unknown_putText (k : Keyword) (text : Option String) (members : List (String × Json)) :
    Schema.unknown (putText k text members) = Schema.unknown members := by
  cases text with
  | none => rfl
  | some text => exact Json.unknown_putMember _ _ k

/-- Putting a text in keeps members that spell a schema. -/
theorem spells_putText {k : Keyword} (hk : k.shape = .text) (text : Option String)
    (h : Schema.Spells members s ∧ s.WellFormed) :
    Schema.Spells (putText k text members) (annotate s k text) ∧
      (annotate s k text).WellFormed := by
  cases text with
  | none => exact h
  | some text =>
    have hfits : Value.Fits k.shape (.data (.str text)) := hk ▸ .scalar rfl
    exact ⟨h.1.put k (.data (.str text)), h.2.set hfits⟩

/-- **A parameter's property is spelt by the document drafted for it.** -/
theorem spells_documentMembers {j : Json} (h : read j = .ok p) :
    Schema.Spells p.documentMembers p.toSchema ∧ p.toSchema.WellFormed := by
  obtain ⟨hown, hwf⟩ := ownMembers_eq_written h
  have hspells : Schema.Spells p.ownMembers (nodeSchema p.schema) :=
    hown ▸ Schema.spells_written hwf
  exact spells_putText rfl p.location (spells_putText rfl p.description ⟨hspells, hwf⟩)

/-- **The property reproduces the parameter.** -/
theorem reproduces_of_read {j : Json} (h : read j = .ok p) : p.Reproduces p.toSchema := by
  obtain ⟨hspells, hwf⟩ := spells_documentMembers h
  have hwritten : p.toSchema.written = Schema.arranged p.documentMembers := hspells.written_eq hwf
  have hmember : ∀ name, p.toSchema.toJson.member? name = p.documentMembers.lookup name := by
    intro name
    rw [Schema.toJson_eq_written, hwritten]
    exact Schema.lookup_arranged _ name
  have hlookup : ∀ name, p.documentMembers.lookup name =
      if name = Keyword.parameterLocation.name then
        (p.location.map Json.str).or ((putText .description p.description p.ownMembers).lookup name)
      else (putText .description p.description p.ownMembers).lookup name :=
    lookup_putText _ _ _
  refine ⟨?_, ?_, ?_, hwritten⟩
  · have hname : "description" = Keyword.description.name := rfl
    rw [hmember, hlookup, if_neg (by decide), lookup_putText, if_pos hname]
  · have hname : "x-schema-private-parameter-location" = Keyword.parameterLocation.name := rfl
    rw [hmember, hlookup, if_pos hname, lookup_putText, if_neg (by decide)]
  · -- the parameter's own members are arranged already, and the texts are put elsewhere
    have hown : Schema.arranged p.ownMembers = p.ownMembers := by
      obtain ⟨hown, hwf⟩ := ownMembers_eq_written h
      rw [hown, Schema.arranged_written hwf]
    have hunknown : Schema.unknown p.documentMembers = Schema.unknown p.ownMembers := by
      rw [documentMembers, unknown_putText, unknown_putText]
    rw [hwritten]
    conv_rhs => rw [← hown]
    refine Schema.filter_arranged_congr (fun name => !annotates name) (fun k hk => ?_) hunknown
    have hk' : k.name ≠ Keyword.description.name ∧ k.name ≠ Keyword.parameterLocation.name := by
      simpa [annotates] using hk
    rw [hlookup, if_neg hk'.2, lookup_putText, if_neg hk'.1]

/-! ## The schema of some parameters -/

/-- The schema of parameters that are given as they may be, if there are any. -/
def synthesize (entries : Option (List (String × Given read))) :
    Except Refusal (Option Schema) :=
  (readEach Given.read (entries.getD [])).map schemaOf?

/-- On documents, this is reading all of them and gathering what was read. -/
theorem synthesize_documents (documents : List (String × Json)) :
    synthesize (some (documents.map fun m => (m.1, .document m.2))) =
      (readAll documents).map schemaOf? := by
  rw [synthesize, Option.getD_some, readEach_documents, readAll]

variable {entries : List (String × Given read)} {ps : List (String × Parameter)}

/-- The properties are read from the documents drafted for the parameters. -/
theorem readMembers?_documents (h : ∀ m ∈ ps, ∃ j, read j = .ok m.2) :
    Value.readMembers? (ps.map fun m => (m.1, .obj m.2.documentMembers)) =
      some (ps.map fun m => (m.1, .schema m.2.toSchema)) := by
  rw [Value.readMembers?_eq_some_iff, List.forall₂_map_left_iff, List.forall₂_map_right_iff,
    List.forall₂_same]
  intro m hm
  obtain ⟨j, hj⟩ := h m hm
  obtain ⟨hspells, hwf⟩ := spells_documentMembers hj
  exact ⟨rfl, Value.readEntry?_obj_eq_some_iff.2 ⟨_, hspells.read hwf, rfl⟩⟩

/-- The schema that parameters make, if there are any. -/
theorem schemaOf?_of_ne_nil (h : ps ≠ []) :
    schemaOf? ps = some (.wrapper (ps.map fun m => (m.1, .schema m.2.toSchema))
      (some (ps.map Prod.fst))) := by
  cases ps with
  | nil => exact absurd rfl h
  | cons m ps => rfl

/-- **The schema that parameters make is read from the document drafted for
them.** -/
theorem readNode_draft (h : ∀ m ∈ ps, ∃ j, read j = .ok m.2) (hs : schemaOf? ps = some s) :
    Schema.readNode (draft ps) = .ok (.schema s) := by
  have hne : ps ≠ [] := by
    rintro rfl
    cases hs
  have hdraft := Schema.read_draft (ps.map fun m => (m.1, .obj m.2.documentMembers))
    (some (ps.map Prod.fst))
  rw [readMembers?_documents h] at hdraft
  rw [schemaOf?_of_ne_nil hne] at hs
  exact Schema.readNode_obj_eq_ok_iff.2 ⟨_, hdraft, by rw [Option.some.inj hs]⟩

/-- **It gathers the parameters.** -/
theorem gathers_schemaOf? (h : ∀ m ∈ ps, ∃ j, read j = .ok m.2) (hs : schemaOf? ps = some s) :
    Gathers ps s := by
  have hne : ps ≠ [] := by
    rintro rfl
    cases hs
  rw [schemaOf?_of_ne_nil hne] at hs
  obtain rfl := Option.some.inj hs
  refine ⟨rfl, rfl, rfl, rfl, rfl, _, rfl, ?_⟩
  rw [List.forall₂_map_right_iff, List.forall₂_same]
  intro m hm
  obtain ⟨j, hj⟩ := h m hm
  exact ⟨rfl, _, rfl, reproduces_of_read hj⟩

/-- **Parameters are refused for an entry only, and are reproduced otherwise.**
No parameters make no schema. The refusal is that of the first entry that is
refused; when none is, the document drafted for the parameters is read as a
schema, which gathers them. -/
theorem synthesize_reproduces (entries : List (String × Given read)) :
    synthesize none = .ok none ∧ synthesize (some []) = .ok none ∧
    (∀ r, synthesize (some entries) = .error r ↔ FirstRefusal Given.read entries r) ∧
    (entries ≠ [] → (∀ m ∈ entries, ∃ p, m.2.read = .ok p) →
      ∃ ps s, List.Forall₂ (fun m n => m.1 = n.1 ∧ m.2.read = .ok n.2) entries ps ∧
        synthesize (some entries) = .ok (some s) ∧
        Schema.readNode (draft ps) = .ok (.schema s) ∧ Gathers ps s) := by
  refine ⟨rfl, rfl, fun r => ?_, fun hne hall => ?_⟩
  · rw [← readEach_eq_error_iff, synthesize, Option.getD_some]
    cases readEach Given.read entries <;> simp [Except.map]
  · obtain ⟨ps, hps⟩ := exists_readEach_of_forall hall
    have hread : ∀ m ∈ ps, ∃ j, read j = .ok m.2 := exists_document_of_readEach hps
    have hne' : ps ≠ [] := by
      rintro rfl
      exact hne (List.forall₂_nil_right_iff.1 (readEach_eq_ok_iff.1 hps))
    have hs := schemaOf?_of_ne_nil hne'
    refine ⟨ps, _, readEach_eq_ok_iff.1 hps, ?_, readNode_draft hread hs,
      gathers_schemaOf? hread hs⟩
    rw [synthesize, Option.getD_some, hps, Except.map, hs]

/-- A parameter that adds to its schema, one that takes nothing, and one that has been read
before and takes everything. -/
def threeParameters : List (String × Given read) :=
  [("user", .document (.obj [("location", .str "$message.payload#/user"),
      ("schema", .obj [("x-a", .null), ("description", .str "own"), ("minLength", .str "3")]),
      ("description", .str "A user")])),
    ("nobody", .document (.obj [("schema", .bool false), ("description", .null)])),
    ("anybody", .built ⟨some (.bool true), none, none, []⟩ ⟨.obj [("schema", .bool true)], rfl⟩)]

theorem synthesize_threeParameters :
    threeParameters ≠ [] ∧ (∀ m ∈ threeParameters, ∃ p, m.2.read = .ok p) ∧
      ∃ ps s, synthesize (some threeParameters) = .ok (some s) ∧ Gathers ps s ∧
        Schema.readNode (draft ps) = .ok (.schema s) ∧
        s.toJson.member? "properties" = some (.obj
          [("user", .obj [("description", .str "A user"), ("minLength", .num (.int 3)),
              ("x-schema-private-parameter-location", .str "$message.payload#/user"),
              ("x-a", .null)]),
            ("nobody", .obj [("not", .obj [])]),
            ("anybody", .obj [])]) := by
  have hread : ∀ m ∈ threeParameters, ∃ p, m.2.read = .ok p := by
    simp only [threeParameters, List.forall_mem_cons]
    exact ⟨⟨_, rfl⟩, ⟨_, rfl⟩, ⟨_, rfl⟩, nofun⟩
  obtain ⟨ps, s, -, hs, hdraft, hgathers⟩ :=
    (synthesize_reproduces threeParameters).2.2.2 (List.cons_ne_nil _ _) hread
  refine ⟨List.cons_ne_nil _ _, hread, ps, s, hs, hgathers, hdraft, ?_⟩
  obtain rfl := Option.some.inj (Except.ok.inj hs)
  rfl

end Parameter

end SchemaProse
