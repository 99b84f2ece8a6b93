import SchemaProse.Proofs.Reading.Steps
import SchemaProse.Proofs.Schema.Written
import SchemaProse.Synthesis.Example
/-!
# Synthesis — what the schema of an example shows

The schema of an example has the structure of the example and the literal text
of its leaves, and nothing else. `Example.document` says this without schemas,
as the document that the schema is read from and, with its markers in another
order, as the one that it is written as. Two examples have the same schema
exactly when they *resemble* each other: the same tree, the same names in the
same order, and the same literal text at each leaf, of whatever kind the leaf
is.
-/

namespace SchemaProse

/-! ## Objects whose members are keywords -/

namespace Keyword

/-- The members of an object that gives keywords their values. -/
def members (fields : List (Keyword × Json)) : List (String × Json) :=
  fields.map fun f => (f.1.name, f.2)

end Keyword

/-- Each keyword is read under its shape. -/
theorem Value.readFields_members (fields : List (Keyword × Json)) :
    readFields (Keyword.members fields) = fields.map fun f => (f.1, readGiven? f.1.shape f.2) := by
  induction fields with
  | nil => rfl
  | cons f fields ih =>
    rw [List.map_cons, ← ih]
    simp only [Keyword.members, List.map_cons, readFields, Keyword.ofName?_name, readGiven?]

/-- An object of keywords has no other members. -/
theorem Schema.unknown_members (fields : List (Keyword × Json)) :
    unknown (Keyword.members fields) = [] := by
  rw [unknown, List.filter_eq_nil_iff]
  intro m hm
  obtain ⟨f, -, rfl⟩ := List.mem_map.1 hm
  simp [Keyword.ofName?_name]

/-- An object of keywords is put together from their readings alone. -/
theorem Schema.read_members (fields : List (Keyword × Json)) :
    read (Keyword.members fields) =
      assemble [] (fields.map fun f => (f.1, Value.readGiven? f.1.shape f.2)) := by
  rw [read, assemble, assemble, Value.readFields_members, unknown_members]
  rfl

namespace Example

/-- A fact that carries from the parts of an example to the example holds of
every example. -/
theorem ind {P : Example → Prop} (undefined : P .undefined) (null : P .null)
    (bool : ∀ b, P (.bool b)) (num : ∀ n, P (.num n)) (str : ∀ s, P (.str s))
    (arr : ∀ items, (∀ e ∈ items, P e) → P (.arr items))
    (obj : ∀ members, (∀ m ∈ members, P m.2) → P (.obj members)) (e : Example) : P e :=
  @Example.rec P (fun items => ∀ e ∈ items, P e) (fun members => ∀ m ∈ members, P m.2)
    (fun m => P m.2) undefined null bool num str arr obj (by simp)
    (fun _ _ head tail => List.forall_mem_cons.2 ⟨head, tail⟩) (by simp)
    (fun _ _ head tail => List.forall_mem_cons.2 ⟨head, tail⟩) (fun _ _ value => value) e

/-- The literal text of a leaf. -/
def literal? (settings : Settings) : Example → Option String
  | .undefined => some settings.undefinedLiteral
  | .null => some settings.nullLiteral
  | .bool b => some (if b then "true" else "false")
  | .num n => some n.plain
  | .str s => some s
  | .arr _ => none
  | .obj _ => none

/-- Two examples of one shape, with the same names in the same order and the
same literal texts. -/
inductive Resembles (settings : Settings) : Example → Example → Prop
  /-- Leaves, of whatever kinds, with one literal text. -/
  | leaf {v w : Example} {text : String} : v.literal? settings = some text →
      w.literal? settings = some text → Resembles settings v w
  /-- Arrays, item by item. -/
  | arr {vs ws : List Example} :
      List.Forall₂ (Resembles settings) vs ws → Resembles settings (.arr vs) (.arr ws)
  /-- Objects with the same names, value by value. -/
  | obj {vs ws : List (String × Example)} : vs.map Prod.fst = ws.map Prod.fst →
      List.Forall₂ (Resembles settings) (vs.map Prod.snd) (ws.map Prod.snd) →
      Resembles settings (.obj vs) (.obj ws)

/-! ## The document of an example -/

/-- The private markers of synthesized schemas, in the order in which they
stand behind the other keywords. -/
structure Markers where
  /-- Of a raw text. -/
  raw : List (Keyword × Json)
  /-- Of a wrapper. -/
  wrapper : List (Keyword × Json)

/-- The markers as they are put together. -/
def Markers.drafted : Markers where
  raw := [(.rawValue, .bool true), (.renderType, .bool false)]
  wrapper := [(.renderAdditionalInfo, .bool false), (.renderType, .bool false)]

/-- The markers as they are written. -/
def Markers.written : Markers where
  raw := [(.renderType, .bool false), (.rawValue, .bool true)]
  wrapper := [(.renderType, .bool false), (.renderAdditionalInfo, .bool false)]

/-- The document of a schema that is shown as a text. -/
def Markers.text (m : Markers) (text : String) : Json :=
  .obj (Keyword.members ([(.type, .str "string"), (.const, .str text)] ++ m.raw))

/-- The document of an array schema that holds items. -/
def Markers.array (m : Markers) (items : List Json) : Json :=
  .obj (Keyword.members ([(.type, .str "array"), (.items, .arr items)] ++ m.wrapper))

/-- The document of an object schema that holds properties. -/
def Markers.object (m : Markers) (properties : List (String × Json)) : Json :=
  .obj (Keyword.members ([(.type, .str "object"), (.properties, .obj properties)] ++ m.wrapper))

mutual

/-- The document of an example. -/
def document (m : Markers) (settings : Settings) : Example → Json
  | .undefined => m.text settings.undefinedLiteral
  | .null => m.text settings.nullLiteral
  | .bool b => m.text (if b then "true" else "false")
  | .num n => m.text n.plain
  | .str s => m.text s
  | .arr items => m.array (itemDocuments m settings items)
  | .obj members => m.object (memberDocuments m settings members)

/-- The documents of an array's items. -/
def itemDocuments (m : Markers) (settings : Settings) : List Example → List Json
  | [] => []
  | e :: es => document m settings e :: itemDocuments m settings es

/-- The documents of an object's members, under their names. -/
def memberDocuments (m : Markers) (settings : Settings) :
    List (String × Example) → List (String × Json)
  | [] => []
  | (name, e) :: es => (name, document m settings e) :: memberDocuments m settings es

end

variable (m : Markers) (settings : Settings)

theorem itemDocuments_eq_map (es : List Example) :
    itemDocuments m settings es = es.map (document m settings) := by
  induction es with
  | nil => rfl
  | cons e es ih => rw [itemDocuments, ih, List.map_cons]

theorem memberDocuments_eq_map (ms : List (String × Example)) :
    memberDocuments m settings ms = ms.map fun n => (n.1, document m settings n.2) := by
  induction ms with
  | nil => rfl
  | cons n ms ih => rw [memberDocuments, ih, List.map_cons]

theorem toEntries_eq_map (es : List Example) :
    toEntries settings es = es.map fun e => .schema (e.toSchema settings) := by
  induction es with
  | nil => rfl
  | cons e es ih => rw [toEntries, ih, List.map_cons]

theorem toProperties_eq_map (ms : List (String × Example)) :
    toProperties settings ms = ms.map fun n => (n.1, .schema (n.2.toSchema settings)) := by
  induction ms with
  | nil => rfl
  | cons n ms ih => rw [toProperties, ih, List.map_cons]

variable {m settings}

/-- A leaf has the document of its literal text. -/
theorem document_of_literal? {v : Example} {text : String} (h : v.literal? settings = some text) :
    v.document m settings = m.text text := by
  cases v with
  | arr items => cases h
  | obj members => cases h
  | _ => exact Option.some.inj h ▸ rfl

/-- A leaf has the schema of its literal text. -/
theorem toSchema_of_literal? {v : Example} {text : String} (h : v.literal? settings = some text) :
    v.toSchema settings = .rawText text := by
  cases v with
  | arr items => cases h
  | obj members => cases h
  | _ => exact Option.some.inj h ▸ rfl

/-! ## Reading and writing -/

/-- A raw text is read from its document. -/
theorem read_text (text : String) :
    Schema.readNode (Markers.drafted.text text) = .ok (.schema (.rawText text)) := by
  rw [Markers.text, Schema.readNode_obj_eq_ok_iff]
  refine ⟨_, ?_, rfl⟩
  rw [Schema.read_members]
  rfl

/-- An array schema is read from its document when its items are. -/
theorem read_array {items : List Json} {vs : List Value}
    (h : Value.readEntries? items = some vs) :
    Schema.readNode (Markers.drafted.array items) = .ok (.schema (.arrayWrapper vs)) := by
  have hitems : Value.readGiven? Keyword.items.shape (.arr items) = some (.list vs) :=
    Value.read?_of_reads (.list rfl h)
  rw [Markers.array, Schema.readNode_obj_eq_ok_iff]
  refine ⟨_, ?_, rfl⟩
  rw [Schema.read_members, List.cons_append, List.map_cons, List.cons_append, List.map_cons, hitems]
  rfl

/-- An object schema is read from its document when its properties are. -/
theorem read_object {properties : List (String × Json)} {vs : List (String × Value)}
    (h : Value.readMembers? properties = some vs) :
    Schema.readNode (Markers.drafted.object properties) = .ok (.schema (.wrapper vs none)) := by
  have hproperties : Value.readGiven? Keyword.properties.shape (.obj properties) = some (.map vs) :=
    Value.read?_of_reads (.map h)
  rw [Markers.object, Schema.readNode_obj_eq_ok_iff]
  refine ⟨_, ?_, rfl⟩
  rw [Schema.read_members, List.cons_append, List.map_cons, List.cons_append, List.map_cons,
    hproperties]
  rfl

/-- **The schema of an example is read from the document drafted for it.** -/
theorem readNode_document (settings : Settings) (v : Example) :
    Schema.readNode (v.document .drafted settings) = .ok (.schema (v.toSchema settings)) := by
  have hleaf : ∀ {v : Example} {text}, v.literal? settings = some text →
      Schema.readNode (v.document .drafted settings) = .ok (.schema (v.toSchema settings)) := by
    intro v text h
    rw [document_of_literal? h, toSchema_of_literal? h]
    exact read_text text
  induction v using Example.ind with
  | arr items ih =>
    have hitems : Value.readEntries? (items.map (document .drafted settings)) =
        some (items.map fun e => .schema (e.toSchema settings)) := by
      rw [Value.readEntries?_eq_some_iff, List.forall₂_map_left_iff, List.forall₂_map_right_iff,
        List.forall₂_same]
      intro e he
      exact Schema.readEntry?_of_readNode (ih e he)
    rw [document, toSchema, itemDocuments_eq_map, toEntries_eq_map]
    exact read_array hitems
  | obj members ih =>
    have hmembers :
        Value.readMembers? (members.map fun n => (n.1, document .drafted settings n.2)) =
          some (members.map fun n => (n.1, .schema (n.2.toSchema settings))) := by
      rw [Value.readMembers?_eq_some_iff, List.forall₂_map_left_iff, List.forall₂_map_right_iff,
        List.forall₂_same]
      intro n hn
      exact ⟨rfl, Schema.readEntry?_of_readNode (ih n hn)⟩
    rw [document, toSchema, memberDocuments_eq_map, toProperties_eq_map]
    exact read_object hmembers
  | _ => exact hleaf rfl

/-- **It is written with the markers in another order**, and otherwise as it
was drafted. -/
theorem toJson_toSchema (settings : Settings) (v : Example) :
    (v.toSchema settings).toJson = v.document .written settings := by
  induction v using Example.ind with
  | arr items ih =>
    have hitems : Value.listToJson (toEntries settings items) =
        itemDocuments .written settings items := by
      rw [toEntries_eq_map, itemDocuments_eq_map, Value.listToJson_eq_map, List.map_map]
      exact List.map_congr_left ih
    rw [document, ← hitems]
    rfl
  | obj members ih =>
    have hmembers : Value.membersToJson (toProperties settings members) =
        memberDocuments .written settings members := by
      rw [toProperties_eq_map, memberDocuments_eq_map, Value.membersToJson_eq_map, List.map_map]
      exact List.map_congr_left fun n hn => congrArg (n.1, ·) (ih n hn)
    rw [document, ← hmembers]
    rfl
  | _ => rfl

/-! ## Examples with the same document -/

variable {m : Markers} {settings : Settings}

/-- An example has the document of a text exactly when it is a leaf with that
literal text. -/
theorem document_eq_text_iff {v : Example} {text : String} :
    v.document m settings = m.text text ↔ v.literal? settings = some text := by
  have hleaf : ∀ t, m.text t = m.text text ↔ some t = some text := by
    intro t
    simp [Markers.text, Keyword.members]
  cases v with
  | arr items =>
    refine iff_of_false ?_ nofun
    simp [document, Markers.array, Markers.text, Keyword.members]
  | obj members =>
    refine iff_of_false ?_ nofun
    simp [document, Markers.object, Markers.text, Keyword.members]
  | _ => exact hleaf _

/-- A leaf and an example have the same document exactly when they resemble
each other. -/
theorem document_eq_iff_of_literal? {v w : Example} {text : String}
    (h : v.literal? settings = some text ∨ w.literal? settings = some text) :
    v.document m settings = w.document m settings ↔ Resembles settings v w := by
  constructor
  · intro hdocument
    rcases h with h | h
    · rw [document_of_literal? h, eq_comm, document_eq_text_iff] at hdocument
      exact .leaf h hdocument
    · rw [document_of_literal? h, document_eq_text_iff] at hdocument
      exact .leaf hdocument h
  · rintro (⟨hv, hw⟩ | _ | _)
    · rw [document_of_literal? hv, document_of_literal? hw]
    · rcases h with h | h <;> cases h
    · rcases h with h | h <;> cases h

/-- **Examples with the same document resemble each other**, and the other way
round. -/
theorem document_eq_iff_resembles (v w : Example) :
    v.document m settings = w.document m settings ↔ Resembles settings v w := by
  induction v using Example.ind generalizing w with
  | arr items ih =>
    cases w with
    | arr items' =>
      have hitems : document m settings (.arr items) = document m settings (.arr items') ↔
          items.map (document m settings) = items'.map (document m settings) := by
        simp [document, Markers.array, Keyword.members, itemDocuments_eq_map]
      rw [hitems, map_eq_map_iff_forall₂ ih]
      constructor
      · exact .arr
      · rintro (h | h | h)
        · cases h
        · exact h
    | obj members' =>
      refine iff_of_false ?_ ?_
      · simp [document, Markers.array, Markers.object, Keyword.members]
      · rintro (h | h | h)
        cases h
    | _ => exact document_eq_iff_of_literal? (.inr rfl)
  | obj members ih =>
    cases w with
    | obj members' =>
      have hmembers : document m settings (.obj members) = document m settings (.obj members') ↔
          (members.map fun n => (n.1, document m settings n.2)) =
            members'.map fun n => (n.1, document m settings n.2) := by
        simp [document, Markers.object, Keyword.members, memberDocuments_eq_map]
      have hvalues : ∀ e ∈ members.map Prod.snd, ∀ w,
          document m settings e = document m settings w ↔ Resembles settings e w := by
        intro e he
        obtain ⟨n, hn, rfl⟩ := List.mem_map.1 he
        exact ih n hn
      rw [hmembers, map_value_eq_map_value_iff, map_eq_map_iff_forall₂ hvalues]
      constructor
      · rintro ⟨hnames, hvalues⟩
        exact .obj hnames hvalues
      · rintro (h | h | ⟨hnames, hvalues⟩)
        · cases h
        · exact ⟨hnames, hvalues⟩
    | arr items' =>
      refine iff_of_false ?_ ?_
      · simp [document, Markers.array, Markers.object, Keyword.members]
      · rintro (h | h | h)
        cases h
    | _ => exact document_eq_iff_of_literal? (.inr rfl)
  | _ => exact document_eq_iff_of_literal? (.inl rfl)

/-- **The schema of an example keeps its structure and forgets the kinds of its
leaves.** It is read from the document drafted for the example, whatever the
example is, and is written as that document with its markers in another order.
Two examples have the same written schema exactly when they resemble each
other. -/
theorem toJson_toSchema_eq_iff_resembles (settings : Settings) (v : Example) :
    Schema.readNode (v.document .drafted settings) = .ok (.schema (v.toSchema settings)) ∧
      (v.toSchema settings).toJson = v.document .written settings ∧
      ∀ w : Example, (v.toSchema settings).toJson = (w.toSchema settings).toJson ↔
        Resembles settings v w := by
  refine ⟨readNode_document settings v, toJson_toSchema settings v, fun w => ?_⟩
  rw [toJson_toSchema, toJson_toSchema]
  exact document_eq_iff_resembles v w

/-- Truth values under names that are spelt like keywords. -/
def truthValues : Example :=
  .obj [("not", .bool true), ("min_length", .arr [.bool false])]

/-- The texts that the truth values are shown as, in their place. -/
def truthTexts : Example :=
  .obj [("not", .str "true"), ("min_length", .arr [.str "false"])]

theorem toJson_toSchema_truthValues :
    (truthValues.toSchema {}).toJson =
        .obj [("type", .str "object"),
          ("properties", .obj
            [("not", .obj [("type", .str "string"), ("const", .str "true"),
              ("x-schema-private-render-type", .bool false),
              ("x-schema-private-raw-value", .bool true)]),
            ("min_length", .obj [("type", .str "array"),
              ("items", .arr [.obj [("type", .str "string"), ("const", .str "false"),
                ("x-schema-private-render-type", .bool false),
                ("x-schema-private-raw-value", .bool true)]]),
              ("x-schema-private-render-type", .bool false),
              ("x-schema-private-render-additional-info", .bool false)])]),
          ("x-schema-private-render-type", .bool false),
          ("x-schema-private-render-additional-info", .bool false)] ∧
      (truthValues.toSchema {}).toJson = (truthTexts.toSchema {}).toJson := by
  obtain ⟨-, hwritten, hsame⟩ := toJson_toSchema_eq_iff_resembles {} truthValues
  have hitems : Resembles {} (.arr [.bool false]) (.arr [.str "false"]) :=
    .arr (.cons (.leaf rfl rfl) .nil)
  have hmembers : Resembles {} truthValues truthTexts :=
    .obj rfl (.cons (.leaf rfl rfl) (.cons hitems .nil))
  exact ⟨hwritten, (hsame truthTexts).2 hmembers⟩

end Example

end SchemaProse
