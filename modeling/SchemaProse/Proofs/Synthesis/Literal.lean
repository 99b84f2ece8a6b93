import SchemaProse.Constraint.Description
import SchemaProse.Proofs.Schema.Extensions
import SchemaProse.Proofs.Signature.Documented
import SchemaProse.Proofs.Synthesis.Example
import SchemaProse.Schema.Expansion
import SchemaProse.Schema.Path
/-!
# Synthesis — what describes the schema of an example

The schema of an example is a tree with a node for each part of the example, at
the place where the part stands (`Example.PartAt`, `Value.NodeAt`). What else
describes schemas has little to say of these nodes: their type text follows the
arrays of the example (`Example.typeText`), whatever its texts and names are;
none has a constraint, a combinator or an extension to show, since the markers
are hidden and the names of the example are names of properties; and there is
something to show below a node when its part is an array or an object
(`toSchema_shows_parts`).
-/

namespace SchemaProse

/-! ## Nodes and parts -/

/-- The path leads from the value to a node inside it, or is empty and the value
is the node. -/
inductive Value.NodeAt : Value → List Step → Schema → Prop
  | root {s : Schema} : NodeAt (.schema s) [] s
  /-- Under a keyword of a schema. -/
  | keyword {s t : Schema} {k : Keyword} {v : Value} {path : List Step} :
      (k, v) ∈ s.declared → NodeAt v path t → NodeAt (.schema s) (.member k.name :: path) t
  /-- At a position of a list. -/
  | entry {entries : List Value} {i : ℕ} {v : Value} {path : List Step} {t : Schema} :
      entries[i]? = some v → NodeAt v path t → NodeAt (.list entries) (.position i :: path) t
  /-- Under a name. -/
  | named {members : List (String × Value)} {name : String} {v : Value} {path : List Step}
      {t : Schema} : (name, v) ∈ members → NodeAt v path t →
      NodeAt (.map members) (.member name :: path) t

namespace Example

/-- The part of the example for which there is a node at the end of the path. -/
inductive PartAt : Example → List Step → Example → Prop
  | root {e : Example} : PartAt e [] e
  /-- In an item of an array. -/
  | item {items : List Example} {i : ℕ} {e p : Example} {path : List Step} :
      items[i]? = some e → PartAt e path p →
      PartAt (.arr items) (.member "items" :: .position i :: path) p
  /-- In the value of an object's member. -/
  | value {members : List (String × Example)} {name : String} {e p : Example}
      {path : List Step} : (name, e) ∈ members → PartAt e path p →
      PartAt (.obj members) (.member "properties" :: .member name :: path) p

/-- The example is an array or an object. -/
inductive IsContainer : Example → Prop
  | arr {items : List Example} : IsContainer (.arr items)
  | obj {members : List (String × Example)} : IsContainer (.obj members)

mutual

/-- The type text of an example: an array is a tuple of its items, with an open
end, and everything but an array or an object is a text. -/
def typeText : Example → String
  | .arr [] => "tuple<UNKNOWN, ...optional<ANY>>"
  | .arr (e :: es) =>
    "tuple<" ++ ", ".intercalate (e.typeText :: typeTexts es) ++ ", ...optional<ANY>>"
  | .obj _ => "object"
  | _ => "string"

/-- The type texts of an array's items. -/
def typeTexts : List Example → List String
  | [] => []
  | e :: es => e.typeText :: typeTexts es

end

end Example

/-- What describes the schema, for the schema of a part of an example. -/
structure Schema.ShowsPart (s : Schema) (p : Example) : Prop where
  /-- The type text is that of the part. -/
  typeText_eq : (Value.schema s).typeText = p.typeText
  /-- There is no constraint. -/
  constraintTexts_eq : (Value.schema s).constraintTexts = []
  /-- There is no extension to show, under any settings. -/
  visibleExtensions?_eq : ∀ settings, (Value.schema s).visibleExtensions? settings = none
  /-- There is no combinator. -/
  combinator?_eq : s.combinator? = none
  /-- There is something to show below an array or an object, and only there. -/
  isExpandable_iff : s.isExpandable = true ↔ p.IsContainer

/-! ## Type texts -/

/-- A union of one member has the text of the member. -/
theorem Signature.text_union_singleton (m : Member) : (union [m] none).text = m.text := by
  rw [text, withCombinator, Member.texts, Member.texts, String.intercalate_singleton]

/-- There is nothing to show below a raw text. -/
theorem Schema.isExpandable_rawText (text : String) : (rawText text).isExpandable = false := by
  rfl

namespace Example

variable {settings : Settings} {v p : Example} {path : List Step} {s : Schema}

theorem typeTexts_eq_map (es : List Example) : typeTexts es = es.map typeText := by
  induction es with
  | nil => rfl
  | cons e es ih => rw [typeTexts, ih, List.map_cons]

/-- No example is without a type text. -/
theorem typeText_ne (e : Example) : e.typeText ≠ "" := by
  match e with
  | .arr [] => decide
  | .arr (e :: es) => simp [typeText, ← String.toList_eq_nil_iff]
  | .obj _ => exact (by decide : "object" ≠ "")
  | .undefined | .null | .bool _ | .num _ | .str _ => exact (by decide : "string" ≠ "")

/-- The type text of an array is that of a tuple of its items. -/
theorem typeText_arr (es : List Example) :
    (arr es).typeText = Document.tupleText (es.map typeText) ["...optional<ANY>"] := by
  cases es with
  | nil => decide +kernel
  | cons e es =>
    have helements :
        ((e :: es).map typeText).map Document.elementText = (e :: es).map typeText := by
      rw [List.map_map]
      exact List.map_congr_left fun e _ => if_neg e.typeText_ne
    have hclose : ", ...optional<ANY>>" = ", " ++ "...optional<ANY>" ++ ">" := by decide
    rw [Document.tupleText, if_neg (by simp), helements, typeText, typeTexts_eq_map,
      ← List.map_cons, String.intercalate_append_of_ne_nil (by simp) (by simp),
      String.intercalate_singleton, hclose]
    simp only [String.append_assoc]

/-- **The type text of an example is that of its schema.** -/
theorem typeText_toSchema (settings : Settings) (v : Example) :
    (Value.schema (v.toSchema settings)).typeText = v.typeText := by
  have hleaf : ∀ {v : Example} {text}, v.literal? settings = some text → v.typeText = "string" →
      (Value.schema (v.toSchema settings)).typeText = v.typeText := by
    intro v text h hstring
    rw [toSchema_of_literal? h, hstring]
    show (Signature.union [.named "string"] none).text = "string"
    rw [Signature.text_union_singleton, Member.text]
  induction v using Example.ind with
  | arr items ih =>
    have hitems : (items.map fun e => (Value.schema (e.toSchema settings)).signature.text) =
        items.map typeText := List.map_congr_left ih
    show (Signature.union [Signature.tupleMember (Value.signatures (toEntries settings items))
      (some .any)] none).text = _
    rw [Signature.text_union_singleton, Signature.text_tupleMember, Value.signatures_eq_map,
      toEntries_eq_map, List.map_map, List.map_map, typeText_arr, ← hitems]
    rfl
  | obj members ih =>
    show (Signature.union [.named "object"] none).text = "object"
    rw [Signature.text_union_singleton, Member.text]
  | _ => exact hleaf rfl rfl

/-! ## Single nodes -/

/-- The schema of an example shows the example as its part. -/
theorem showsPart_toSchema (settings : Settings) (p : Example) :
    (p.toSchema settings).ShowsPart p := by
  have hextra : (p.toSchema settings).extra = [] := by cases p <;> rfl
  refine ⟨typeText_toSchema settings p, ?_, fun shown => ?_, ?_, ?_⟩
  · cases p <;> rfl
  · rw [Schema.visibleExtensions?_eq, Schema.visibleExtensions_eq, hextra]
    rfl
  · cases p <;> rfl
  · cases p with
    | arr items => exact iff_of_true rfl .arr
    | obj members => exact iff_of_true rfl .obj
    | _ =>
      rw [toSchema, Schema.isExpandable_rawText]
      refine iff_of_false Bool.false_ne_true ?_
      rintro ⟨⟩

/-! ## All nodes -/

end Example

namespace Value.NodeAt

variable {path : List Step} {s t : Schema}

/-- A node of a schema is the schema, or stands under the one keyword that has
more than data under it. -/
theorem of_forall_data {k : Keyword} {v : Value}
    (hdata : ∀ m ∈ s.declared, m = (k, v) ∨ ∃ j, m.2 = .data j) (h : (schema s).NodeAt path t) :
    (path = [] ∧ t = s) ∨ ∃ rest, path = .member k.name :: rest ∧ v.NodeAt rest t := by
  cases h with
  | root => exact .inl ⟨rfl, rfl⟩
  | keyword hdeclared hnode =>
    rcases hdata _ hdeclared with heq | ⟨j, rfl⟩
    · obtain ⟨rfl, rfl⟩ := Prod.mk.inj heq
      exact .inr ⟨_, rfl, hnode⟩
    · cases hnode

theorem of_rawText {text : String} (h : (schema (.rawText text)).NodeAt path t) :
    path = [] ∧ t = .rawText text := by
  have hdata : ∀ m ∈ (Schema.rawText text).declared,
      m = (.type, .data (.str "string")) ∨ ∃ j, m.2 = .data j := by
    simp only [Schema.rawText, List.forall_mem_cons]
    exact ⟨.inl trivial, .inr ⟨_, rfl⟩, .inr ⟨_, rfl⟩, .inr ⟨_, rfl⟩, nofun⟩
  rcases of_forall_data hdata h with hroot | ⟨rest, -, hnode⟩
  · exact hroot
  · cases hnode

theorem of_arrayWrapper {entries : List Value}
    (h : (schema (.arrayWrapper entries)).NodeAt path t) :
    (path = [] ∧ t = .arrayWrapper entries) ∨
      ∃ (i : ℕ) (v : Value) (rest : List Step), path = .member "items" :: .position i :: rest ∧
        entries[i]? = some v ∧ v.NodeAt rest t := by
  have hdata : ∀ m ∈ (Schema.arrayWrapper entries).declared,
      m = (.items, .list entries) ∨ ∃ j, m.2 = .data j := by
    simp only [Schema.arrayWrapper, List.forall_mem_cons]
    exact ⟨.inr ⟨_, rfl⟩, .inl trivial, .inr ⟨_, rfl⟩, .inr ⟨_, rfl⟩, nofun⟩
  refine (of_forall_data hdata h).imp_right ?_
  rintro ⟨rest, rfl, hnode⟩
  cases hnode with
  | entry hentry hnode => exact ⟨_, _, _, rfl, hentry, hnode⟩

theorem of_wrapper {properties : List (String × Value)}
    (h : (schema (.wrapper properties none)).NodeAt path t) :
    (path = [] ∧ t = .wrapper properties none) ∨
      ∃ (name : String) (v : Value) (rest : List Step),
        path = .member "properties" :: .member name :: rest ∧
          (name, v) ∈ properties ∧ v.NodeAt rest t := by
  have hdata : ∀ m ∈ (Schema.wrapper properties none).declared,
      m = (.properties, .map properties) ∨ ∃ j, m.2 = .data j := by
    simp only [Schema.wrapper, List.append_nil, List.cons_append, List.nil_append,
      List.forall_mem_cons]
    exact ⟨.inr ⟨_, rfl⟩, .inl trivial, .inr ⟨_, rfl⟩, .inr ⟨_, rfl⟩, nofun⟩
  refine (of_forall_data hdata h).imp_right ?_
  rintro ⟨rest, rfl, hnode⟩
  cases hnode with
  | named hproperty hnode => exact ⟨_, _, _, rfl, hproperty, hnode⟩

end Value.NodeAt

namespace Example

variable {settings : Settings} {v p : Example} {path : List Step} {s : Schema}

/-- Where an example has a part, its schema has the schema of the part. -/
theorem nodeAt_toSchema (settings : Settings) (h : v.PartAt path p) :
    (Value.schema (v.toSchema settings)).NodeAt path (p.toSchema settings) := by
  induction h with
  | root => exact .root
  | @item items i e p path hitem _ ih =>
    have hentry : (toEntries settings items)[i]? = some (.schema (e.toSchema settings)) := by
      rw [toEntries_eq_map, List.getElem?_map, hitem, Option.map_some]
    exact .keyword (k := .items) (.tail _ (.head _)) (.entry hentry ih)
  | @value members name e p path hmember _ ih =>
    have hproperty : (name, .schema (e.toSchema settings)) ∈ toProperties settings members := by
      rw [toProperties_eq_map]
      exact List.mem_map_of_mem (f := fun n => (n.1, Value.schema (n.2.toSchema settings))) hmember
    exact .keyword (k := .properties) (.tail _ (.head _)) (.named hproperty ih)

/-- **Every node in the schema of an example is that of a part.** -/
theorem exists_partAt_of_nodeAt (h : (Value.schema (v.toSchema settings)).NodeAt path s) :
    ∃ p, v.PartAt path p ∧ s = p.toSchema settings := by
  induction v using Example.ind generalizing path with
  | arr items ih =>
    rcases Value.NodeAt.of_arrayWrapper h with ⟨rfl, rfl⟩ | ⟨i, w, rest, rfl, hentry, hnode⟩
    · exact ⟨_, .root, rfl⟩
    · rw [toEntries_eq_map, List.getElem?_map, Option.map_eq_some_iff] at hentry
      obtain ⟨e, he, rfl⟩ := hentry
      obtain ⟨p, hp, rfl⟩ := ih e (List.mem_of_getElem? he) hnode
      exact ⟨p, .item he hp, rfl⟩
  | obj members ih =>
    rcases Value.NodeAt.of_wrapper h with ⟨rfl, rfl⟩ | ⟨name, w, rest, rfl, hproperty, hnode⟩
    · exact ⟨_, .root, rfl⟩
    · rw [toProperties_eq_map, List.mem_map] at hproperty
      obtain ⟨n, hn, heq⟩ := hproperty
      obtain ⟨rfl, rfl⟩ := Prod.mk.inj heq
      obtain ⟨p, hp, rfl⟩ := ih n hn hnode
      exact ⟨p, .value hn hp, rfl⟩
  | _ =>
    obtain ⟨rfl, rfl⟩ := Value.NodeAt.of_rawText h
    exact ⟨_, .root, rfl⟩

/-- **The schema of an example shows the parts of the example**, each by a node
in its place, and has no other node. Its type text is that of the example, and
every node, at whatever depth, shows its part and nothing else. -/
theorem toSchema_shows_parts (settings : Settings) (v : Example) :
    (Value.schema (v.toSchema settings)).typeText = v.typeText ∧
      (∀ path s, (Value.schema (v.toSchema settings)).NodeAt path s ↔
        ∃ p, v.PartAt path p ∧ s = p.toSchema settings) ∧
      ∀ path p, v.PartAt path p → (p.toSchema settings).ShowsPart p := by
  refine ⟨typeText_toSchema settings v, fun path s => ⟨exists_partAt_of_nodeAt, ?_⟩,
    fun path p _ => showsPart_toSchema settings p⟩
  rintro ⟨p, hp, rfl⟩
  exact nodeAt_toSchema settings hp

/-- An object with the names of a combinator and of an extension, and with an
empty array two levels down. -/
def oddNames : Example :=
  .obj [("oneOf", .arr [.undefined, .arr []]), ("x-note", .obj [("minimum", .num (.int 1))])]

theorem toSchema_shows_oddNames :
    (Value.schema (oddNames.toSchema {})).typeText = "object" ∧
      ∃ s : Schema, (Value.schema (oddNames.toSchema {})).NodeAt [.member "properties",
          .member "oneOf", .member "items", .position 1] s ∧
        (Value.schema s).typeText = "tuple<UNKNOWN, ...optional<ANY>>" ∧
        s.isExpandable = true ∧ (Value.schema s).visibleExtensions? {} = none := by
  obtain ⟨htext, hnodes, hshows⟩ := toSchema_shows_parts {} oddNames
  have hpart : oddNames.PartAt
      [.member "properties", .member "oneOf", .member "items", .position (1 : ℕ)] (.arr []) :=
    .value (.head _) (.item rfl .root)
  have hempty := hshows _ _ hpart
  exact ⟨htext, _, (hnodes _ _).2 ⟨_, hpart, rfl⟩, hempty.typeText_eq,
    hempty.isExpandable_iff.2 .arr, hempty.visibleExtensions?_eq {}⟩

end Example

end SchemaProse
