import SchemaProse.Proofs.Reading.Steps
/-!
# Reading — schema positions and edits of a document

The *schema positions* of a document are the objects that are read as schemas:
the document itself, and with each of them the objects that stand, under its
keywords, in the place of a node or as an entry of a list or map. Everything
else is data. An `Edit` goes through a document the same way and says what
becomes of the members of a schema position, of the scalar values under its
keywords and of the data in it.
-/

namespace SchemaProse

/-! ## Positions -/

/-- The members are those of a schema that stands in a value of a shape. -/
inductive StandsIn : Shape → Json → List (String × Json) → Prop
  /-- The value itself, in the place of a node. -/
  | node {shape : Shape} {members : List (String × Json)} :
      shape.takesNode = true → StandsIn shape (.obj members) members
  /-- An entry of a list. -/
  | entry {shape : Shape} {items : List Json} {members : List (String × Json)} :
      shape.takesList = true → .obj members ∈ items → StandsIn shape (.arr items) members
  /-- A named entry. -/
  | member {entries : List (String × Json)} {name : String} {members : List (String × Json)} :
      (name, .obj members) ∈ entries → StandsIn .nodeMap (.obj entries) members

/-- The members are those of a schema position of an object. -/
inductive Position (root : List (String × Json)) : List (String × Json) → Prop
  /-- The object itself. -/
  | root : Position root root
  /-- A schema that stands under a keyword of a schema position. -/
  | under {members inner : List (String × Json)} {k : Keyword} {j : Json} :
      Position root members → members.lookup k.name = some j → StandsIn k.shape j inner →
      Position root inner

/-- The positions of a position are positions of the object. -/
theorem Position.trans {root members inner : List (String × Json)} (h : Position root members)
    (h' : Position members inner) : Position root inner := by
  induction h' with
  | root => exact h
  | under _ hj hstands ih => exact .under ih hj hstands

/-! ## Edits -/

/-- What becomes of the parts of a document. -/
structure Edit where
  /-- Of the members of a schema position, once their values are edited. -/
  node : List (String × Json) → List (String × Json)
  /-- Of a value in which no schema stands, under a keyword of a shape. -/
  scalar : Shape → Json → Json
  /-- Of other data: the value of a member that is no keyword, or an entry that
  is no object. -/
  data : Json → Json

namespace Edit

mutual

/-- The edit of a value under a keyword of a shape. -/
def value (e : Edit) : Shape → Json → Json
  | .node, .obj members => .obj (e.node (e.fields members))
  | .nodeList, .arr items => .arr (e.entries items)
  | .nodeOrList, .arr items => .arr (e.entries items)
  | .nodeOrList, .obj members => .obj (e.node (e.fields members))
  | .nodeMap, .obj members => .obj (e.members members)
  | shape, j => e.scalar shape j
termination_by structural _ j => j

/-- The edit of an entry of a list or map; also that of a document. -/
def entry (e : Edit) : Json → Json
  | .obj members => .obj (e.node (e.fields members))
  | j => e.data j

/-- The edit of the entries of a list. -/
def entries (e : Edit) : List Json → List Json
  | [] => []
  | j :: js => e.entry j :: e.entries js

/-- The edit of named entries. -/
def members (e : Edit) : List (String × Json) → List (String × Json)
  | [] => []
  | (name, j) :: js => (name, e.entry j) :: e.members js

/-- The edit of the values of an object's members, each under its name. -/
def fields (e : Edit) : List (String × Json) → List (String × Json)
  | [] => []
  | (name, j) :: js =>
    match Keyword.ofName? name with
    | none => (name, e.data j) :: e.fields js
    | some k => (name, e.value k.shape j) :: e.fields js

end

variable (e : Edit)

/-- The edit of a member's value. -/
def field (name : String) (j : Json) : Json :=
  match Keyword.ofName? name with
  | none => e.data j
  | some k => e.value k.shape j

theorem entries_eq_map (items : List Json) : e.entries items = items.map e.entry := by
  induction items with
  | nil => rfl
  | cons j items ih => rw [entries, ih, List.map_cons]

theorem members_eq_map (ms : List (String × Json)) :
    e.members ms = ms.map fun m => (m.1, e.entry m.2) := by
  induction ms with
  | nil => rfl
  | cons m ms ih => rw [members, ih, List.map_cons]

theorem fields_eq_map (ms : List (String × Json)) :
    e.fields ms = ms.map fun m => (m.1, e.field m.1 m.2) := by
  induction ms with
  | nil => rfl
  | cons m ms ih =>
    obtain ⟨name, j⟩ := m
    rw [fields, List.map_cons, ← ih, field]
    cases Keyword.ofName? name <;> rfl

theorem field_name (k : Keyword) : e.field k.name = e.value k.shape := by
  funext j
  rw [field, Keyword.ofName?_name]

/-- A keyword's value is the edit of the value that it had. -/
theorem lookup_fields (ms : List (String × Json)) (k : Keyword) :
    (e.fields ms).lookup k.name = (ms.lookup k.name).map (e.value k.shape) := by
  rw [fields_eq_map, lookup_map_value e.field, field_name]

theorem value_of_isScalar {shape : Shape} (h : shape.isScalar = true) (j : Json) :
    e.value shape j = e.scalar shape j := by
  cases shape with
  | node | nodeList | nodeOrList | nodeMap => cases h
  | _ => cases j <;> rfl

theorem value_obj {shape : Shape} (h : shape.takesNode = true) (ms : List (String × Json)) :
    e.value shape (.obj ms) = e.entry (.obj ms) := by
  cases shape with
  | node | nodeOrList => rfl
  | _ => cases h

theorem value_arr {shape : Shape} (h : shape.takesList = true) (items : List Json) :
    e.value shape (.arr items) = .arr (items.map e.entry) := by
  rw [← entries_eq_map]
  cases shape with
  | nodeList | nodeOrList => rfl
  | _ => cases h

theorem value_nodeMap_obj (ms : List (String × Json)) :
    e.value .nodeMap (.obj ms) = .obj (ms.map fun m => (m.1, e.entry m.2)) := by
  rw [← members_eq_map]
  rfl

/-- A value that is no container holds no schema. -/
theorem value_of_kind {j : Json} (hobj : j.kind ≠ .object) (harr : j.kind ≠ .array)
    (shape : Shape) : e.value shape j = e.scalar shape j := by
  cases j with
  | obj ms => exact absurd rfl hobj
  | arr items => exact absurd rfl harr
  | _ => cases shape <;> rfl

theorem entry_of_kind {j : Json} (h : j.kind ≠ .object) : e.entry j = e.data j := by
  cases j with
  | obj ms => exact absurd rfl h
  | _ => rfl

/-- An edit that leaves data leaves the members that are no keyword. -/
theorem unknown_fields (hdata : ∀ j, e.data j = j) (ms : List (String × Json)) :
    Schema.unknown (e.fields ms) = Schema.unknown ms := by
  rw [fields_eq_map, Schema.unknown, Schema.unknown, List.filter_map]
  -- the filter looks at names only, and what passes it is data
  calc (Schema.unknown ms).map (fun m => (m.1, e.field m.1 m.2))
      = (Schema.unknown ms).map id := by
        refine List.map_congr_left fun m hm => ?_
        have hname := Option.isNone_iff_eq_none.1 (List.mem_filter.1 hm).2
        rw [field, hname]
        exact Prod.ext rfl (hdata m.2)
    _ = Schema.unknown ms := List.map_id _

end Edit

end SchemaProse
