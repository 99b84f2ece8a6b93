import SchemaProse.Schema.Basic
import SchemaProse.Schema.Scalar
/-!
# Schema — reading a document

A node is read from a truth value or an object. Every keyword's value is read
by the keyword's shape, an empty value being accepted everywhere; entries of
lists and maps are schemas when they are objects and plain data otherwise.
Reading refuses a schema when some keyword's value cannot be read, and names
all such keywords of the outermost schema, in the order of `Keyword.all`.
-/

namespace SchemaProse

namespace Schema

/-- The members that are no keyword. -/
def unknown (members : List (String × Json)) : List (String × Json) :=
  members.filter fun m => (Keyword.ofName? m.1).isNone

/-- The keywords whose values could not be read. -/
def refused (readings : List (Keyword × Option Value)) : List Keyword :=
  Keyword.all.filter fun k =>
    match readings.lookup k with
    | some none => true
    | _ => false

/-- What a schema holds under a keyword: the value read, or an empty value when
only the keyword's identifier is there, among the other members. -/
def field? (readings : List (Keyword × Option Value)) (extra : List (String × Json))
    (k : Keyword) : Option (Keyword × Value) :=
  match readings.lookup k with
  | some reading => reading.map (k, ·)
  | none => if (extra.lookup k.identifier).isSome then some (k, .data .null) else none

/-- Puts a schema together from the members of an object and the readings of
those that are keywords; or names the keywords that could not be read. -/
def assemble (members : List (String × Json)) (readings : List (Keyword × Option Value)) :
    Except (List Keyword) Schema :=
  match refused readings with
  | [] => .ok ⟨Keyword.all.filterMap (field? readings (unknown members)), unknown members⟩
  | bad => .error bad

end Schema

mutual

/-- Reads a value of a shape. -/
def Value.read? : Shape → Json → Option Value
  | .node, .bool b => some (.bool b)
  | .node, .obj members =>
    (Schema.assemble members (Value.readFields members)).toOption.map .schema
  | .nodeList, .arr items => (Value.readEntries? items).map .list
  | .nodeOrList, .arr items => (Value.readEntries? items).map .list
  | .nodeOrList, .bool b => some (.bool b)
  | .nodeOrList, .obj members =>
    (Schema.assemble members (Value.readFields members)).toOption.map .schema
  | .nodeMap, .obj members => (Value.readMembers? members).map .map
  | shape, j => (shape.scalar? j).map .data
termination_by structural _ j => j

/-- Reads an entry of a list or map. -/
def Value.readEntry? : Json → Option Value
  | .obj members =>
    (Schema.assemble members (Value.readFields members)).toOption.map .schema
  | j => some (.data j)

/-- Reads the entries of a list. -/
def Value.readEntries? : List Json → Option (List Value)
  | [] => some []
  | j :: js => do
    let v ← Value.readEntry? j
    let vs ← Value.readEntries? js
    some (v :: vs)

/-- Reads the entries of a map. -/
def Value.readMembers? : List (String × Json) → Option (List (String × Value))
  | [] => some []
  | (name, j) :: js => do
    let v ← Value.readEntry? j
    let vs ← Value.readMembers? js
    some ((name, v) :: vs)

/-- Reads the members of an object that are keywords. -/
def Value.readFields : List (String × Json) → List (Keyword × Option Value)
  | [] => []
  | (name, j) :: js =>
    match Keyword.ofName? name with
    | none => Value.readFields js
    | some k => (k, if j.isNull then some (.data .null) else Value.read? k.shape j) ::
        Value.readFields js

end

namespace Schema

/-- Reads the schema that an object describes. -/
def read (members : List (String × Json)) : Except (List Keyword) Schema :=
  assemble members (Value.readFields members)

/-- What a document is when it is no node. -/
inductive NonNode where
  | null | whole | binary64 | text | list

/-- What the message calls a document that is no node. -/
def NonNode.word : NonNode → String
  | null => "NoneType"
  | whole => "int"
  | binary64 => "float"
  | text => "str"
  | list => "list"

/-- Why a document is no node. -/
inductive ReadError where
  /-- The document is neither an object nor a truth value. -/
  | notANode (found : NonNode)
  /-- The keywords whose values could not be read. -/
  | refused (keywords : List Keyword)

/-- The message for a document that is neither an object nor a truth value. -/
def NonNode.message (found : NonNode) : String :=
  "schema must be a JSON object or boolean, got " ++ found.word

/-- Reads a node from a document. -/
def readNode : Json → Except ReadError Value
  | .bool b => .ok (.bool b)
  | .obj members =>
    match read members with
    | .ok s => .ok (.schema s)
    | .error bad => .error (.refused bad)
  | .null => .error (.notANode .null)
  | .num (.int _) => .error (.notANode .whole)
  | .num (.float _) => .error (.notANode .binary64)
  | .str _ => .error (.notANode .text)
  | .arr _ => .error (.notANode .list)

end Schema

end SchemaProse
