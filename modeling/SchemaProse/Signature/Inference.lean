import SchemaProse.Schema.TypeNames
import SchemaProse.Signature.Basic
/-!
# Signature — the signature of a node

A node without constraining keywords is `ANY`, and one that negates such a
node is `NEVER`. Any other schema is the union of its declared types, or of
the type of its constant, or of the types of its allowed values, with its
combinator. The declared type `array` takes its elements from `items` and
`additionalItems`. Whatever is no node is `UNKNOWN`.
-/

namespace SchemaProse

/-- The signatures found under a keyword: one for a node, several for a list
of entries. -/
inductive Outline where
  | one (s : Signature)
  | many (ss : List Signature)

namespace Signature

/-- The signature of plain data, of which only truth values are nodes. -/
def ofData : Json → Signature
  | .bool true => .any
  | .bool false => .never
  | _ => .unknown

/-- The signature of a tuple's elements; one without elements has a single
unknown one. -/
def tupleMember (elements : List Signature) (tail : Option Signature) : Member :=
  match elements.map element with
  | [] => .tuple .unknown [] tail
  | e :: es => .tuple e es tail

end Signature

namespace Schema

/-- The tail of a tuple: none when `additionalItems` is `false`, otherwise
that node's signature, `ANY` if there is no node. -/
def tail? (s : Schema) (outlines : List (Keyword × Outline)) : Option Signature :=
  if (s.value? .additionalItems).any Value.isFalse then none
  else
    match outlines.lookup .additionalItems with
    | some (.one sig) => some sig.element
    | _ => some .any

/-- The union member for the declared type `array`. -/
def arrayMember (s : Schema) (outlines : List (Keyword × Outline)) : Member :=
  match outlines.lookup .items with
  | none => .array .any
  | some (.one sig) => .array sig.element
  | some (.many sigs) => Signature.tupleMember sigs (s.tail? outlines)

/-- The name that a constant has in a signature: scalars are shown as text. -/
def constantName (j : Json) : String :=
  match j.kind with
  | .array => Json.Kind.array.name
  | .object => Json.Kind.object.name
  | _ => Json.Kind.string.name

/-- The union's members, given the one for the declared type `array`. -/
def unionMembers (s : Schema) (array : Member) : List Member :=
  match s.declaredTypes? with
  | some names => names.map fun name => if name = Json.Kind.array.name then array else .named name
  | none =>
    match s.value? .const with
    | some v => [.named (constantName v.toJson)]
    | none => (kindNames s.enumItems).map .named

/-- The signature of a schema, given those found under its keywords. -/
def signatureFrom (s : Schema) (outlines : List (Keyword × Outline)) : Signature :=
  if s.isAny then .any
  else if (s.value? .negation).any Value.isAny then .never
  else .union (s.unionMembers (s.arrayMember outlines)) s.combinator?

end Schema

mutual

/-- The signature of a value: of a node, or `UNKNOWN`. -/
def Value.signature : Value → Signature
  | .data j => .ofData j
  | .list _ => .unknown
  | .map _ => .unknown
  | .schema s => s.signature

/-- The signature of a schema. -/
def Schema.signature : Schema → Signature
  | ⟨declared, extra⟩ => Schema.signatureFrom ⟨declared, extra⟩ (Schema.outlines declared)

/-- The signatures of a list's entries. -/
def Value.signatures : List Value → List Signature
  | [] => []
  | v :: vs => v.signature :: Value.signatures vs

/-- The signatures found under the keywords that are not empty. -/
def Schema.outlines : List (Keyword × Value) → List (Keyword × Outline)
  | [] => []
  | (_, .data .null) :: vs => Schema.outlines vs
  | (k, .list entries) :: vs => (k, .many (Value.signatures entries)) :: Schema.outlines vs
  | (k, v) :: vs => (k, .one v.signature) :: Schema.outlines vs

end

namespace Value

/-- The type signature of a value as text. -/
def typeText (v : Value) : String :=
  v.signature.text

end Value

end SchemaProse
