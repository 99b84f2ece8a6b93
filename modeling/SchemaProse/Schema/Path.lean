import SchemaProse.Schema.Basic
/-!
# Schema — paths

A path leads from a value to one inside it, by member names and by positions
in lists.
-/

namespace SchemaProse

/-- A step of a path. -/
inductive Step where
  | member (name : String)
  | position (i : Int)

/-- The item at a position, counted from zero. -/
def itemAt? {α : Type} (items : List α) (i : Int) : Option α :=
  if i < 0 then none else items[i.toNat]?

namespace Value

/-- The value that a step leads to. -/
def child? : Value → Step → Option Value
  | .schema s, .member name => s.get? name
  | .map members, .member name => members.lookup name
  | .list entries, .position i => itemAt? entries i
  | .data (.obj members), .member name => (members.lookup name).map .data
  | .data (.arr items), .position i => (itemAt? items i).map .data
  | _, _ => none

/-- The value at the end of a path; or the number of the first step that leads
nowhere. -/
def descend (v : Value) : List Step → Nat → Except Nat Value
  | [], _ => .ok v
  | step :: steps, i =>
    match v.child? step with
    | some w => w.descend steps (i + 1)
    | none => .error i

end Value

end SchemaProse
