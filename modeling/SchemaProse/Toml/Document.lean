import SchemaProse.Json.Basic
/-!
# Toml — documents

A document is a run of statements: a header opens a table, a double header
adds a row to an array of tables, and an assignment gives a value to a dotted
key of the table that is open. Statements may not contradict each other: no
key has two values, no table has two headers, and a table that was written in
full is not added to from elsewhere.
-/

namespace SchemaProse

namespace Toml

/-- A dotted key. -/
abbrev Key := List String

/-- A statement of a document. -/
inductive Statement where
  /-- Opens a table. -/
  | table (key : Key)
  /-- Adds a row to an array of tables and opens it. -/
  | row (key : Key)
  /-- Gives a value to a key of the open table. -/
  | assign (key : Key) (value : Json)

/-- How a table came to be. -/
inductive Origin where
  /-- By a header of its own. -/
  | header
  /-- On the way to another table. -/
  | passed
  /-- By a dotted key in a numbered section of the document. -/
  | dotted (inSection : Nat)
deriving DecidableEq

/-- What stands under a key. -/
inductive Item where
  /-- A value written in full. -/
  | value (j : Json)
  /-- A table that statements built. -/
  | table (origin : Origin) (members : List (String × Item))
  /-- An array of tables; the last row is the one that keys lead into. -/
  | tables (rows : List (List (String × Item)))

/-- The members of a table under construction. -/
abbrev Members := List (String × Item)

/-- Edits what stands under a key, or puts something there. -/
def update (key : String) (edit : Option Item → Option Item) : Members → Option Members
  | [] => (edit none).map fun item => [(key, item)]
  | (k, item) :: rest =>
    if k = key then (edit (some item)).map fun item => (k, item) :: rest
    else (update key edit rest).map fun rest => (k, item) :: rest

/-- Edits the members that a header's key leads to. -/
def inside : Key → (Members → Option Members) → Members → Option Members
  | [], edit, members => edit members
  | k :: ks, edit, members =>
    members |> update k fun
      | none => (inside ks edit []).map (.table .passed)
      | some (.value _) => none
      | some (.table origin sub) => (inside ks edit sub).map (.table origin)
      | some (.tables rows) =>
        match rows.reverse with
        | [] => none
        | last :: before =>
          (inside ks edit last).map fun last => .tables (last :: before).reverse

/-- Opens the table of a header. It may have been passed before, but not
opened. -/
def openTable (key : Key) : Members → Option Members :=
  inside key.dropLast <| update (key.getLastD "") fun
    | none => some (.table .header [])
    | some (.table .passed members) => some (.table .header members)
    | _ => none

/-- Adds a row to the array of tables of a double header. -/
def addRow (key : Key) : Members → Option Members :=
  inside key.dropLast <| update (key.getLastD "") fun
    | none => some (.tables [[]])
    | some (.tables rows) => some (.tables (rows ++ [[]]))
    | _ => none

/-- Gives a value to a dotted key. The tables on the way are made by dotted
keys of the same section, or were only passed before. -/
def assign (inSection : Nat) : Key → Json → Members → Option Members
  | [], _, _ => none
  | [k], value, members =>
    members |> update k fun
      | none => some (.value value)
      | some _ => none
  | k :: ks, value, members =>
    members |> update k fun
      | none => (assign inSection ks value []).map (.table (.dotted inSection))
      | some (.table origin sub) =>
        if origin = .passed ∨ origin = .dotted inSection then
          (assign inSection ks value sub).map (.table (.dotted inSection))
        else none
      | _ => none

mutual

/-- What stands under a key, as a JSON value. -/
def Item.toJson : Item → Json
  | .value j => j
  | .table _ members => .obj (membersToJson members)
  | .tables rows => .arr (rowsToJson rows)

/-- The members of a table as JSON values. -/
def membersToJson : List (String × Item) → List (String × Json)
  | [] => []
  | (k, item) :: rest => (k, item.toJson) :: membersToJson rest

/-- The rows of an array of tables as JSON values. -/
def rowsToJson : List (List (String × Item)) → List Json
  | [] => []
  | row :: rows => .obj (membersToJson row) :: rowsToJson rows

end

/-- Carries out the statements of a document, given the number and the key of
the section that is open. -/
def carryOut : List Statement → Nat → Key → Members → Option Members
  | [], _, _, members => some members
  | .table key :: rest, n, _, members => do carryOut rest (n + 1) key (← openTable key members)
  | .row key :: rest, n, _, members => do carryOut rest (n + 1) key (← addRow key members)
  | .assign key value :: rest, n, current, members => do
    carryOut rest n current (← inside current (assign n key value) members)

/-- The table that a document's statements build, unless they contradict each
other. -/
def build? (statements : List Statement) : Option (List (String × Json)) :=
  (carryOut statements 0 [] []).map membersToJson

end Toml

end SchemaProse
