/-!
# Synthesis — refusals

The entries from which schemas are synthesized are read as records with named
fields, one after the other. A refusal names the record that could not be read
and the fields that were at fault, none when there was no record at all.
-/

namespace SchemaProse

/-- The records that entries are read as. -/
inductive RecordKind where
  | channelParameter | serverVariable | schema
deriving DecidableEq

/-- What the record is called in reports. -/
def RecordKind.name : RecordKind → String
  | channelParameter => "ChannelParameter"
  | serverVariable => "ServerVariable"
  | schema => "Schema"

/-- A record that could not be read, and its fields at fault. -/
structure Refusal where
  record : RecordKind
  fields : List String
deriving DecidableEq

/-- Reads the named entries of a collection in order, up to the first that is
refused. -/
def readEach {α β : Type} (read : α → Except Refusal β) :
    List (String × α) → Except Refusal (List (String × β))
  | [] => .ok []
  | (name, a) :: entries => do
    let b ← read a
    let bs ← readEach read entries
    .ok ((name, b) :: bs)

end SchemaProse
