import SchemaProse.Text.Beginning
/-!
# Settings — what a reader of descriptions may choose

Two literals stand in examples for `null` and for a value that was not given.
Extension names may be hidden by how they begin: two beginnings are reserved
and always hidden, and settings add others.
-/

namespace SchemaProse

/-- The choices that descriptions depend on. -/
structure Settings where
  /-- The text of `null` in an example. -/
  nullLiteral : String := "NULL"
  /-- The text of an example that was not given. -/
  undefinedLiteral : String := ""
  /-- Beginnings of extension names that are hidden besides the reserved ones. -/
  extraHidden : List String := []
deriving DecidableEq

namespace Settings

/-- The beginnings of extension names that are always hidden. -/
def reserved : List String :=
  ["x-parser-", "x-schema-private-"]

/-- The beginnings that hide an extension name, each once. An empty one hides
nothing. -/
def hidden (settings : Settings) : List String :=
  ((reserved ++ settings.extraHidden).filter (· != "")).eraseDups

/-- The name of an extension is hidden. -/
def hides (settings : Settings) (name : String) : Bool :=
  settings.hidden.any fun start => Text.startsWith start name

end Settings

end SchemaProse
