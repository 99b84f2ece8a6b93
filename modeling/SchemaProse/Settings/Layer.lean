import SchemaProse.Json.Basic
import SchemaProse.Settings.Basic
import SchemaProse.Text.Trim
/-!
# Settings — layers

A configuration is any JSON value, and only an object with values of the right
types has an effect: a member that is missing or ill typed leaves its setting
as it was, whatever the others are. Beginnings to hide are given as a list or
as one text with commas; either way they are trimmed, and blank ones are left
out.
-/

namespace SchemaProse

namespace Settings

/-- A text without the blanks around it. -/
def trimmed (s : String) : String :=
  String.ofList (Text.trim Text.isBlank s.toList)

/-- The texts trimmed, without those that are blank. -/
def cleaned (texts : List String) : List String :=
  (texts.map trimmed).filter (· != "")

/-- The pieces of a text between its commas. -/
def pieces (s : String) : List String :=
  (s.toList.splitOn ',').map String.ofList

/-- The beginnings that a configuration value gives. -/
def beginnings? : Json → Option (List String)
  | .str s => some (cleaned (pieces s))
  | .arr items => some (cleaned (items.filterMap Json.str?))
  | _ => none

/-- Settings with what a configuration says laid over them. -/
def layer (base : Settings) (config : Json) : Settings where
  nullLiteral := ((config.member? "null_literal").bind Json.str?).getD base.nullLiteral
  undefinedLiteral :=
    ((config.member? "undefined_literal").bind Json.str?).getD base.undefinedLiteral
  extraHidden :=
    ((config.member? "extra_hidden_prefixes").bind beginnings?).getD base.extraHidden

/-- The variables of an environment. -/
abbrev Environment := List (String × String)

/-- What the variables after a common beginning say. A literal for missing
examples may be set to nothing; the others count only when they are not
empty. -/
def environmentConfig (start : String) (env : Environment) : Json :=
  let filled (name : String) := (env.lookup (start ++ name)).filter (· != "")
  let entry (key : String) (text : Option String) := text.map fun s => (key, Json.str s)
  .obj ([entry "null_literal" (filled "NULL_LITERAL"),
    entry "undefined_literal" (env.lookup (start ++ "UNDEFINED_LITERAL")),
    entry "extra_hidden_prefixes" (filled "EXTRA_HIDDEN_PREFIXES")].filterMap id)

/-- The beginning of the variables that are looked at. -/
def variableStart : String :=
  "SCHEMADOC_"

/-- Settings with what the variables after a common beginning say laid over
them. -/
def withEnvironment (base : Settings) (start : String) (env : Environment) : Settings :=
  base.layer (environmentConfig start env)

end Settings

end SchemaProse
