import SchemaProse.Keyword.Group
import SchemaProse.Schema.Basic
import SchemaProse.Settings.Basic
/-!
# Schema — extensions

The extensions of a schema are its members whose names begin with `x-`: the
private markers first, then the others as they came. Those that settings do
not hide are the ones to show.
-/

namespace SchemaProse

namespace Schema

/-- The name is an extension's. -/
def isExtension (name : String) : Bool :=
  Text.startsWith "x-" name

/-- The private markers that were given, with their values. -/
def markers (s : Schema) : List (String × Json) :=
  Keyword.markers.filterMap fun k => (s.value? k).map fun v => (k.name, v.toJson)

/-- All extensions. -/
def extensions (s : Schema) : List (String × Json) :=
  s.markers ++ s.extra.filter fun m => isExtension m.1

/-- The extensions that the settings do not hide. -/
def visibleExtensions (s : Schema) (settings : Settings) : List (String × Json) :=
  s.extensions.filter fun m => !settings.hides m.1

end Schema

namespace Value

/-- The extensions to show, if there are any. -/
def visibleExtensions? (settings : Settings) : Value → Option (List (String × Json))
  | .schema s =>
    match s.visibleExtensions settings with
    | [] => none
    | found => some found
  | _ => none

end Value

end SchemaProse
