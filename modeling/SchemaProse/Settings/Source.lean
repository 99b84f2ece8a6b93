import SchemaProse.Schema.Scalar
import SchemaProse.Settings.FilePath
import SchemaProse.Settings.Layer
/-!
# Settings — where they come from

Settings are loaded from a file and the environment, the environment winning.
The file is the one asked for, which then has to be there and be valid; or,
when none is asked for, the first of two files that offers something. A file
offers its table of helpers if it has one and otherwise all of it; a project
file offers only its section for this tool. A file that cannot be read at all
is neither missing nor invalid: its failure is passed on as it is.
-/

namespace SchemaProse

/-- A file as the search for settings sees it. -/
inductive Document where
  /-- There is no file. -/
  | absent
  /-- Looking for it, opening it or reading it fails in another way than by the
  parser's refusal: it is a folder, say, or its bytes are no text. -/
  | unreadable (failure : String)
  /-- The parser refuses its text, and may say why. -/
  | invalid (reason : Option String)
  /-- It is parsed as a table. -/
  | table (members : List (String × Json))

namespace Settings

/-- Why the file asked for cannot give settings. -/
inductive ConfigError where
  | notFound (path : FilePath)
  | invalid (path : FilePath) (reason : Option String)
deriving DecidableEq

/-- The message for a file that cannot give settings. -/
def ConfigError.message : ConfigError → String
  | notFound path => "settings file not found: " ++ path.text
  | invalid path reason =>
    "invalid TOML in " ++ path.text ++ (reason.map fun text => ": " ++ text).getD ""

/-- Why settings could not be loaded. -/
inductive LoadError where
  /-- The file asked for is to blame. -/
  | config (e : ConfigError)
  /-- The failure of a file that cannot be read. -/
  | unreadable (failure : String)
deriving DecidableEq

/-- The message for settings that could not be loaded. -/
def LoadError.message : LoadError → String
  | config e => e.message
  | unreadable failure => failure

/-- The file that settings are looked for in first. -/
def settingsFile : FilePath :=
  .ofText "schemadoc.toml"

/-- The name of the file that describes a whole project. -/
def projectName : String :=
  "pyproject.toml"

/-- The file that describes a whole project. -/
def projectFile : FilePath :=
  .ofText projectName

/-- The configuration that a file offers. -/
def offered (path : FilePath) (members : List (String × Json)) : Json :=
  if path.name = projectName then
    ((members.lookup "tool").bind (·.member? "schemadoc")).getD .null
  else
    match members.lookup "helpers" with
    | some (.obj helpers) => .obj helpers
    | _ => .obj members

/-- There is something in the configuration. -/
def isFilled : Json → Bool
  | .null => false
  | .bool b => b
  | .num n => n.toInt? != some 0
  | .str s => s != ""
  | .arr items => !items.isEmpty
  | .obj members => !members.isEmpty

/-- The configuration of the first of some files that offers something, or none
if none does. -/
def search (documents : FilePath → Document) : List FilePath → Except LoadError Json
  | [] => .ok .null
  | path :: paths =>
    match documents path with
    | .absent | .invalid _ => search documents paths
    | .unreadable failure => .error (.unreadable failure)
    | .table members =>
      if isFilled (offered path members) then .ok (offered path members)
      else search documents paths

/-- The configuration of the file asked for. -/
def asked (documents : FilePath → Document) (path : FilePath) : Except LoadError Json :=
  match documents path with
  | .absent => .error (.config (.notFound path))
  | .unreadable failure => .error (.unreadable failure)
  | .invalid reason => .error (.config (.invalid path reason))
  | .table members => .ok (offered path members)

/-- The configuration of the file asked for, or of the first of the usual files
that offers something. -/
def selected (documents : FilePath → Document) : Option String → Except LoadError Json
  | some path => asked documents (.ofText path)
  | none => search documents [settingsFile, projectFile]

/-- Settings from files. -/
def fromFiles (documents : FilePath → Document) (path : Option String) :
    Except LoadError Settings :=
  (selected documents path).map (layer {})

/-- Settings from a file with what the environment says laid over them. -/
def load (documents : FilePath → Document) (env : Environment) (path : Option String) :
    Except LoadError Settings :=
  (fromFiles documents path).map (·.withEnvironment variableStart env)

end Settings

end SchemaProse
