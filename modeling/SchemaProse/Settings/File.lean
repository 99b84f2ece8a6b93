import SchemaProse.Settings.Source
import SchemaProse.Toml.Reader
/-!
# Settings — files

The files that settings come from are TOML documents.
-/

namespace SchemaProse

/-- A file's text, if there is a file, as the search for settings sees it. The
reader gives no reason for refusing a text. -/
def Document.ofText : Option String → Document
  | none => .absent
  | some text =>
    match Toml.parse? text with
    | some members => .table members
    | none => .invalid none

namespace Settings

/-- The documents among some files, which are named by their paths. -/
def documents (files : List (String × String)) (path : FilePath) : Document :=
  .ofText ((files.map fun f => (FilePath.ofText f.1, f.2)).lookup path)

end Settings

end SchemaProse
