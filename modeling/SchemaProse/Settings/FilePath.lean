/-!
# Settings — paths of files

A path is read part by part. Empty parts and single dots lead nowhere and are
left out, so one path has many spellings; two dots are a part like any other.
Of the slashes in front, two are told apart from every other number of them.
-/

namespace SchemaProse

namespace FilePath

/-- Where a path starts. -/
inductive Root where
  /-- In the folder that is open. -/
  | here
  /-- At the root. -/
  | single
  /-- At a root of two slashes. -/
  | double
deriving DecidableEq

/-- The root behind so many slashes. -/
def Root.ofSlashes : Nat → Root
  | 0 => .here
  | 2 => .double
  | _ => .single

/-- The slashes of a root. -/
def Root.chars : Root → List Char
  | .here => []
  | .single => ['/']
  | .double => ['/', '/']

/-- A part of a path: not empty, no single dot, and without a slash. -/
abbrev Part :=
  { cs : List Char // cs ≠ [] ∧ cs ≠ ['.'] ∧ '/' ∉ cs }

/-- The part that is spelt so, if it leads anywhere. -/
def part? (cs : List Char) : Option Part :=
  if h : cs ≠ [] ∧ cs ≠ ['.'] ∧ '/' ∉ cs then some ⟨cs, h⟩ else none

/-- The parts between the slashes of a text. -/
def partsOf (cs : List Char) : List Part :=
  (cs.splitOn '/').filterMap part?

end FilePath

/-- A path of a file. -/
structure FilePath where
  root : FilePath.Root
  parts : List FilePath.Part
deriving DecidableEq

namespace FilePath

/-- The path that a text spells. -/
def ofText (text : String) : FilePath where
  root := .ofSlashes (text.toList.takeWhile (· == '/')).length
  parts := partsOf text.toList

/-- The shortest spelling of a path. -/
def text (path : FilePath) : String :=
  match path.root, path.parts with
  | .here, [] => "."
  | root, parts => String.ofList (root.chars ++ ['/'].intercalate (parts.map Subtype.val))

/-- The last part of a path, or nothing when it has none. -/
def name (path : FilePath) : String :=
  String.ofList ((path.parts.getLast?.map Subtype.val).getD [])

end FilePath

end SchemaProse
