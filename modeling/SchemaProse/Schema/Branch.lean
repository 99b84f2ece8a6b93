/-!
# Schema — labels of branches

The label that stands above one branch of a combinator: words for the first
branch, other words for the later ones, and the title if the branch has one.
-/

namespace SchemaProse

/-- The label of a branch by its position. -/
def branchLabel (position : Int) (first other : String) (title : Option String) : String :=
  (if position = 0 then first else other) ++
    match title with
    | some t => if t = "" then ":" else " " ++ t ++ ":"
    | none => ":"

end SchemaProse
