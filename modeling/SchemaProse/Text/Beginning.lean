/-!
# Text — beginnings

Tests for the beginning of a text.
-/

namespace SchemaProse

namespace Text

/-- The text begins with another. -/
def startsWith (start text : String) : Bool :=
  start.toList.isPrefixOf text.toList

end Text

end SchemaProse
