import SchemaProse.Json.Basic
/-!
# Json — the compact text

The compact text of a value has no blank outside its strings. Strings escape
the quote, the backslash and the control characters below U+0020 and keep
every other character; numbers have their exact text.
-/

namespace SchemaProse

namespace Json

/-- A hexadecimal digit in lower case. -/
def hexDigit (n : Nat) : Char :=
  Nat.digitChar n

/-- A character as it stands inside a string's quotes. -/
def escape (c : Char) : List Char :=
  if c = '"' then ['\\', '"']
  else if c = '\\' then ['\\', '\\']
  else if c = '\n' then ['\\', 'n']
  else if c = '\r' then ['\\', 'r']
  else if c = '\t' then ['\\', 't']
  else if c = '\x08' then ['\\', 'b']
  else if c = '\x0c' then ['\\', 'f']
  else if c.toNat < 0x20 then
    ['\\', 'u', '0', '0', hexDigit (c.toNat / 16), hexDigit (c.toNat % 16)]
  else [c]

/-- A string in quotes. -/
def quoted (s : String) : List Char :=
  '"' :: (s.toList.flatMap escape ++ ['"'])

/-- Texts with commas between them. -/
def commas (texts : List (List Char)) : List Char :=
  [','].intercalate texts

mutual

/-- The compact text of a value. -/
def compactChars : Json → List Char
  | .null => ['n', 'u', 'l', 'l']
  | .bool true => ['t', 'r', 'u', 'e']
  | .bool false => ['f', 'a', 'l', 's', 'e']
  | .num n => n.exactChars
  | .str s => quoted s
  | .arr items => '[' :: (commas (compactItems items) ++ [']'])
  | .obj members => '{' :: (commas (compactMembers members) ++ ['}'])

/-- The compact texts of an array's items. -/
def compactItems : List Json → List (List Char)
  | [] => []
  | j :: js => compactChars j :: compactItems js

/-- The compact texts of an object's members: the quoted name, a colon, the
value. -/
def compactMembers : List (String × Json) → List (List Char)
  | [] => []
  | (name, j) :: ms => (quoted name ++ ':' :: compactChars j) :: compactMembers ms

end

/-- The compact text of a value. -/
def compact (j : Json) : String :=
  String.ofList j.compactChars

end Json

end SchemaProse
