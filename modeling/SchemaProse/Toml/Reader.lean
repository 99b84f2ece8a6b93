import SchemaProse.Toml.Document
import SchemaProse.Toml.Scalar
import SchemaProse.Toml.Text
/-!
# Toml — reading a document

A document is read line by line into statements, and these are carried out.
Arrays may run over several lines and have comments; tables written between
braces stand on one line. Each step uses up fuel, of which `parse?` gives more
than the text can need.
-/

namespace SchemaProse

namespace Toml

mutual

/-- A value, and what follows it. -/
def value? : Nat → List Char → Option (Json × List Char)
  | 0, _ => none
  | fuel + 1, cs =>
    match cs with
    | '"' :: _ | '\'' :: _ => (string? cs).map fun (s, cs) => (.str (String.ofList s), cs)
    | '[' :: cs => (items? fuel cs).map fun (items, cs) => (.arr items, cs)
    | '{' :: cs =>
      match skipBlanks cs with
      | '}' :: cs => some (.obj [], cs)
      | cs => (inline? fuel cs []).map fun (members, cs) => (.obj (membersToJson members), cs)
    | cs => bareValue? cs

/-- The items of an array up to its closing bracket; a comma may follow the
last one. -/
def items? : Nat → List Char → Option (List Json × List Char)
  | 0, _ => none
  | fuel + 1, cs => do
    match ← skipLayout? (cs.length + 1) cs with
    | ']' :: cs => some ([], cs)
    | cs =>
      let (item, cs) ← value? fuel cs
      match ← skipLayout? (cs.length + 1) cs with
      | ',' :: cs =>
        let (items, cs) ← items? fuel cs
        some (item :: items, cs)
      | ']' :: cs => some ([item], cs)
      | _ => none

/-- The assignments of a table between braces up to the closing one, added to
those before them. -/
def inline? : Nat → List Char → Members → Option (Members × List Char)
  | 0, _, _ => none
  | fuel + 1, cs, members => do
    let (key, cs) ← key? (cs.length + 1) cs
    match cs with
    | '=' :: cs =>
      let (value, cs) ← value? fuel (skipBlanks cs)
      let members ← assign 0 key value members
      match skipBlanks cs with
      | ',' :: cs => inline? fuel (skipBlanks cs) members
      | '}' :: cs => some (members, cs)
      | _ => none
    | _ => none

end

/-- The key of a header after its opening brackets, and what follows the
closing ones. -/
def header? (closing : List Char) (cs : List Char) : Option (Key × List Char) := do
  let (key, cs) ← key? (cs.length + 1) (skipBlanks cs)
  if closing.isPrefixOf cs then some (key, cs.drop closing.length) else none

/-- A statement, and what follows it. -/
def statement? (cs : List Char) : Option (Statement × List Char) :=
  match cs with
  | '[' :: '[' :: cs => (header? [']', ']'] cs).map fun (key, cs) => (.row key, cs)
  | '[' :: cs => (header? [']'] cs).map fun (key, cs) => (.table key, cs)
  | cs => do
    let (key, cs) ← key? (cs.length + 1) cs
    match cs with
    | '=' :: cs =>
      let (value, cs) ← value? (2 * cs.length + 2) (skipBlanks cs)
      some (.assign key value, cs)
    | _ => none

/-- The end of a line: blanks, a comment, and the line's end or the text's. -/
def lineEnd? (cs : List Char) : Option (List Char) := do
  match ← skipComment? (skipBlanks cs) with
  | [] => some []
  | '\n' :: cs => some cs
  | _ => none

/-- The statements of a text, at most one a line. -/
def statements? : Nat → List Char → Option (List Statement)
  | 0, _ => none
  | fuel + 1, cs => do
    match skipBlanks cs with
    | [] => some []
    | '\n' :: cs => statements? fuel cs
    | '#' :: cs => statements? fuel (← lineEnd? ('#' :: cs))
    | cs =>
      let (statement, cs) ← statement? cs
      let statements ← statements? fuel (← lineEnd? cs)
      some (statement :: statements)

/-- Writes every line end as a single character. -/
def joinLineEnds : List Char → List Char
  | '\r' :: '\n' :: cs => '\n' :: joinLineEnds cs
  | c :: cs => c :: joinLineEnds cs
  | [] => []

/-- The table that a text describes, if the text is a valid document. -/
def parse? (text : String) : Option (List (String × Json)) := do
  let cs := joinLineEnds text.toList
  build? (← statements? (cs.length + 2) cs)

end Toml

end SchemaProse
