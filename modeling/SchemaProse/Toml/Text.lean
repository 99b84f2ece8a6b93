import SchemaProse.Json.Reader
/-!
# Toml — strings and keys

Readers for the parts of a document that hold text. A basic string has
escapes and a literal string has none; either kind may run over several lines
between three quotes. A key is a run of bare characters or a string of one
line, and a dotted key several of these. Every reader answers what it read and
the text that follows.
-/

namespace SchemaProse

namespace Toml

/-- A blank within a line. -/
def isBlank (c : Char) : Bool :=
  c == ' ' || c == '\t'

/-- Drops the blanks before the next token of a line. -/
def skipBlanks (cs : List Char) : List Char :=
  cs.dropWhile isBlank

/-- A blank or the end of a line. -/
def isLayout (c : Char) : Bool :=
  isBlank c || c == '\n'

/-- A character that may stand in comments and strings of one line. -/
def isPlain (c : Char) : Bool :=
  c == '\t' || (0x20 ≤ c.toNat && c.toNat != 0x7F)

/-- A character of a bare key. -/
def isBare (c : Char) : Bool :=
  c.isAlphanum || c == '-' || c == '_'

/-- The character with a code, if there is one. -/
def charOfCode? (n : Nat) : Option Char :=
  if n.isValidChar then some (Char.ofNat n) else none

/-- A character by a number of hexadecimal digits. -/
def hexChar? (digits : Nat) (cs : List Char) : Option (Char × List Char) := do
  let values ← (cs.take digits).mapM Json.hexValue?
  if values.length = digits then
    let c ← charOfCode? (values.foldl (fun n d => n * 16 + d) 0)
    some (c, cs.drop digits)
  else none

/-- The character of an escape whose backslash has been read. -/
def escape? : List Char → Option (Char × List Char)
  | 'u' :: cs => hexChar? 4 cs
  | 'U' :: cs => hexChar? 8 cs
  | c :: cs => if c = '/' then none else (Json.unescape? c).map (·, cs)
  | [] => none

/-- What follows a backslash at the end of a line, without the blank lines and
the blanks before the next character. -/
def lineContinuation? (cs : List Char) : Option (List Char) :=
  match skipBlanks cs with
  | '\n' :: cs => some (cs.dropWhile isLayout)
  | _ => none

/-- The rest of a basic string of one line. -/
def basicTail? : Nat → List Char → Option (List Char × List Char)
  | 0, _ => none
  | _ + 1, '"' :: cs => some ([], cs)
  | fuel + 1, '\\' :: cs => do
    let (c, cs) ← escape? cs
    let (text, cs) ← basicTail? fuel cs
    some (c :: text, cs)
  | fuel + 1, c :: cs =>
    if isPlain c then (basicTail? fuel cs).map fun (text, cs) => (c :: text, cs) else none
  | _ + 1, [] => none

/-- The quotes at the end of a string of several lines: three close it, and up
to two more before them belong to it. -/
def closing? (quote : Char) (cs : List Char) : Option (List Char × List Char) :=
  let run := min 5 (cs.takeWhile (· == quote)).length
  if 3 ≤ run then some (List.replicate (run - 3) quote, cs.drop run) else none

/-- The rest of a basic string of several lines. -/
def basicLines? : Nat → List Char → Option (List Char × List Char)
  | 0, _ => none
  | _ + 1, [] => none
  | fuel + 1, c :: cs =>
    match closing? '"' (c :: cs) with
    | some done => some done
    | none =>
      if c = '\\' then
        match lineContinuation? cs with
        | some cs => basicLines? fuel cs
        | none => do
          let (e, cs) ← escape? cs
          let (text, cs) ← basicLines? fuel cs
          some (e :: text, cs)
      else if isPlain c || c == '\n' then
        (basicLines? fuel cs).map fun (text, cs) => (c :: text, cs)
      else none

/-- The rest of a literal string of one line. -/
def literalTail? (cs : List Char) : Option (List Char × List Char) :=
  match cs.dropWhile (fun c => isPlain c && c != '\'') with
  | '\'' :: rest => some (cs.takeWhile (fun c => isPlain c && c != '\''), rest)
  | _ => none

/-- The rest of a literal string of several lines. -/
def literalLines? : List Char → Option (List Char × List Char)
  | [] => none
  | c :: cs =>
    match closing? '\'' (c :: cs) with
    | some done => some done
    | none =>
      if isPlain c || c == '\n' then
        (literalLines? cs).map fun (text, cs) => (c :: text, cs)
      else none

/-- Drops the line end that directly follows the opening of a string of
several lines. -/
def skipFirstLineEnd : List Char → List Char
  | '\n' :: cs => cs
  | cs => cs

/-- A string of any kind. -/
def string? (cs : List Char) : Option (List Char × List Char) :=
  match cs with
  | '"' :: '"' :: '"' :: cs => basicLines? (cs.length + 1) (skipFirstLineEnd cs)
  | '"' :: cs => basicTail? (cs.length + 1) cs
  | '\'' :: '\'' :: '\'' :: cs => literalLines? (skipFirstLineEnd cs)
  | '\'' :: cs => literalTail? cs
  | _ => none

/-- One part of a key. -/
def keyPart? : List Char → Option (String × List Char)
  | '"' :: cs => (basicTail? (cs.length + 1) cs).map fun (s, cs) => (String.ofList s, cs)
  | '\'' :: cs => (literalTail? cs).map fun (s, cs) => (String.ofList s, cs)
  | cs =>
    match cs.takeWhile isBare with
    | [] => none
    | part => some (String.ofList part, cs.dropWhile isBare)

/-- A dotted key; the blanks after it are dropped. -/
def key? : Nat → List Char → Option (List String × List Char)
  | 0, _ => none
  | fuel + 1, cs => do
    let (part, cs) ← keyPart? cs
    match skipBlanks cs with
    | '.' :: cs =>
      let (parts, cs) ← key? fuel (skipBlanks cs)
      some (part :: parts, cs)
    | cs => some ([part], cs)

/-- Drops a comment up to the end of its line. -/
def skipComment? : List Char → Option (List Char)
  | '#' :: cs =>
    let rest := cs.dropWhile (· != '\n')
    if (cs.takeWhile (· != '\n')).all isPlain then some rest else none
  | cs => some cs

/-- Drops blanks, line ends and comments. -/
def skipLayout? : Nat → List Char → Option (List Char)
  | 0, _ => none
  | fuel + 1, cs =>
    match cs.dropWhile isLayout with
    | '#' :: cs => do skipLayout? fuel (← skipComment? ('#' :: cs))
    | cs => some cs

end Toml

end SchemaProse
