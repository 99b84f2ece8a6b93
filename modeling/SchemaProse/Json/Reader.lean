import SchemaProse.Json.Compact
import SchemaProse.Number.Numeral
/-!
# Json — reading a text

A reader for JSON text that keeps what `Json` keeps: the order of members and
the kind of numbers, a token with a point or an exponent being a binary64
number. The names of NaN and of the infinities are read as well, so every
compact text is readable. Each step uses up fuel, of which `parse?` gives more
than the text can need.
-/

namespace SchemaProse

namespace Json

/-- The characters that may stand between tokens. -/
def isGap (c : Char) : Bool :=
  c == ' ' || c == '\n' || c == '\r' || c == '\t'

/-- Drops the gap before the next token. -/
def skipGap (cs : List Char) : List Char :=
  cs.dropWhile isGap

/-- The value of a hexadecimal digit. -/
def hexValue? (c : Char) : Option Nat :=
  if c.isDigit then some (c.toNat - '0'.toNat)
  else if 'a' ≤ c ∧ c ≤ 'f' then some (c.toNat - 'a'.toNat + 10)
  else if 'A' ≤ c ∧ c ≤ 'F' then some (c.toNat - 'A'.toNat + 10)
  else none

/-- Four hexadecimal digits. -/
def codeUnit? : List Char → Option (Nat × List Char)
  | a :: b :: c :: d :: cs => do
    let a ← hexValue? a
    let b ← hexValue? b
    let c ← hexValue? c
    let d ← hexValue? d
    some (((a * 16 + b) * 16 + c) * 16 + d, cs)
  | _ => none

/-- The character of one code unit, or of a pair of surrogates. A surrogate
without its partner stands for no character. -/
def codePoint? (cs : List Char) : Option (Char × List Char) := do
  let (high, cs) ← codeUnit? cs
  if 0xD800 ≤ high ∧ high < 0xDC00 then
    match cs with
    | '\\' :: 'u' :: cs =>
      let (low, cs) ← codeUnit? cs
      if 0xDC00 ≤ low ∧ low < 0xE000 then
        some (Char.ofNat (0x10000 + (high - 0xD800) * 0x400 + (low - 0xDC00)), cs)
      else none
    | _ => none
  else if 0xDC00 ≤ high ∧ high < 0xE000 then none
  else some (Char.ofNat high, cs)

/-- The character that a one-letter escape stands for. -/
def unescape? (c : Char) : Option Char :=
  if c = '"' ∨ c = '\\' ∨ c = '/' then some c
  else if c = 'n' then some '\n'
  else if c = 'r' then some '\r'
  else if c = 't' then some '\t'
  else if c = 'b' then some '\x08'
  else if c = 'f' then some '\x0c'
  else none

/-- One character of a string, written as itself or escaped. -/
def character? : List Char → Option (Char × List Char)
  | [] => none
  | c :: cs =>
    if c = '\\' then
      match cs with
      | 'u' :: cs => codePoint? cs
      | e :: cs => (unescape? e).map (·, cs)
      | [] => none
    else if c.toNat < 0x20 then none
    else some (c, cs)

/-- The rest of a string whose opening quote has been read. -/
def stringTail? : Nat → List Char → Option (List Char × List Char)
  | 0, _ => none
  | _ + 1, '"' :: cs => some ([], cs)
  | fuel + 1, cs => do
    let (c, cs) ← character? cs
    let (text, cs) ← stringTail? fuel cs
    some (c :: text, cs)

/-- The characters of number tokens. -/
def isNumberChar (c : Char) : Bool :=
  c.isDigit || c == '-' || c == '+' || c == '.' || c == 'e' || c == 'E'

/-- A number from its token: whole digits, a point with digits if there is
one, an exponent if there is one. -/
def number? (token : List Char) : Option Number :=
  let (neg, body) := match token with
    | '-' :: cs => (true, cs)
    | cs => (false, cs)
  let whole := body.takeWhile Char.isDigit
  let rest := body.dropWhile Char.isDigit
  if !Numeral.isWhole whole then none
  else if rest.isEmpty then some (.int (Numeral.withSign neg (Numeral.ofDigits whole)))
  else if rest.head? = some '.' && !(rest.tail.headD '.').isDigit then none
  else (Numeral.decimal? body).map fun (c, e) => .float (Binary64.ofDecimal neg c e)

/-- A value that is a single token other than a string. -/
def token? : List Char → Option (Json × List Char)
  | 'n' :: 'u' :: 'l' :: 'l' :: cs => some (.null, cs)
  | 't' :: 'r' :: 'u' :: 'e' :: cs => some (.bool true, cs)
  | 'f' :: 'a' :: 'l' :: 's' :: 'e' :: cs => some (.bool false, cs)
  | 'N' :: 'a' :: 'N' :: cs => some (.num (.float .nan), cs)
  | 'I' :: 'n' :: 'f' :: 'i' :: 'n' :: 'i' :: 't' :: 'y' :: cs =>
    some (.num (.float (.infinity false)), cs)
  | '-' :: 'I' :: 'n' :: 'f' :: 'i' :: 'n' :: 'i' :: 't' :: 'y' :: cs =>
    some (.num (.float (.infinity true)), cs)
  | cs => (number? (cs.takeWhile isNumberChar)).map (.num ·, cs.dropWhile isNumberChar)

mutual

/-- One value from the front of the text, and what follows it. -/
def value? : Nat → List Char → Option (Json × List Char)
  | 0, _ => none
  | fuel + 1, cs =>
    match skipGap cs with
    | '"' :: cs => (stringTail? fuel cs).map fun (s, cs) => (.str (String.ofList s), cs)
    | '[' :: cs =>
      match skipGap cs with
      | ']' :: cs => some (.arr [], cs)
      | _ => (items? fuel cs).map fun (items, cs) => (.arr items, cs)
    | '{' :: cs =>
      match skipGap cs with
      | '}' :: cs => some (.obj [], cs)
      | _ => (members? fuel cs).map fun (members, cs) => (.obj members, cs)
    | cs => token? cs

/-- The items of an array up to its closing bracket, at least one. -/
def items? : Nat → List Char → Option (List Json × List Char)
  | 0, _ => none
  | fuel + 1, cs => do
    let (item, cs) ← value? fuel cs
    match skipGap cs with
    | ',' :: cs =>
      let (items, cs) ← items? fuel cs
      some (item :: items, cs)
    | ']' :: cs => some ([item], cs)
    | _ => none

/-- The members of an object up to its closing brace, at least one. -/
def members? : Nat → List Char → Option (List (String × Json) × List Char)
  | 0, _ => none
  | fuel + 1, cs =>
    match skipGap cs with
    | '"' :: cs => do
      let (name, cs) ← stringTail? fuel cs
      match skipGap cs with
      | ':' :: cs =>
        let (item, cs) ← value? fuel cs
        match skipGap cs with
        | ',' :: cs =>
          let (members, cs) ← members? fuel cs
          some ((String.ofList name, item) :: members, cs)
        | '}' :: cs => some ([(String.ofList name, item)], cs)
        | _ => none
      | _ => none
    | _ => none

end

/-- The value that a text holds, with nothing but gaps around it. -/
def parse? (text : String) : Option Json :=
  let cs := text.toList
  match value? (2 * cs.length + 2) cs with
  | some (j, rest) => if (skipGap rest).isEmpty then some j else none
  | none => none

end Json

end SchemaProse
