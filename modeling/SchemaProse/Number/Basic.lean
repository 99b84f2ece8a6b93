import SchemaProse.Number.Shortest
/-!
# Number — whole numbers and binary64 numbers

A number of a document is either a whole number of any size or a number of the
binary64 format, and the two are told apart even when they are equal. The
*plain* text forgets the difference: a whole number is written as its digits
whichever kind it is of, and no text has an exponent. The *exact* text keeps
it: a binary64 number always shows a point, an exponent or a letter.
-/

namespace SchemaProse

namespace Binary64

/-- The digits of a whole number, else the shortest decimal that reads back,
without an exponent. -/
def plainChars : Binary64 → List Char
  | .nan => ['N', 'a', 'N']
  | .infinity neg => (if neg then ['-'] else []) ++ ['I', 'n', 'f', 'i', 'n', 'i', 't', 'y']
  | .finite x =>
    match x.toInt? with
    | some i => intChars i
    | none => x.shortest.positional

/-- The shortest decimal that reads back, marked as a fraction. -/
def exactChars : Binary64 → List Char
  | .finite x => x.shortest.marked
  | x => x.plainChars

end Binary64

/-- A number of a document. -/
inductive Number where
  /-- A whole number of any size. -/
  | int (i : Int)
  /-- A number of the binary64 format. -/
  | float (x : Binary64)
deriving DecidableEq

namespace Number

/-- The text that does not depend on the kind of the number. -/
def plainChars : Number → List Char
  | .int i => intChars i
  | .float x => x.plainChars

/-- The text that shows the kind of the number. -/
def exactChars : Number → List Char
  | .int i => intChars i
  | .float x => x.exactChars

/-- The text that does not depend on the kind of the number. -/
def plain (n : Number) : String :=
  String.ofList n.plainChars

/-- The number of decimal places when the number is `0.1`, `0.01`, `0.001`
and so on: its multiples are then the numbers with that many places. -/
def decimalPlaces? : Number → Option Nat
  | .float (.finite x) =>
    let d := x.shortest
    if d.neg = false ∧ d.coefficient = 1 ∧ d.exponent < 0 then some (-d.exponent).toNat
    else none
  | _ => none

end Number

end SchemaProse
