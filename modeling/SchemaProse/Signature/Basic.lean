import SchemaProse.Keyword.Group
/-!
# Signature — type signatures and their text

A type signature is one of three words, or a union of members with the name of
a combinator behind it. A member is a type name, an array of one element
signature, or a tuple of several with the signature of a tail that may follow.
The text joins the members of a union by bars and the elements of a tuple by
commas.
-/

namespace SchemaProse

mutual

/-- A type signature. -/
inductive Signature where
  /-- Every value. -/
  | any
  /-- No value. -/
  | never
  /-- There is no schema to take a type from. -/
  | unknown
  /-- The members of a union, possibly none, and a combinator. -/
  | union (members : List Member) (combinator : Option Combinator)

/-- A member of a union. -/
inductive Member where
  /-- A type by its name. -/
  | named (name : String)
  /-- An array with elements of one signature. -/
  | array (element : Signature)
  /-- An array with the first elements given one by one and the others by a
  tail; without a tail there are no others. -/
  | tuple (first : Signature) (others : List Signature) (tail : Option Signature)

end

namespace Signature

/-- A union's text with the combinator's name behind it. -/
def withCombinator (base : String) : Option Combinator → String
  | none => base
  | some c => if base = "" then c.name else base ++ " " ++ c.name

end Signature

mutual

/-- The text of a signature. -/
def Signature.text : Signature → String
  | .any => "ANY"
  | .never => "NEVER"
  | .unknown => "UNKNOWN"
  | .union members combinator =>
    Signature.withCombinator (" | ".intercalate (Member.texts members)) combinator

/-- The text of a union's member. -/
def Member.text : Member → String
  | .named name => name
  | .array element => "array<" ++ element.text ++ ">"
  | .tuple first others tail =>
    "tuple<" ++
      ", ".intercalate (first.text :: (Signature.texts others ++ Signature.tailTexts tail)) ++ ">"

/-- The texts of a union's members. -/
def Member.texts : List Member → List String
  | [] => []
  | m :: ms => m.text :: Member.texts ms

/-- The texts of a tuple's elements. -/
def Signature.texts : List Signature → List String
  | [] => []
  | s :: ss => s.text :: Signature.texts ss

/-- The text of a tuple's tail, if there is one. -/
def Signature.tailTexts : Option Signature → List String
  | none => []
  | some s => ["...optional<" ++ s.text ++ ">"]

end

namespace Signature

/-- The signature has no text: nothing is known of the type. -/
def isBlank : Signature → Bool
  | .union [] none => true
  | .union [.named name] none => name == ""
  | _ => false

/-- The signature as it stands inside an array or tuple, where a blank one
counts as unknown. -/
def element (s : Signature) : Signature :=
  if s.isBlank then .unknown else s

end Signature

end SchemaProse
