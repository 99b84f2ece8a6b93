import SchemaProse.Schema.Scalar
/-!
# Reading — scalar values

A keyword of a scalar shape has one *declared form* of value (`Shape.holds`)
and may accept other spellings of it. Reading leaves a value of the declared
form as it is (`scalar?_of_holds`) and turns every other one it accepts into
the declared form (`holds_of_scalar?`), so reading a second time changes
nothing.
-/

namespace SchemaProse

namespace Shape

/-- No schema stands in a value of the shape. -/
def isScalar : Shape → Bool
  | .node | .nodeList | .nodeOrList | .nodeMap => false
  | _ => true

/-- A value of the shape may be a single node. -/
def takesNode : Shape → Bool
  | .node | .nodeOrList => true
  | _ => false

/-- A value of the shape may be a list of entries. -/
def takesList : Shape → Bool
  | .nodeList | .nodeOrList => true
  | _ => false

/-- Values of the shape are kept as they are given. -/
def isVerbatim : Shape → Bool
  | .anything | .anyList | .text | .textList | .textOrList => true
  | _ => false

/-- The value has the declared form of a scalar shape. -/
def holds : Shape → Json → Bool
  | .anything, _ => true
  | .anyList, j => j.isList
  | .text, j => j.isText
  | .textList, j => j.isTextList
  | .textOrList, j => j.isText || j.isTextList
  | .flag, .bool _ => true
  | .integer, .num (.int _) => true
  | .number, .num _ => true
  | .flagOrNumber, .bool _ => true
  | .flagOrNumber, .num _ => true
  | _, _ => false

/-- A shape with a declared form is scalar. -/
theorem isScalar_of_holds {shape : Shape} {j : Json} (h : shape.holds j = true) :
    shape.isScalar = true := by
  cases shape with
  | node | nodeList | nodeOrList | nodeMap => cases h
  | _ => rfl

/-- **A value of the declared form stays as it is.** -/
theorem scalar?_of_holds {shape : Shape} {j : Json} (h : shape.holds j = true) :
    shape.scalar? j = some j := by
  cases shape with
  | anything => rfl
  | anyList | text | textList | textOrList => exact if_pos h
  | flag =>
    cases j with
    | bool b => rfl
    | _ => cases h
  | number =>
    cases j with
    | num n => rfl
    | _ => cases h
  | flagOrNumber =>
    cases j with
    | bool b => rfl
    | num n => rfl
    | _ => cases h
  | integer =>
    cases j with
    | num n =>
      cases n with
      | int i => rfl
      | float x => cases h
    | _ => cases h
  | node | nodeList | nodeOrList | nodeMap => cases h

/-- **What is read has the declared form.** -/
theorem holds_of_scalar? {shape : Shape} {j j' : Json} (h : shape.scalar? j = some j') :
    shape.holds j' = true := by
  cases shape with
  | anything => rfl
  | anyList | text | textList | textOrList =>
    simp only [scalar?, Json.given?, Option.ite_none_right_eq_some, Option.some.injEq] at h
    exact h.2 ▸ h.1
  | flag | integer | number =>
    obtain ⟨a, -, rfl⟩ := Option.map_eq_some_iff.1 h
    rfl
  | flagOrNumber =>
    cases j with
    | bool b => exact Option.some.inj h ▸ rfl
    | num n => exact Option.some.inj h ▸ rfl
    | str s =>
      simp only [scalar?, Json.asFlagOrNumber?] at h
      split at h
      · exact Option.some.inj h ▸ rfl
      · obtain ⟨n, -, rfl⟩ := Option.map_eq_some_iff.1 h
        rfl
    | _ => cases h
  | node | nodeList | nodeOrList | nodeMap => cases h

/-- No scalar stands in the place of a node. -/
theorem scalar?_of_takesNode {shape : Shape} (h : shape.takesNode = true) (j : Json) :
    shape.scalar? j = none := by
  cases shape with
  | node | nodeOrList => rfl
  | _ => cases h

theorem isScalar_of_isVerbatim {shape : Shape} (h : shape.isVerbatim = true) :
    shape.isScalar = true := by
  cases shape with
  | anything | anyList | text | textList | textOrList => rfl
  | _ => cases h

/-- A value with no other spelling is read as it is given. -/
theorem eq_of_scalar? {shape : Shape} (hshape : shape.isVerbatim = true) {j j' : Json}
    (h : shape.scalar? j = some j') : j' = j := by
  cases shape with
  | anything => exact (Option.some.inj h).symm
  | anyList | text | textList | textOrList =>
    simp only [scalar?, Json.given?, Option.ite_none_right_eq_some, Option.some.injEq] at h
    exact h.2.symm
  | _ => cases hshape

end Shape

end SchemaProse
