import SchemaProse.Proofs.Signature.Outline
import SchemaProse.Proofs.Text.FirstSeen
/-!
# Signature — the type text of a document

The type text is described here for a document as it stands, member by member,
without reading it (`Json.typeText`). A schema *shows* an object when it
carries the keywords that the object gives and has under them what the object
has. The type text of a schema is then that of the object it shows
(`Schema.Shows.typeText_eq`).
-/

namespace SchemaProse

/-! ## What a document says -/

namespace Document

/-- What an object gives under a keyword. -/
def given? (members : List (String × Json)) (k : Keyword) : Option Json :=
  members.lookup k.name

/-- The object gives the keyword, be it empty. -/
def gives (members : List (String × Json)) (k : Keyword) : Bool :=
  (given? members k).isSome

/-- The object gives a constraining keyword. -/
def constrains (members : List (String × Json)) : Bool :=
  Keyword.constraining.any (gives members)

/-- The value is `true`, or an object that gives no constraining keyword. -/
def isAny : Json → Bool
  | .bool b => b
  | .obj members => !constrains members
  | _ => false

/-- The names given under `type`: a name, or those of a list, each where it
first stands, without `integer` when `number` stands there, too. -/
def typeNames? : Json → Option (List String)
  | .str name => some [name]
  | .arr items =>
    let names := items.filterMap Json.str?
    some (names.filter fun name => !(name == "integer" && names.contains "number")).eraseDups
  | _ => none

/-- The name of a constant's type: scalars are texts. -/
def constantName : Json → String
  | .arr _ => "array"
  | .obj _ => "object"
  | _ => "string"

/-- The name of an allowed value's type. -/
def valueName : Json → String
  | .null => "null"
  | .bool _ => "boolean"
  | .num _ => "number"
  | .str _ => "string"
  | .arr _ => "array"
  | .obj _ => "object"

/-- The text inside an array or tuple: `UNKNOWN` where there is none. -/
def elementText (text : String) : String :=
  if text = "" then "UNKNOWN" else text

section Text

-- the members of an object, and for each of them the type texts of what stands under it
variable (members : List (String × Json)) (inner : List (String × List String))

/-- The type texts of what stands under a keyword: of the entries of a list, or
of the one value. -/
def innerTexts (k : Keyword) : List String :=
  (inner.lookup k.name).getD []

/-- The last part of a tuple: none when `additionalItems` is `false`. -/
def tailTexts : List String :=
  match given? members .additionalItems with
  | some (.bool false) => []
  | some (.obj _) =>
    (innerTexts inner .additionalItems).map fun text => "...optional<" ++ elementText text ++ ">"
  | _ => ["...optional<ANY>"]

/-- The text of a tuple. -/
def tupleText (elements tail : List String) : String :=
  "tuple<" ++ ", ".intercalate
    ((if elements = [] then ["UNKNOWN"] else elements.map elementText) ++ tail) ++ ">"

/-- The text of the type name `array`. -/
def arrayText : String :=
  match given? members .items with
  | none | some .null => "array<ANY>"
  | some (.arr _) => tupleText (innerTexts inner .items) (tailTexts members inner)
  | some _ => "array<" ++ ((innerTexts inner .items).map elementText).headD "UNKNOWN" ++ ">"

/-- The text without a combinator: of the declared types, or of the constant,
or of the allowed values. -/
def baseText : String :=
  match (given? members .type).bind typeNames? with
  | some names =>
    " | ".intercalate
      (names.map fun name => if name = "array" then arrayText members inner else name)
  | none =>
    match given? members .const with
    | some j => constantName j
    | none =>
      match given? members .enum with
      | some (.arr items) => " | ".intercalate (items.map valueName).eraseDups
      | _ => ""

/-- The type text of an object. -/
def text : String :=
  if !constrains members then "ANY"
  else if (given? members .negation).any isAny then "NEVER"
  else
    match Combinator.all.find? fun c => gives members c.keyword with
    | none => baseText members inner
    | some c =>
      if baseText members inner = "" then c.name else baseText members inner ++ " " ++ c.name

end Text

end Document

mutual

/-- The type text of a document. -/
def Json.typeText : Json → String
  | .bool true => "ANY"
  | .bool false => "NEVER"
  | .obj members => Document.text members (Json.memberTexts members)
  | _ => "UNKNOWN"

/-- The type texts of a list's entries. -/
def Json.entryTexts : List Json → List String
  | [] => []
  | j :: js => j.typeText :: Json.entryTexts js

/-- The type texts of what stands under each member. -/
def Json.memberTexts : List (String × Json) → List (String × List String)
  | [] => []
  | (name, .arr items) :: ms => (name, Json.entryTexts items) :: Json.memberTexts ms
  | (name, j) :: ms => (name, [j.typeText]) :: Json.memberTexts ms

end

namespace Json

theorem entryTexts_eq_map (js : List Json) : entryTexts js = js.map typeText := by
  induction js with
  | nil => rfl
  | cons j js ih => rw [entryTexts, ih, List.map_cons]

/-- The type texts of a list's entries, or of any other value. -/
def textsInside : Json → List String
  | .arr items => items.map typeText
  | j => [j.typeText]

theorem memberTexts_eq_map (ms : List (String × Json)) :
    memberTexts ms = ms.map fun m => (m.1, m.2.textsInside) := by
  induction ms with
  | nil => rfl
  | cons m ms ih =>
    obtain ⟨name, j⟩ := m
    rw [List.map_cons, ← ih]
    cases j with
    | arr items => rw [memberTexts, entryTexts_eq_map, textsInside]
    | _ => rfl

end Json

namespace Document

variable {members : List (String × Json)} {k : Keyword}

theorem innerTexts_eq {j : Json} (h : given? members k = some j) :
    innerTexts (Json.memberTexts members) k = j.textsInside := by
  have hlookup := lookup_map_value (fun _ => Json.textsInside) members k.name
  rw [innerTexts, Json.memberTexts_eq_map, hlookup, ← given?, h, Option.map_some, Option.getD_some]

/-- The names given under `type` make up the union that is read from them. -/
theorem typeNames?_eq (j : Json) :
    typeNames? j = (Value.texts? (.data j)).map unionNames := by
  cases j with
  | str name =>
    have hdistinct : [name].eraseDups = [name] := by simp [List.eraseDups_cons]
    rw [typeNames?, Value.texts?, Option.map_some, unionNames, hdistinct]
    by_cases hnumber : "number" ∈ [name]
    · rw [if_pos hnumber, ← List.mem_singleton.1 hnumber]
      decide
    · rw [if_neg hnumber]
  | arr items =>
    rw [typeNames?, Value.texts?, Option.map_some, unionNames, eraseDups_filter]
    by_cases hnumber : "number" ∈ (items.filterMap Json.str?)
    · have hcontains := List.contains_iff_mem.2 hnumber
      rw [if_pos (List.mem_eraseDups.2 hnumber), hcontains]
      simp only [Bool.and_true]
      rfl
    · have hcontains : (items.filterMap Json.str?).contains "number" = false := by
        rw [Bool.eq_false_iff, Ne, List.contains_iff_mem]
        exact hnumber
      rw [if_neg fun h => hnumber (List.mem_eraseDups.1 h), hcontains]
      simp
  | _ => rfl

end Document

/-! ## Schemas and objects -/

/-- The value of a keyword shows what stands there, as far as it holds nodes. -/
inductive Value.Shows : Value → Json → Prop
  /-- An empty value. -/
  | null : Shows (.data .null) .null
  /-- A truth value. -/
  | bool (b : Bool) : Shows (.bool b) (.bool b)
  /-- Entries with the same type texts. -/
  | list {vs : List Value} {js : List Json} :
      vs.map typeText = js.map Json.typeText → Shows (.list vs) (.arr js)
  /-- A schema with the type text of the object. -/
  | schema {s : Schema} {members : List (String × Json)} : s.isAny = !Document.constrains members →
      Value.typeText (.schema s) = Json.typeText (.obj members) →
      Shows (.schema s) (.obj members)

/-- The schema has what the object gives. -/
structure Schema.Shows (s : Schema) (members : List (String × Json)) : Prop where
  /-- No keyword is declared twice. -/
  nodup : (s.declared.map Prod.fst).Nodup
  /-- The keywords carried are those given. -/
  carries : ∀ k, s.carries k = Document.gives members k
  /-- The keywords that hold data have what is given. -/
  data : ∀ k ∈ [Keyword.type, .const, .enum], s.value? k = (Document.given? members k).map .data
  /-- The keywords that hold nodes show what is given. -/
  nodes : ∀ k ∈ [Keyword.negation, .items, .additionalItems],
    Option.Rel Value.Shows (s.value? k) (Document.given? members k)

/-! ## Texts -/

theorem Value.text_element (v : Value) :
    v.signature.element.text = Document.elementText v.typeText :=
  v.signature.text_element

theorem Signature.text_tupleMember (ss : List Signature) (tail : Option Signature) :
    (tupleMember ss tail).text = Document.tupleText (ss.map text) (tailTexts tail) := by
  cases ss with
  | nil => rfl
  | cons s ss =>
    have helements : (s :: ss).map (fun s => s.element.text) =
        ((s :: ss).map text).map Document.elementText := by
      rw [List.map_map]
      exact List.map_congr_left fun s _ => s.text_element
    rw [List.map_cons] at helements
    rw [tupleMember, List.map_cons, Member.text, texts_eq_map, List.map_map, Document.tupleText,
      if_neg (by simp), ← helements]
    rfl

theorem Json.name_kind (j : Json) : j.kind.name = Document.valueName j := by
  cases j <;> rfl

theorem Schema.constantName_eq (j : Json) : constantName j = Document.constantName j := by
  cases j <;> rfl

namespace Schema.Shows

variable {s : Schema} {members : List (String × Json)}

theorem isAny_eq (h : s.Shows members) : s.isAny = !Document.constrains members := by
  have hcarries : s.carries = Document.gives members := funext h.carries
  rw [Schema.isAny, Document.constrains, hcarries]

theorem combinator?_eq (h : s.Shows members) :
    s.combinator? = Combinator.all.find? fun c => Document.gives members c.keyword := by
  have hcarries : s.carries = Document.gives members := funext h.carries
  rw [Schema.combinator?, hcarries]

theorem declaredTypes?_eq (h : s.Shows members) :
    s.declaredTypes? = (Document.given? members .type).bind Document.typeNames? := by
  rw [Schema.declaredTypes?, Schema.typeNames?, h.data .type (by simp)]
  cases Document.given? members .type with
  | none => rfl
  | some j => exact (Document.typeNames?_eq j).symm

theorem negation_eq (h : s.Shows members) :
    (s.value? .negation).any Value.isAny =
      (Document.given? members .negation).any Document.isAny := by
  rcases eq_none_or_exists_of_rel (h.nodes .negation (by simp)) with ⟨hs, hj⟩ | ⟨v, j, hs, hj, hvj⟩
  · rw [hs, hj]
    rfl
  · rw [hs, hj, Option.any_some, Option.any_some]
    cases hvj with
    | schema hany _ => exact hany
    | _ => rfl

/-- The tail of a tuple. -/
theorem tailTexts_eq (h : s.Shows members) :
    Signature.tailTexts (s.tail? (outlines s.declared)) =
      Document.tailTexts members (Json.memberTexts members) := by
  rw [tail?, lookup_outlines h.nodup, Document.tailTexts]
  rcases eq_none_or_exists_of_rel (h.nodes .additionalItems (by simp)) with
    ⟨hs, hj⟩ | ⟨v, j, hs, hj, hvj⟩
  · rw [hs, hj]
    rfl
  · rw [hs, hj, Document.innerTexts_eq hj]
    cases hvj with
    | @schema t inner hany htext =>
      show ["...optional<" ++ (Value.schema t).signature.element.text ++ ">"] =
        ["...optional<" ++ Document.elementText (Json.typeText (.obj inner)) ++ ">"]
      rw [Value.text_element, htext]
    | bool b => cases b <;> rfl
    | _ => rfl

/-- The type name `array`. -/
theorem text_arrayMember (h : s.Shows members) :
    (s.arrayMember (outlines s.declared)).text =
      Document.arrayText members (Json.memberTexts members) := by
  have htail := h.tailTexts_eq
  rw [arrayMember, lookup_outlines h.nodup, Document.arrayText]
  rcases eq_none_or_exists_of_rel (h.nodes .items (by simp)) with ⟨hs, hj⟩ | ⟨v, j, hs, hj, hvj⟩
  · rw [hs, hj]
    rfl
  · rw [hs, hj, Document.innerTexts_eq hj]
    cases hvj with
    | null => rfl
    | bool b => cases b <;> rfl
    | @list vs js htexts =>
      show (Signature.tupleMember (vs.map Value.signature) _).text =
        Document.tupleText (js.map Json.typeText) _
      rw [Signature.text_tupleMember, htail, List.map_map, ← htexts]
      rfl
    | @schema t inner hany htext =>
      show "array<" ++ (Value.schema t).signature.element.text ++ ">" =
        "array<" ++ Document.elementText (Json.typeText (.obj inner)) ++ ">"
      rw [Value.text_element, htext]

/-- The union without its combinator. -/
theorem intercalate_unionMembers (h : s.Shows members) :
    " | ".intercalate (Member.texts (s.unionMembers (s.arrayMember (outlines s.declared)))) =
      Document.baseText members (Json.memberTexts members) := by
  rw [Member.texts_eq_map, unionMembers, h.declaredTypes?_eq, Document.baseText,
    ← h.text_arrayMember]
  cases (Document.given? members .type).bind Document.typeNames? with
  | some names =>
    have hmember : ∀ name, Member.text (if name = Json.Kind.array.name then
        s.arrayMember (outlines s.declared) else .named name) =
          if name = "array" then (s.arrayMember (outlines s.declared)).text else name := by
      intro name
      by_cases harray : name = "array"
      · rw [if_pos (show name = Json.Kind.array.name from harray), if_pos harray]
      · rw [if_neg (show name ≠ Json.Kind.array.name from harray), if_neg harray, Member.text]
    dsimp only
    rw [List.map_map]
    exact congrArg _ (List.map_congr_left fun name _ => hmember name)
  | none =>
    dsimp only
    rw [h.data .const (by simp), Schema.enumItems, h.data .enum (by simp)]
    cases Document.given? members .const with
    | some j =>
      show " | ".intercalate [Schema.constantName j] = Document.constantName j
      rw [Schema.constantName_eq]
      simp
    | none =>
      dsimp only [Option.map_none]
      rw [List.map_map]
      cases Document.given? members .enum with
      | none => rfl
      | some j =>
        cases j with
        | arr items =>
          show " | ".intercalate ((kindNames items).map id) = _
          simp only [List.map_id, kindNames, Json.name_kind]
        | _ => rfl

/-- **The type text of a schema is that of the object it shows.** -/
theorem typeText_eq (h : s.Shows members) :
    Value.typeText (.schema s) = Json.typeText (.obj members) := by
  rw [Value.typeText, Value.signature, signature_eq, signatureFrom, Json.typeText, Document.text,
    ← h.isAny_eq, h.negation_eq, ← h.combinator?_eq]
  split
  next => rfl
  next =>
    split
    next => rfl
    next =>
      rw [Signature.text, h.intercalate_unionMembers]
      cases s.combinator? <;> rfl

end Schema.Shows

end SchemaProse
