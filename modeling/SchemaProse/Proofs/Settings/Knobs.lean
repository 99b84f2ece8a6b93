import SchemaProse.Proofs.Json.Members
import SchemaProse.Proofs.Text.Trimmed
import SchemaProse.Schema.Scalar
import SchemaProse.Settings.Layer
/-!
# Settings — knobs

The settings have three knobs. Each has a key in configurations and a variable
in the environment, and `Knob.Gives` says, without reading anything, which
values a configuration value stands for: a literal is given as a text, and the
beginnings to hide are the stripped pieces of a text, or the stripped texts of a
list, without those that are blank. Laying a configuration over settings turns
each knob by the value under its own key alone (`get_layer`), and the
environment is a configuration of the variables that count
(`member?_environmentConfig`).
-/

namespace SchemaProse

namespace Settings

/-! ## Beginnings to hide -/

/-- The second text is the first without the blanks around it. -/
def Strips (text stripped : String) : Prop :=
  Text.Core Text.isBlank text.toList stripped.toList

/-- The texts are the pieces of a text between its commas. -/
structure Splits (text : String) (parts : List String) : Prop where
  ne_nil : parts ≠ []
  no_comma : ∀ part ∈ parts, ',' ∉ part.toList
  joined : ",".intercalate parts = text

/-- The second list has the texts of the first, stripped, and without those of
which nothing is left. -/
inductive Cleans : List String → List String → Prop
  | nil : Cleans [] []
  /-- Something is left of the text. -/
  | keep {text stripped : String} {texts kept : List String} : Strips text stripped →
      stripped ≠ "" → Cleans texts kept → Cleans (text :: texts) (stripped :: kept)
  /-- Nothing is left of the text. -/
  | drop {text : String} {texts kept : List String} : Strips text "" → Cleans texts kept →
      Cleans (text :: texts) kept

theorem trimmed_eq_iff {text stripped : String} :
    trimmed text = stripped ↔ Strips text stripped := by
  rw [Strips, ← Text.trim_eq_iff, trimmed]
  constructor
  · rintro rfl
    rw [String.toList_ofList]
  · intro h
    rw [h, String.ofList_toList]

theorem pieces_eq_iff {text : String} {parts : List String} :
    pieces text = parts ↔ Splits text parts := by
  refine map_ofList_splitOn_eq_iff.trans ⟨fun ⟨hne, hcomma, hjoined⟩ => ?_, fun h => ?_⟩
  · exact ⟨hne, hcomma, hjoined⟩
  · exact ⟨h.ne_nil, h.no_comma, h.joined⟩

theorem cleaned_eq_iff {texts kept : List String} : cleaned texts = kept ↔ Cleans texts kept := by
  constructor
  · rintro rfl
    induction texts with
    | nil => exact .nil
    | cons text texts ih =>
      have hstrips : Strips text (trimmed text) := trimmed_eq_iff.1 rfl
      by_cases hblank : trimmed text = ""
      · have hcleaned : cleaned (text :: texts) = cleaned texts := by
          simp [cleaned, hblank]
        rw [hcleaned]
        exact .drop (hblank ▸ hstrips) ih
      · have hcleaned : cleaned (text :: texts) = trimmed text :: cleaned texts := by
          simp [cleaned, hblank]
        rw [hcleaned]
        exact .keep hstrips hblank ih
  · intro h
    induction h with
    | nil => rfl
    | keep hstrips hne _ ih =>
      rw [cleaned, List.map_cons, trimmed_eq_iff.2 hstrips,
        List.filter_cons_of_pos (by simpa using hne), ← cleaned, ih]
    | drop hstrips _ ih =>
      rw [cleaned, List.map_cons, trimmed_eq_iff.2 hstrips, List.filter_cons_of_neg (by simp),
        ← cleaned, ih]

/-! ## Knobs -/

/-- The knobs of the settings. -/
inductive Knob where
  | nullLiteral | undefinedLiteral | extraHidden
deriving DecidableEq

namespace Knob

/-- What a knob is turned to. -/
abbrev Choice : Knob → Type
  | nullLiteral => String
  | undefinedLiteral => String
  | extraHidden => List String

/-- The choice that settings make. -/
def get (settings : Settings) : (knob : Knob) → knob.Choice
  | nullLiteral => settings.nullLiteral
  | undefinedLiteral => settings.undefinedLiteral
  | extraHidden => settings.extraHidden

/-- The choice when nothing is said. -/
def initial : (knob : Knob) → knob.Choice
  | nullLiteral => "NULL"
  | undefinedLiteral => ""
  | extraHidden => []

/-- The key in configurations. -/
def key : Knob → String
  | nullLiteral => "null_literal"
  | undefinedLiteral => "undefined_literal"
  | extraHidden => "extra_hidden_prefixes"

/-- All knobs. -/
def all : List Knob :=
  [nullLiteral, undefinedLiteral, extraHidden]

/-- No two knobs share a key. -/
theorem nodup_key_all : (all.map key).Nodup := by decide

/-- The variable in the environment. -/
def variableName : Knob → String
  | nullLiteral => "SCHEMADOC_NULL_LITERAL"
  | undefinedLiteral => "SCHEMADOC_UNDEFINED_LITERAL"
  | extraHidden => "SCHEMADOC_EXTRA_HIDDEN_PREFIXES"

/-- The text of the knob's variable counts. An empty text counts for the
literal of missing examples only. -/
inductive Heeds : Knob → String → Prop
  | nullLiteral {text : String} : text ≠ "" → Heeds .nullLiteral text
  | undefinedLiteral {text : String} : Heeds .undefinedLiteral text
  | extraHidden {text : String} : text ≠ "" → Heeds .extraHidden text

/-- A configuration value gives the knob a choice. -/
inductive Gives : (knob : Knob) → Json → knob.Choice → Prop
  | nullLiteral {text : String} : Gives .nullLiteral (.str text) text
  | undefinedLiteral {text : String} : Gives .undefinedLiteral (.str text) text
  /-- The beginnings are given in one text. -/
  | pieces {text : String} {parts kept : List String} : Splits text parts → Cleans parts kept →
      Gives .extraHidden (.str text) kept
  /-- The beginnings are given in a list, of which only the texts are looked
  at. -/
  | items {items : List Json} {texts kept : List String} :
      items.filter Json.isText = texts.map .str → Cleans texts kept →
      Gives .extraHidden (.arr items) kept

/-- The choice that is read from a configuration value. -/
def given? : (knob : Knob) → Json → Option knob.Choice
  | nullLiteral => Json.str?
  | undefinedLiteral => Json.str?
  | extraHidden => beginnings?

/-- The text of the knob's variable, if it is set and counts. -/
def counted : Knob → Option String → Option String
  | nullLiteral => Option.filter (· != "")
  | undefinedLiteral => id
  | extraHidden => Option.filter (· != "")

variable {knob : Knob} {a : knob.Choice} {j : Json} {text : String}

/-- The texts of a list are those that are looked at. -/
theorem filter_isText_eq_iff {items : List Json} {texts : List String} :
    items.filter Json.isText = texts.map .str ↔ items.filterMap Json.str? = texts := by
  have hfilter : items.filter Json.isText = (items.filterMap Json.str?).map .str := by
    induction items with
    | nil => rfl
    | cons i items ih =>
      cases i with
      | str text => exact congrArg (Json.str text :: ·) ih
      | _ => exact ih
  have hinjective : Function.Injective Json.str := fun _ _ => Json.str.inj
  rw [hfilter, hinjective.list_map.eq_iff]

/-- **A value gives a knob what is read from it**, and nothing else. -/
theorem gives_iff : knob.Gives j a ↔ knob.given? j = some a := by
  constructor
  · intro h
    cases h with
    | nullLiteral => rfl
    | undefinedLiteral => rfl
    | pieces hsplits hcleans =>
      rw [given?, beginnings?, pieces_eq_iff.2 hsplits, cleaned_eq_iff.2 hcleans]
    | items htexts hcleans =>
      rw [given?, beginnings?, filter_isText_eq_iff.1 htexts, cleaned_eq_iff.2 hcleans]
  · intro h
    cases knob with
    | nullLiteral =>
      cases j with
      | str text => exact Option.some.inj h ▸ .nullLiteral
      | _ => cases h
    | undefinedLiteral =>
      cases j with
      | str text => exact Option.some.inj h ▸ .undefinedLiteral
      | _ => cases h
    | extraHidden =>
      cases j with
      | str text => exact .pieces (pieces_eq_iff.1 rfl) (cleaned_eq_iff.1 (Option.some.inj h))
      | arr items =>
        exact .items (filter_isText_eq_iff.2 rfl) (cleaned_eq_iff.1 (Option.some.inj h))
      | _ => cases h

/-- Every text gives a knob a value. -/
theorem exists_gives_text (knob : Knob) (text : String) : ∃ a, knob.Gives (.str text) a := by
  cases knob with
  | nullLiteral => exact ⟨_, .nullLiteral⟩
  | undefinedLiteral => exact ⟨_, .undefinedLiteral⟩
  | extraHidden => exact ⟨_, gives_iff.2 rfl⟩

/-- The text that counts is the variable's, when the knob heeds it. -/
theorem counted_eq_some_iff {value : Option String} :
    knob.counted value = some text ↔ value = some text ∧ knob.Heeds text := by
  cases knob with
  | nullLiteral =>
    rw [counted, Option.filter_eq_some_iff, bne_iff_ne]
    refine and_congr_right fun _ => ⟨.nullLiteral, fun h => ?_⟩
    cases h with
    | nullLiteral hne => exact hne
  | undefinedLiteral => exact (and_iff_left .undefinedLiteral).symm
  | extraHidden =>
    rw [counted, Option.filter_eq_some_iff, bne_iff_ne]
    refine and_congr_right fun _ => ⟨.extraHidden, fun h => ?_⟩
    cases h with
    | extraHidden hne => exact hne

/-- **A layer turns each knob by the value under its own key**, or leaves it as
it was. -/
theorem get_layer (base : Settings) (config : Json) (knob : Knob) :
    knob.get (base.layer config) =
      ((config.member? knob.key).bind knob.given?).getD (knob.get base) := by
  cases knob <;> rfl

/-- **The environment says what the variables that count say**, each under the
key of its knob. -/
theorem member?_environmentConfig (env : Environment) (knob : Knob) :
    (environmentConfig variableStart env).member? knob.key =
      (knob.counted (env.lookup knob.variableName)).map .str := by
  have hentries : environmentConfig variableStart env =
      .obj ((all.map fun knob => (knob.key, knob.counted (env.lookup knob.variableName))).filterMap
        fun m => (m.2.map Json.str).map (m.1, ·)) := by
    rw [List.filterMap_map]
    simp only [environmentConfig, all, List.filterMap_cons, Function.comp_apply, Option.map_map]
    rfl
  have hkeys : ((all.map fun knob =>
      (knob.key, knob.counted (env.lookup knob.variableName))).map Prod.fst).Nodup := by
    rw [List.map_map]
    exact nodup_key_all
  rw [hentries, Json.member?, Json.obj?, Option.bind_some, lookup_filterMap_value _ hkeys]
  cases knob <;> rfl

end Knob

end Settings

end SchemaProse
