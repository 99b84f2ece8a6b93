import SchemaProse.Proofs.Settings.Knobs
import SchemaProse.Proofs.Settings.Search
/-!
# Settings — precedence

Settings are loaded from the configuration that is selected among the files
(`Selects`) and from the environment. Each knob is *decided* on its own: by its
variable when that counts, or else by the value under its key in the
configuration when that gives a choice, or else as it is initially. Loading turns
every knob as it is decided (`decided_iff_of_load`), so what one knob is turned
to depends on its own variable and its own key only.
-/

namespace SchemaProse

namespace Settings

/-- What decides a knob: the text of its variable, and the value under its key
in the configuration. -/
inductive Knob.Decided (knob : Knob) (value : Option String) (entry : Option Json) :
    knob.Choice → Prop
  /-- The variable counts. -/
  | environment {text : String} {a : knob.Choice} : value = some text → knob.Heeds text →
      knob.Gives (.str text) a → Knob.Decided knob value entry a
  /-- The variable does not count, and the table gives a choice. -/
  | table {j : Json} {a : knob.Choice} : (∀ text, value = some text → ¬ knob.Heeds text) →
      entry = some j → knob.Gives j a → Knob.Decided knob value entry a
  /-- Neither says anything. -/
  | initial : (∀ text, value = some text → ¬ knob.Heeds text) →
      (∀ j, entry = some j → ∀ a, ¬ knob.Gives j a) → Knob.Decided knob value entry knob.initial

variable {documents : FilePath → Document} {env : Environment} {path : Option String}
variable {s : Settings} {table : Json}

/-- **A knob is decided in one way**, which is to look at the variable first,
then at the table, and at the initial choice last. -/
theorem Knob.decided_iff {knob : Knob} {value : Option String} {entry : Option Json}
    {a : knob.Choice} :
    knob.Decided value entry a ↔
      a = (((knob.counted value).map .str).bind knob.given?).getD
        ((entry.bind knob.given?).getD knob.initial) := by
  cases hcounted : knob.counted value with
  | some text =>
    obtain ⟨hvalue, hheeds⟩ := counted_eq_some_iff.1 hcounted
    obtain ⟨b, hb⟩ := exists_gives_text knob text
    rw [Option.map_some, Option.bind_some, gives_iff.1 hb, Option.getD_some]
    constructor
    · rintro (⟨hvalue', -, hgives⟩ | ⟨hnot, -, -⟩ | ⟨hnot, -⟩)
      · obtain rfl := Option.some.inj (hvalue.symm.trans hvalue')
        exact Option.some.inj ((gives_iff.1 hgives).symm.trans (gives_iff.1 hb))
      · exact absurd hheeds (hnot text hvalue)
      · exact absurd hheeds (hnot text hvalue)
    · rintro rfl
      exact .environment hvalue hheeds hb
  | none =>
    have hnot : ∀ text, value = some text → ¬ knob.Heeds text := by
      intro text hvalue hheeds
      cases hcounted.symm.trans (counted_eq_some_iff.2 ⟨hvalue, hheeds⟩)
    rw [Option.map_none, Option.bind_none, Option.getD_none]
    cases hgiven : entry.bind knob.given? with
    | some b =>
      obtain ⟨j, rfl, hj⟩ := Option.bind_eq_some_iff.1 hgiven
      rw [Option.getD_some]
      constructor
      · rintro (⟨hvalue, hheeds, -⟩ | ⟨-, hentry, hgives⟩ | ⟨-, hnone⟩)
        · exact absurd hheeds (hnot _ hvalue)
        · obtain rfl := Option.some.inj hentry
          exact Option.some.inj ((gives_iff.1 hgives).symm.trans hj)
        · exact absurd (gives_iff.2 hj) (hnone j rfl b)
      · rintro rfl
        exact .table hnot rfl (gives_iff.2 hj)
    | none =>
      have hnone : ∀ j, entry = some j → ∀ a, ¬ knob.Gives j a := by
        rintro j rfl a hgives
        cases hgiven.symm.trans (gives_iff.1 hgives)
      rw [Option.getD_none]
      constructor
      · rintro (⟨hvalue, hheeds, -⟩ | ⟨-, hentry, hgives⟩ | ⟨-, -⟩)
        · exact absurd hheeds (hnot _ hvalue)
        · exact absurd hgives (hnone _ hentry _)
        · rfl
      · rintro rfl
        exact .initial hnot hnone

/-- Loading turns each knob as it is decided. -/
theorem decided_iff_of_load (h : load documents env path = .ok s)
    (htable : Selects documents path table) (knob : Knob) (a : knob.Choice) :
    knob.Decided (env.lookup knob.variableName) (table.member? knob.key) a ↔ a = knob.get s := by
  have hfiles : fromFiles documents path = .ok (layer {} table) :=
    fromFiles_eq_ok_iff.2 ⟨table, htable, rfl⟩
  have hs : s = (layer {} table).withEnvironment variableStart env := by
    rw [load, hfiles] at h
    exact (Except.ok.inj h).symm
  have hinitial : knob.get {} = knob.initial := by cases knob <;> rfl
  rw [hs, withEnvironment, Knob.get_layer, Knob.get_layer, Knob.member?_environmentConfig, hinitial,
    Knob.decided_iff]

/-- **Settings are loaded knob by knob.** A table is selected, and each knob is
turned as its own variable and its own key in the table decide. So a knob is
the same in any two sets of settings that are loaded with the same variable
and the same value under the key, whatever else the files and the environment
hold. -/
theorem load_decides_each_knob (h : load documents env path = .ok s) :
    (∃ table, Selects documents path table) ∧
      ∀ table, Selects documents path table →
        (∀ (knob : Knob) (a : knob.Choice),
          knob.Decided (env.lookup knob.variableName) (table.member? knob.key) a ↔
            a = knob.get s) ∧
        ∀ documents' env' path' s' table', load documents' env' path' = .ok s' →
          Selects documents' path' table' → ∀ knob : Knob,
            env'.lookup knob.variableName = env.lookup knob.variableName →
            table'.member? knob.key = table.member? knob.key → knob.get s' = knob.get s := by
  constructor
  · rw [load] at h
    cases hfiles : fromFiles documents path with
    | ok files =>
      obtain ⟨table, htable, -⟩ := fromFiles_eq_ok_iff.1 hfiles
      exact ⟨table, htable⟩
    | error e =>
      rw [hfiles] at h
      cases h
  · intro table htable
    refine ⟨decided_iff_of_load h htable, ?_⟩
    intro documents' env' path' s' table' h' htable' knob hvalue hentry
    have hdecided := (decided_iff_of_load h' htable' knob (knob.get s')).2 rfl
    rw [hvalue, hentry] at hdecided
    exact (decided_iff_of_load h htable knob (knob.get s')).1 hdecided

/-- A table with a literal, an ill-typed literal, a list that is not all texts
and an unknown key. -/
def mixedTable : List (String × Json) :=
  [("null_literal", .str "nil"), ("undefined_literal", .num (.int 5)),
    ("extra_hidden_prefixes", .arr [.str " x-a ", .bool true, .str "\t"]), ("unknown", .null)]

/-- A project file whose section for this tool is the table, and no other
file. -/
def mixedDocuments (path : FilePath) : Document :=
  if path = .ofText "pyproject.toml" then
    .table [("tool", .obj [("schemadoc", .obj mixedTable)])]
  else .absent

/-- An empty literal, which does not count, and beginnings to hide of which
none is left. -/
def mixedEnvironment : Environment :=
  [("SCHEMADOC_NULL_LITERAL", ""), ("SCHEMADOC_EXTRA_HIDDEN_PREFIXES", " , ")]

theorem load_mixedDocuments :
    load mixedDocuments mixedEnvironment (some "pyproject.toml/") = .ok ⟨"nil", "", []⟩ ∧
      Knob.nullLiteral.Decided (some "") (some (.str "nil")) "nil" ∧
      Knob.undefinedLiteral.Decided none (some (.num (.int 5))) "" ∧
      Knob.extraHidden.Decided (some " , ")
        (some (.arr [.str " x-a ", .bool true, .str "\t"])) [] := by
  have hload : load mixedDocuments mixedEnvironment (some "pyproject.toml/") =
      .ok ⟨"nil", "", []⟩ := by
    decide +kernel
  have hselects : Selects mixedDocuments (some "pyproject.toml/") (.obj mixedTable) :=
    .offered (if_pos (by decide +kernel)) (.tool (.slash .alone) rfl rfl)
  have hdecided := ((load_decides_each_knob hload).2 _ hselects).1
  exact ⟨hload, (hdecided .nullLiteral _).2 rfl, (hdecided .undefinedLiteral _).2 rfl,
    (hdecided .extraHidden _).2 rfl⟩

end Settings

end SchemaProse
