import Mathlib.Logic.Relation
import SchemaProse.Proofs.Schema.Agreement
import SchemaProse.Proofs.Schema.Spelling
import SchemaProse.Proofs.Text.FirstSeen
/-!
# Signature — unions in normal form

The names of a union are kept in a normal form: the names given, each once, in the
order in which they are first seen, without `integer` where `number` is given
(`UnionOf`). The same union has many spellings under `type`, and any two of them
are joined by single steps, each of which adds a name that makes no difference,
takes the normal form or drops the brackets around one name (`Respells`). The
steps change neither the types that a schema may describe nor its type text,
whatever its other keywords are (`union_is_normal`).
-/

namespace SchemaProse

/-! ## The normal form of a union -/

/-- The union has the names that are given, but for `integer` beside `number`,
each once and in the order in which they are first seen. -/
def UnionOf (names union : List String) : Prop :=
  InFirstOrder (fun name => ¬ (name = "integer" ∧ "number" ∈ names)) names union

theorem unionNames_eq_filter (names : List String) :
    unionNames names =
      names.eraseDups.filter fun name => !decide (name = "integer" ∧ "number" ∈ names) := by
  unfold unionNames
  dsimp only
  by_cases hnumber : "number" ∈ names
  · rw [if_pos (List.mem_eraseDups.2 hnumber)]
    refine List.filter_congr fun name _ => ?_
    simp [hnumber, bne, beq_eq_decide]
  · rw [if_neg (mt List.mem_eraseDups.1 hnumber), eq_comm, List.filter_eq_self]
    simp [hnumber]

theorem unionOf_unionNames (names : List String) : UnionOf names (unionNames names) := by
  have h := InFirstOrder.filter_eraseDups
    (fun name => !decide (name = "integer" ∧ "number" ∈ names)) names
  rw [← unionNames_eq_filter] at h
  simpa only [UnionOf, Bool.not_eq_true', decide_eq_false_iff_not] using h

theorem unionOf_iff {names union : List String} : UnionOf names union ↔ union = unionNames names :=
  ⟨fun h => h.unique (unionOf_unionNames names), fun h => h ▸ unionOf_unionNames names⟩

/-- The normal form is in normal form. -/
theorem unionNames_idem (names : List String) :
    unionNames (unionNames names) = unionNames names := by
  have hunion := unionOf_unionNames names
  rw [unionNames_eq_filter (unionNames names), eraseDups_of_nodup hunion.nodup,
    List.filter_eq_self]
  intro name hname
  obtain ⟨-, hkept⟩ := (hunion.mem_iff name).1 hname
  rw [Bool.not_eq_true', decide_eq_false_iff_not]
  rintro ⟨rfl, hnumber⟩
  exact hkept ⟨rfl, ((hunion.mem_iff _).1 hnumber).1⟩

/-- A name that was seen before makes no difference. -/
theorem unionNames_append_cons {before after : List String} {name : String} (h : name ∈ before) :
    unionNames (before ++ name :: after) = unionNames (before ++ after) := by
  rw [unionNames, unionNames, eraseDups_append_cons h]

/-- Nor does `integer` where `number` is given. -/
theorem unionNames_append_integer {before after : List String} (h : "number" ∈ before ++ after) :
    unionNames (before ++ "integer" :: after) = unionNames (before ++ after) := by
  have hdropped : ∀ names : List String, "number" ∈ names →
      unionNames names = (names.filter (· != "integer")).eraseDups := by
    intro names hnumber
    rw [unionNames, eraseDups_filter]
    exact if_pos (List.mem_eraseDups.2 hnumber)
  have hnumber : "number" ∈ before ++ "integer" :: after := by
    rw [List.mem_append, List.mem_cons]
    exact (List.mem_append.1 h).imp_right .inr
  rw [hdropped _ hnumber, hdropped _ h, List.filter_append, List.filter_append,
    List.filter_cons_of_neg (by decide)]

/-! ## Spellings of a union -/

/-- What stands under `type`. -/
inductive TypeSpelling where
  /-- One name. -/
  | name (name : String)
  /-- A list of names. -/
  | list (names : List String)

namespace TypeSpelling

/-- The names given. -/
def names : TypeSpelling → List String
  | name n => [n]
  | list ns => ns

/-- The value of the keyword. -/
def value : TypeSpelling → Value
  | name n => .data (.str n)
  | list ns => .data (.arr (ns.map .str))

theorem texts?_value (a : TypeSpelling) : a.value.texts? = some a.names := by
  cases a with
  | name n => rfl
  | list ns =>
    rw [value, Value.texts?, List.filterMap_map]
    exact congrArg some List.filterMap_some

/-- One step from a spelling to another one of the same union. -/
inductive Respells : TypeSpelling → TypeSpelling → Prop
  /-- A name is given once more, behind its first place. -/
  | again {before after : List String} {name : String} : name ∈ before →
      Respells (.list (before ++ after)) (.list (before ++ name :: after))
  /-- `integer` is given beside `number`. -/
  | integer {before after : List String} : "number" ∈ before ++ after →
      Respells (.list (before ++ after)) (.list (before ++ "integer" :: after))
  /-- The normal form is taken. -/
  | normal {names union : List String} : UnionOf names union →
      Respells (.list names) (.list union)
  /-- The one name of a list stands alone. -/
  | single (name : String) : Respells (.list [name]) (.name name)

variable {a b : TypeSpelling}

theorem Respells.unionNames_eq (h : Respells a b) : unionNames b.names = unionNames a.names := by
  cases h with
  | again hname => exact unionNames_append_cons hname
  | integer hnumber => exact unionNames_append_integer hnumber
  | normal hunion =>
    obtain rfl := unionOf_iff.1 hunion
    exact unionNames_idem _
  | single name => rfl

/-- A spelling has the same union as the list of its normal form. -/
theorem eqvGen_list_unionNames (a : TypeSpelling) :
    Relation.EqvGen Respells a (.list (unionNames a.names)) := by
  have hlist (names : List String) :
      Relation.EqvGen Respells (.list names) (.list (unionNames names)) :=
    .rel _ _ (.normal (unionOf_unionNames names))
  cases a with
  | name n => exact .trans _ _ _ (.symm _ _ (.rel _ _ (.single n))) (hlist [n])
  | list ns => exact hlist ns

/-- **Two spellings are of the same union exactly when steps lead from one to the
other**, forwards and back. -/
theorem eqvGen_respells_iff :
    Relation.EqvGen Respells a b ↔ unionNames b.names = unionNames a.names := by
  constructor
  · intro h
    induction h with
    | rel _ _ hstep => exact hstep.unionNames_eq
    | refl => rfl
    | symm _ _ _ ih => exact ih.symm
    | trans _ _ _ _ _ ih ih' => exact ih'.trans ih
  · intro h
    have hb := eqvGen_list_unionNames b
    rw [h] at hb
    exact .trans _ _ _ (eqvGen_list_unionNames a) (.symm _ _ hb)

end TypeSpelling

/-! ## Schemas with a union -/

namespace Schema

variable {s : Schema} {a b : TypeSpelling}

theorem declaredTypes?_of_spelling (h : s.value? .type = some a.value) :
    s.declaredTypes? = some (unionNames a.names) := by
  rw [declaredTypes?, typeNames?, h, Option.bind_some, a.texts?_value, Option.map_some]

theorem possibleTypes_of_spelling (h : s.value? .type = some a.value) :
    s.possibleTypes = unionNames a.names := by
  rw [possibleTypes, declaredTypes?_of_spelling h]

/-- The signature depends on the union under `type`, not on its spelling. -/
theorem signature_set_type (hs : (s.declared.map Prod.fst).Nodup)
    (ha : s.value? .type = some a.value) (h : unionNames b.names = unionNames a.names) :
    (s.set .type b.value).signature = s.signature := by
  have hvalue (k : Keyword) (hk : k ≠ .type) : (s.set .type b.value).value? k = s.value? k := by
    rw [value?_set, if_neg hk]
  have htype : (s.set .type b.value).value? .type = some b.value := by rw [value?_set, if_pos rfl]
  have hset : ((s.set .type b.value).declared.map Prod.fst).Nodup :=
    (map_fst_filterMap_sublist (fun _ _ => fst_of_setField_eq_some) _).nodup Keyword.nodup_all
  refine signature_congr (fun k _ => ?_) ?_ (fun k hk => ?_) ?_ fun array => ?_
  · by_cases hk : k = .type
    · rw [hk, carries, carries, htype, ha]
      rfl
    · rw [carries, carries, hvalue k hk]
  · rw [hvalue .negation (by decide)]
  · have hne : ∀ k ∈ [Keyword.items, .additionalItems], k ≠ .type := by decide
    rw [lookup_outlines hset, lookup_outlines hs, hvalue k (hne k hk)]
  · rw [hvalue .additionalItems (by decide)]
  · rw [unionMembers, unionMembers, declaredTypes?_of_spelling htype,
      declaredTypes?_of_spelling ha, h]

/-- No type is named twice. -/
theorem nodup_possibleTypes (s : Schema) : s.possibleTypes.Nodup := by
  unfold possibleTypes
  cases hdeclared : s.declaredTypes? with
  | some names =>
    obtain ⟨given, -, rfl⟩ := Option.map_eq_some_iff.1 hdeclared
    exact (unionOf_unionNames given).nodup
  | none =>
    dsimp only
    split
    · exact List.nodup_singleton _
    · split
      · exact (InFirstOrder.eraseDups _).nodup
      · exact (InFirstOrder.eraseDups _).nodup

/-- The types of a schema are a union in normal form, and its spelling is not
seen from outside. -/
structure UnionIsNormal (s : Schema) : Prop where
  /-- No type is named twice. -/
  nodup : s.possibleTypes.Nodup
  /-- The union under `type` has the names given there, each once, in the order in
  which they are first seen and without `integer` beside `number`. -/
  declared : ∀ a : TypeSpelling, s.value? .type = some a.value → UnionOf a.names s.possibleTypes
  /-- Another spelling gives the same types exactly when steps lead to it. -/
  respelt : ∀ a b : TypeSpelling, s.value? .type = some a.value →
    ((s.set .type b.value).possibleTypes = s.possibleTypes ↔
      Relation.EqvGen TypeSpelling.Respells a b)
  /-- And then it is shown by the same text. -/
  shown : (s.declared.map Prod.fst).Nodup → ∀ a b : TypeSpelling,
    s.value? .type = some a.value → Relation.EqvGen TypeSpelling.Respells a b →
      (Value.schema (s.set .type b.value)).typeText = (Value.schema s).typeText
  /-- Without a type and a constant, the union is that of the types of the allowed
  values, each once and in the order in which they are first seen. -/
  allowed : s.typeNames? = none → s.carries .const = false →
    ∃ names, InFirstOrder (fun _ => True) (s.enumItems.map fun j => j.kind.name) names ∧
      (∀ array, s.unionMembers array = names.map .named) ∧
      (s.enumItems ≠ [] → s.possibleTypes = names)

/-- **Unions are kept in normal form.** -/
theorem union_is_normal (s : Schema) : s.UnionIsNormal where
  nodup := s.nodup_possibleTypes
  declared a ha := by
    rw [possibleTypes_of_spelling ha]
    exact unionOf_unionNames a.names
  respelt a b ha := by
    have hb : (s.set .type b.value).value? .type = some b.value := by rw [value?_set, if_pos rfl]
    rw [possibleTypes_of_spelling ha, possibleTypes_of_spelling hb]
    exact TypeSpelling.eqvGen_respells_iff.symm
  shown hs a b ha hsteps := by
    rw [Value.typeText, Value.typeText, Value.signature, Value.signature,
      signature_set_type hs ha (TypeSpelling.eqvGen_respells_iff.1 hsteps)]
  allowed htype hconst := by
    have hdeclared : s.declaredTypes? = none := by rw [declaredTypes?, htype, Option.map_none]
    have habsent : s.value? .const = none := by simpa [carries] using hconst
    refine ⟨kindNames s.enumItems, .eraseDups _, fun array => ?_, fun hitems => ?_⟩
    · rw [unionMembers, hdeclared, habsent]
    · rw [possibleTypes, hdeclared, habsent]
      dsimp only
      rw [if_neg (by simpa using hitems)]

/-- A list of names with an array among them, and other keywords beside it. -/
def mixed : Schema where
  declared := [(.type, .data (.arr [.str "array", .str "integer", .str "number"])),
    (.enum, .data (.arr [.num (.int 1)])), (.items, .schema ⟨[(.pattern, .data (.str "a"))], []⟩)]
  extra := []

/-- Allowed values of several types. -/
def listed : Schema where
  declared := [(.enum, .data (.arr [.num (.int 1), .str "a", .num (.int 2), .null])),
    (.minLength, .data (.num (.int 3)))]
  extra := []

theorem union_is_normal_mixed :
    let longer : TypeSpelling := .list ["array", "integer", "array", "number", "integer"]
    mixed.possibleTypes = ["array", "number"] ∧
      (mixed.set .type longer.value).possibleTypes = mixed.possibleTypes ∧
      (Value.schema (mixed.set .type longer.value)).typeText = (Value.schema mixed).typeText ∧
      (Value.schema mixed).typeText = "array<UNKNOWN> | number" ∧
      listed.possibleTypes = ["number", "string", "null"] := by
  intro longer
  let given : TypeSpelling := .list ["array", "integer", "number"]
  have hgiven : mixed.value? .type = some given.value := rfl
  have hagain : given.Respells (.list ["array", "integer", "array", "number"]) :=
    @TypeSpelling.Respells.again ["array", "integer"] ["number"] "array" (by decide)
  have hinteger : TypeSpelling.Respells (.list ["array", "integer", "array", "number"]) longer :=
    @TypeSpelling.Respells.integer ["array", "integer", "array", "number"] [] (by decide)
  have hsteps : Relation.EqvGen TypeSpelling.Respells given longer :=
    .trans _ _ _ (.rel _ _ hagain) (.rel _ _ hinteger)
  have hmixed := union_is_normal mixed
  obtain ⟨names, hnames, -, hpossible⟩ := (union_is_normal listed).allowed rfl (by decide)
  have hlisted : names = ["number", "string", "null"] :=
    (hnames.unique (.eraseDups _)).trans (by decide +kernel)
  refine ⟨by decide +kernel, (hmixed.respelt given longer hgiven).2 hsteps,
    hmixed.shown (by decide) given longer hgiven hsteps, by decide +kernel, ?_⟩
  rw [hpossible (List.cons_ne_nil _ _), hlisted]

end Schema

end SchemaProse
