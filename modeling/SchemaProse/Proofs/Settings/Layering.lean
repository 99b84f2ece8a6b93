import Mathlib.Data.List.Induction
import SchemaProse.Proofs.Settings.Knobs
/-!
# Settings — layers over layers

Any number of configurations may be laid over settings, one after the other. A
configuration *writes* a knob when it is an object with a value for it. The
last configuration that writes a knob *settles* it, and when none does, it stays
as it was below all of them. Laying the configurations over the settings turns
every knob as it is settled (`Knob.settled_iff`), so no configuration gets in
the way of another one except by writing the same knob.
-/

namespace SchemaProse

namespace Settings

namespace Knob

/-- The configuration is an object that has, under the knob's key, a value that
gives the choice. -/
inductive Writes (knob : Knob) : Json → knob.Choice → Prop
  | member {members : List (String × Json)} {j : Json} {a : knob.Choice} :
      members.lookup knob.key = some j → knob.Gives j a → Writes knob (.obj members) a

/-- What a knob is turned to by configurations that are laid over settings. -/
inductive Settled (knob : Knob) (base : Settings) (configs : List Json) : knob.Choice → Prop
  /-- A configuration writes the knob, and no later one does. -/
  | written {before after : List Json} {config : Json} {a : knob.Choice} :
      configs = before ++ config :: after → knob.Writes config a →
      (∀ later ∈ after, ∀ b, ¬ knob.Writes later b) → Settled knob base configs a
  /-- No configuration writes the knob. -/
  | kept : (∀ config ∈ configs, ∀ a, ¬ knob.Writes config a) →
      Settled knob base configs (knob.get base)

variable {knob : Knob} {base : Settings} {config : Json} {configs : List Json} {a : knob.Choice}

/-- Settings with the same choices are the same. -/
theorem eq_of_get_eq {s t : Settings} (h : ∀ knob : Knob, knob.get s = knob.get t) : s = t := by
  obtain ⟨nullLiteral, undefinedLiteral, extraHidden⟩ := s
  obtain rfl : nullLiteral = t.nullLiteral := h .nullLiteral
  obtain rfl : undefinedLiteral = t.undefinedLiteral := h .undefinedLiteral
  obtain rfl : extraHidden = t.extraHidden := h .extraHidden
  rfl

/-! ## One layer -/

theorem writes_iff :
    knob.Writes config a ↔ (config.member? knob.key).bind knob.given? = some a := by
  constructor
  · rintro ⟨hlookup, hgives⟩
    rw [Json.member?, Json.obj?, Option.bind_some, hlookup, Option.bind_some, gives_iff.1 hgives]
  · intro h
    obtain ⟨j, hj, hgiven⟩ := Option.bind_eq_some_iff.1 h
    cases config with
    | obj members => exact .member hj (gives_iff.2 hgiven)
    | _ => cases hj

/-- A layer that writes a knob turns it. -/
theorem get_layer_of_writes (h : knob.Writes config a) : knob.get (base.layer config) = a := by
  rw [get_layer, writes_iff.1 h, Option.getD_some]

/-- Any other layer leaves it as it was. -/
theorem get_layer_of_not_writes (h : ∀ a, ¬ knob.Writes config a) :
    knob.get (base.layer config) = knob.get base := by
  have hnone : (config.member? knob.key).bind knob.given? = none := by
    rw [Option.eq_none_iff_forall_ne_some]
    exact fun a ha => h a (writes_iff.2 ha)
  rw [get_layer, hnone, Option.getD_none]

/-- A second layer of one configuration changes nothing. -/
theorem layer_layer (base : Settings) (config : Json) :
    (base.layer config).layer config = base.layer config := by
  refine eq_of_get_eq fun knob => ?_
  rw [get_layer, get_layer]
  cases (config.member? knob.key).bind knob.given? <;> rfl

/-! ## Many layers -/

/-- The last configuration settles a knob if it writes it, and leaves it to the
others if it does not. -/
theorem settled_concat_iff :
    knob.Settled base (configs ++ [config]) a ↔
      knob.Writes config a ∨ (∀ b, ¬ knob.Writes config b) ∧ knob.Settled base configs a := by
  constructor
  · intro h
    cases h with
    | @written before after writer _ hconfigs hwrites hlater =>
      rcases List.eq_nil_or_concat' after with rfl | ⟨after, last, rfl⟩
      · obtain ⟨-, rfl⟩ := List.append_singleton_inj.1 hconfigs
        exact .inl hwrites
      · rw [← List.cons_append, ← List.append_assoc] at hconfigs
        obtain ⟨rfl, rfl⟩ := List.append_singleton_inj.1 hconfigs
        obtain ⟨hafter, hlast⟩ := List.forall_mem_append.1 hlater
        exact .inr ⟨hlast _ (List.mem_singleton_self _), .written rfl hwrites hafter⟩
    | kept hnone =>
      obtain ⟨hconfigs, hlast⟩ := List.forall_mem_append.1 hnone
      exact .inr ⟨hlast _ (List.mem_singleton_self _), .kept hconfigs⟩
  · rintro (hwrites | ⟨hnone, ⟨rfl, hwrites, hlater⟩ | hkept⟩)
    · exact .written rfl hwrites nofun
    · refine .written (List.append_assoc _ _ _) hwrites ?_
      exact List.forall_mem_append.2 ⟨hlater, List.forall_mem_singleton.2 hnone⟩
    · exact .kept (List.forall_mem_append.2 ⟨hkept, List.forall_mem_singleton.2 hnone⟩)

/-- **Layers turn each knob as it is settled.** -/
theorem settled_iff : knob.Settled base configs a ↔ a = knob.get (configs.foldl layer base) := by
  -- the last layer is on top, so the induction takes the configurations from the end
  induction configs using List.reverseRecOn with
  | nil =>
    constructor
    · rintro (⟨hconfigs, -, -⟩ | -)
      · simp at hconfigs
      · rfl
    · rintro rfl
      exact .kept nofun
  | append_singleton configs config ih =>
    rw [settled_concat_iff, ih, List.foldl_append, List.foldl_cons, List.foldl_nil]
    by_cases hwrites : ∃ b, knob.Writes config b
    · obtain ⟨b, hb⟩ := hwrites
      rw [get_layer_of_writes hb]
      constructor
      · rintro (ha | ⟨hnone, -⟩)
        · exact Option.some.inj ((writes_iff.1 ha).symm.trans (writes_iff.1 hb))
        · exact absurd hb (hnone b)
      · rintro rfl
        exact .inl hb
    · rw [not_exists] at hwrites
      rw [get_layer_of_not_writes hwrites]
      constructor
      · rintro (ha | ⟨-, ha⟩)
        · exact absurd ha (hwrites a)
        · exact ha
      · exact fun ha => .inr ⟨hwrites, ha⟩

/-- A knob depends on what the configurations have under its own key. -/
theorem get_foldl_layer_congr {configs' : List Json}
    (h : List.Forall₂ (fun config config' : Json =>
      config'.member? knob.key = config.member? knob.key) configs configs') :
    knob.get (configs'.foldl layer base) = knob.get (configs.foldl layer base) := by
  -- the settings below differ from the second layer on, but not in this knob
  suffices hbelow : ∀ base base' : Settings, knob.get base' = knob.get base →
      knob.get (configs'.foldl layer base') = knob.get (configs.foldl layer base) from
    hbelow base base rfl
  induction h with
  | nil => exact fun base base' hbase => hbase
  | cons hmember _ ih =>
    intro base base' hbase
    refine ih _ _ ?_
    rw [get_layer, get_layer, hmember, hbase]

end Knob

/-- **The last configuration that writes a knob settles it.** Each knob is what
the last configuration gives it that is an object with a value for it, and what
it was before if there is none. A configuration that is laid over once more
changes nothing. What the configurations hold under other keys does not matter
to a knob, be it valid or not, and what they hold under unknown keys matters to
none. -/
theorem last_writer_settles_each_knob (base : Settings) (configs : List Json) :
    (∀ (knob : Knob) (a : knob.Choice),
      knob.Settled base configs a ↔ a = knob.get (configs.foldl layer base)) ∧
      (∀ config : Json, (configs ++ [config, config]).foldl layer base =
        (configs ++ [config]).foldl layer base) ∧
      (∀ (knob : Knob) (configs' : List Json),
        List.Forall₂ (fun config config' : Json =>
          config'.member? knob.key = config.member? knob.key) configs configs' →
        knob.get (configs'.foldl layer base) = knob.get (configs.foldl layer base)) ∧
      ∀ configs' : List Json,
        List.Forall₂ (fun config config' : Json => ∀ knob : Knob,
          config'.member? knob.key = config.member? knob.key) configs configs' →
        configs'.foldl layer base = configs.foldl layer base := by
  refine ⟨fun knob a => Knob.settled_iff, fun config => ?_,
    fun knob configs' => Knob.get_foldl_layer_congr, fun configs' h => ?_⟩
  · simp only [List.foldl_append, List.foldl_cons, List.foldl_nil, Knob.layer_layer]
  · refine Knob.eq_of_get_eq fun knob => Knob.get_foldl_layer_congr (h.imp fun _ _ hmember => ?_)
    exact hmember knob

/-- Configurations of which one is no object, one has an ill-typed literal, and
the last gives beginnings of which nothing is left. -/
def mixedConfigs : List Json :=
  [.obj [("null_literal", .str "nil"), ("extra_hidden_prefixes", .str "x-a-, x-b-")],
    .arr [.str "null_literal"],
    .obj [("null_literal", .null), ("undefined_literal", .str ""), ("unknown", .str "-")],
    .obj [("extra_hidden_prefixes", .arr [.num (.int 1), .str " "])]]

theorem last_writer_settles_mixedConfigs :
    mixedConfigs.foldl layer ⟨"null", "none", ["x-"]⟩ = ⟨"nil", "", []⟩ ∧
      Knob.nullLiteral.Settled ⟨"null", "none", ["x-"]⟩ mixedConfigs "nil" ∧
      Knob.undefinedLiteral.Settled ⟨"null", "none", ["x-"]⟩ mixedConfigs "" ∧
      Knob.extraHidden.Settled ⟨"null", "none", ["x-"]⟩ mixedConfigs [] := by
  obtain ⟨hsettled, -⟩ := last_writer_settles_each_knob ⟨"null", "none", ["x-"]⟩ mixedConfigs
  exact ⟨rfl, (hsettled .nullLiteral _).2 rfl, (hsettled .undefinedLiteral _).2 rfl,
    (hsettled .extraHidden _).2 rfl⟩

end Settings

end SchemaProse
