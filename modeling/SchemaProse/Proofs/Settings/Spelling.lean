import SchemaProse.Proofs.Settings.Layering
/-!
# Settings — the two spellings of beginnings

The beginnings to hide may be given in a list, or in one text with commas between
them. Either way their cores are kept and blank ones left out, so the two spellings
make the same settings when no beginning has a comma in it (`layer_hidingConfig`). What is
kept is its own core (`Cleans.self`): settings do not change when the beginnings
that they hold are laid over them once more.
-/

namespace SchemaProse

namespace Settings

variable {base : Settings} {given : Json} {text stripped : String} {texts kept : List String}

/-- A configuration that gives the beginnings to hide and says nothing else. -/
def hidingConfig (given : Json) : Json :=
  .obj [(Knob.extraHidden.key, given)]

/-- Beginnings in a list. -/
def listed (texts : List String) : Json :=
  .arr (texts.map .str)

/-- Beginnings in one text, with commas between them. -/
def joined (texts : List String) : Json :=
  .str (",".intercalate texts)

/-- A configuration that gives beginnings changes these and nothing else. -/
theorem layer_hidingConfig (h : Knob.extraHidden.Gives given kept) :
    base.layer (hidingConfig given) = { base with extraHidden := kept } := by
  have hwrites : Knob.extraHidden.Writes (hidingConfig given) kept := .member List.lookup_cons_self h
  refine Knob.eq_of_get_eq fun knob => ?_
  cases knob with
  | nullLiteral => rfl
  | undefinedLiteral => rfl
  | extraHidden => exact Knob.get_layer_of_writes hwrites

/-! ## What is kept -/

/-- A text that has been stripped is its own core. -/
theorem Strips.self (h : Strips text stripped) : Strips stripped stripped :=
  ⟨⟨[], [], by simp, nofun, nofun⟩, h.first, h.last⟩

/-- What is kept is stripped and not blank. -/
theorem Cleans.strips (h : Cleans texts kept) : ∀ text ∈ kept, Strips text text ∧ text ≠ "" := by
  induction h with
  | nil => exact nofun
  | keep hstrips hne _ ih => exact List.forall_mem_cons.2 ⟨⟨hstrips.self, hne⟩, ih⟩
  | drop _ _ ih => exact ih

/-- **What is kept is all kept once more.** -/
theorem Cleans.self (h : Cleans texts kept) : Cleans kept kept := by
  induction h with
  | nil => exact .nil
  | keep hstrips hne _ ih => exact .keep hstrips.self hne ih
  | drop _ _ ih => exact ih

/-! ## The two spellings -/

/-- A list gives the cores of its texts. -/
theorem Cleans.gives_listed (h : Cleans texts kept) :
    Knob.extraHidden.Gives (listed texts) kept := by
  refine .items (List.filter_eq_self.2 ?_) h
  exact List.forall_mem_map.2 fun _ _ => rfl

/-- **So does one text with commas between them**, when none of them has a comma. -/
theorem Cleans.gives_joined (h : Cleans texts kept) (hcomma : ∀ text ∈ texts, ',' ∉ text.toList) :
    Knob.extraHidden.Gives (joined texts) kept := by
  by_cases hne : texts = []
  · subst hne
    cases h
    -- the empty text has one piece, of which nothing is left
    have hsplits : Splits "" [""] := ⟨by simp, by simp, by simp⟩
    have hstrips : Strips "" "" := ⟨⟨[], [], rfl, nofun, nofun⟩, nofun, nofun⟩
    exact .pieces hsplits (.drop hstrips .nil)
  · exact .pieces ⟨hne, hcomma, rfl⟩ h

/-- **The two spellings of beginnings agree.** Texts without commas make the same
settings in a list and joined with commas: the beginnings to hide are their cores,
in order, except for those that are empty, and nothing else changes. And settings
that got their beginnings from a configuration stay as they are when these are laid
over them in a list, or joined with commas if none has a comma in it. -/
theorem spellings_agree (base : Settings) :
    (∀ texts : List String, (∀ text ∈ texts, ',' ∉ text.toList) →
      ∃ kept, Cleans texts kept ∧ (∀ text ∈ kept, Strips text text ∧ text ≠ "") ∧
        base.layer (hidingConfig (joined texts)) = { base with extraHidden := kept } ∧
        base.layer (hidingConfig (listed texts)) = { base with extraHidden := kept }) ∧
    ∀ config : Json, (∃ kept, Knob.extraHidden.Writes config kept) →
      (base.layer config).layer (hidingConfig (listed (base.layer config).extraHidden)) =
        base.layer config ∧
      ((∀ text ∈ (base.layer config).extraHidden, ',' ∉ text.toList) →
        (base.layer config).layer (hidingConfig (joined (base.layer config).extraHidden)) =
          base.layer config) := by
  refine ⟨fun texts hcomma => ?_, ?_⟩
  · have hcleans : Cleans texts (cleaned texts) := cleaned_eq_iff.1 rfl
    exact ⟨_, hcleans, hcleans.strips, layer_hidingConfig (hcleans.gives_joined hcomma),
      layer_hidingConfig hcleans.gives_listed⟩
  · rintro config ⟨kept, hwrites⟩
    have hkept : (base.layer config).extraHidden = kept := Knob.get_layer_of_writes hwrites
    have hself : Cleans kept kept := by
      obtain ⟨-, hgives⟩ := hwrites
      cases hgives with
      | pieces _ hcleans => exact hcleans.self
      | items _ hcleans => exact hcleans.self
    rw [hkept, layer_hidingConfig hself.gives_listed]
    refine ⟨by rw [← hkept], fun hcomma => ?_⟩
    rw [layer_hidingConfig (hself.gives_joined hcomma), ← hkept]

/-- Beginnings that are padded, blank or repeated. -/
def oddTexts : List String :=
  [" x-a-", "", "\u2003", "x-b-\t", "x-a-"]

/-- And a configuration whose only beginning has a comma in it, which makes two of it
when it is joined. -/
theorem spellings_agree_oddTexts :
    ∃ base : Settings, (∀ text ∈ oddTexts, ',' ∉ text.toList) ∧
      base.layer (hidingConfig (.str " x-a-,,\u2003,x-b-\t,x-a-")) =
        { base with extraHidden := ["x-a-", "x-b-", "x-a-"] } ∧
      base.layer (hidingConfig (listed oddTexts)) =
        { base with extraHidden := ["x-a-", "x-b-", "x-a-"] } ∧
      ∃ config, Knob.extraHidden.Writes config ["x,y"] ∧
        (base.layer config).layer (hidingConfig (listed ["x,y"])) = base.layer config ∧
        (base.layer config).layer (hidingConfig (joined ["x,y"])) ≠ base.layer config := by
  have hcomma : ∀ text ∈ oddTexts, ',' ∉ text.toList := by decide
  obtain ⟨hspellings, hagain⟩ := spellings_agree {}
  obtain ⟨kept, hcleans, -, hjoined, hlisted⟩ := hspellings oddTexts hcomma
  obtain rfl : ["x-a-", "x-b-", "x-a-"] = kept := cleaned_eq_iff.2 hcleans
  have hwrites : Knob.extraHidden.Writes (hidingConfig (listed [" x,y "])) ["x,y"] :=
    Knob.writes_iff.2 rfl
  obtain ⟨hlayer, -⟩ := hagain _ ⟨_, hwrites⟩
  exact ⟨{}, hcomma, hjoined, hlisted, _, hwrites, hlayer, by decide⟩

end Settings

end SchemaProse
