import SchemaProse.Proofs.Schema.Views
import SchemaProse.Proofs.Synthesis.Dependencies
import SchemaProse.Proofs.Synthesis.Distinct
/-!
# Synthesis — the nodes that a program meets

A program meets the nodes that it reads, the schemas that it has synthesized,
and whatever stands inside a value that it has met. All of these are *sound*:
they may come out of a reading, and no object of their written form names a
member twice. What is synthesized is sound because it is read from its draft
(`sound_of_readNode`), and a step into a value keeps soundness
(`Sound.child`). So the views agree on every schema that is met
(`viewsAgree_of_reachable`).
-/

namespace SchemaProse

/-- The values that a program can meet. -/
inductive Value.Reachable : Value → Prop
  /-- A node that is read from a document. -/
  | document {document : Json} {v : Value} : document.DistinctNames →
      Schema.readNode document = .ok v → Value.Reachable v
  /-- The schema of an example. -/
  | ofExample (settings : Settings) {e : Example} : e.DistinctNames →
      Value.Reachable (.schema (e.toSchema settings))
  /-- The schema of some parameters. -/
  | ofParameters {entries : List (String × Given Parameter.read)} {s : Schema} :
      (entries.map Prod.fst).Nodup → (∀ m ∈ entries, m.2.DistinctNames) →
      Parameter.synthesize (some entries) = .ok (some s) → Value.Reachable (.schema s)
  /-- The schema of some variables. -/
  | ofVariables {entries : List (String × Given ServerVariable.read)} {s : Schema} :
      (entries.map Prod.fst).Nodup → (∀ m ∈ entries, m.2.DistinctNames) →
      ServerVariable.synthesize (some entries) = .ok (some s) → Value.Reachable (.schema s)
  /-- The schema of the dependencies of a node. -/
  | ofDependencies {v : Value} {s : Schema} : Value.Reachable v →
      v.dependentSchema? = some s → Value.Reachable (.schema s)
  /-- A value inside another. -/
  | child {v w : Value} {step : Step} : Value.Reachable v → v.child? step = some w →
      Value.Reachable w

namespace Value

/-- The value may come out of a reading, and is written without repeated
names. -/
structure Sound (v : Value) : Prop where
  fits : ∃ shape, v.Fits shape
  distinctNames : v.toJson.DistinctNames

variable {v w : Value} {s : Schema}

/-- Data fits everywhere where any value does. -/
theorem sound_data {j : Json} (h : j.DistinctNames) : (data j).Sound :=
  ⟨⟨.anything, .scalar rfl⟩, h⟩

/-- An entry may stand in the place of a node, or is data. -/
theorem IsEntry.exists_fits (h : v.IsEntry) : ∃ shape, v.Fits shape := by
  cases h with
  | data _ => exact ⟨.anything, .scalar rfl⟩
  | schema hwf => exact ⟨.node, .schema rfl hwf⟩

/-- **What is read from a document without repeated names is sound.** -/
theorem sound_of_readNode {document : Json} (hdocument : document.DistinctNames)
    (h : Schema.readNode document = .ok v) : v.Sound := by
  have hentry := Schema.readEntry?_of_readNode h
  have hread : v.IsEntry := (fits_and_isEntry_of_read document).2 v hentry
  exact ⟨hread.exists_fits, (distinctNames_of_read document hdocument).2 v hentry⟩

/-- A sound schema is well formed. -/
theorem Sound.wellFormed (h : (schema s).Sound) : s.WellFormed := by
  obtain ⟨shape, hfits⟩ := h.fits
  cases hfits with
  | schema _ hwf => exact hwf

/-- The item at a position is one of the items. -/
theorem mem_of_itemAt?_eq_some {α : Type} {items : List α} {i : Int} {a : α}
    (h : itemAt? items i = some a) : a ∈ items := by
  unfold itemAt? at h
  split at h
  · cases h
  · exact List.mem_of_getElem? h

/-- A member of a sound schema is sound. -/
theorem Sound.get? (h : (schema s).Sound) {name : String} (hw : s.get? name = some w) :
    w.Sound := by
  have hdistinct : (Json.obj s.written).DistinctNames :=
    Schema.toJson_eq_written s ▸ h.distinctNames
  have hwritten : (name, w.toJson) ∈ s.written := by
    refine mem_of_lookup_eq_some ?_
    rw [Schema.lookup_written_name h.wellFormed, hw, Option.map_some]
  refine ⟨?_, hdistinct.values _ hwritten⟩
  cases hname : Keyword.ofName? name with
  | some k =>
    obtain rfl := Keyword.ofName?_eq_some_iff.1 hname
    rw [Schema.get?_name] at hw
    exact ⟨_, h.wellFormed.fits _ (mem_of_lookup_eq_some hw)⟩
  | none =>
    rw [Schema.get?_of_ofName?_eq_none s hname] at hw
    obtain ⟨j, -, rfl⟩ := Option.map_eq_some_iff.1 hw
    exact ⟨.anything, .scalar rfl⟩

/-- **A step into a sound value leads to a sound value.** -/
theorem Sound.child (h : v.Sound) {step : Step} (hw : v.child? step = some w) : w.Sound := by
  obtain ⟨⟨shape, hfits⟩, hdistinct⟩ := h
  unfold child? at hw
  split at hw
  next s name => exact Sound.get? ⟨⟨shape, hfits⟩, hdistinct⟩ hw
  next members name =>
    have hmem : (name, w) ∈ members := mem_of_lookup_eq_some hw
    rw [toJson, membersToJson_eq_map] at hdistinct
    refine ⟨?_, hdistinct.values _ (List.mem_map_of_mem hmem)⟩
    cases hfits with
    | map hentries => exact (hentries _ hmem).exists_fits
  next entries i =>
    have hmem : w ∈ entries := mem_of_itemAt?_eq_some hw
    rw [toJson, listToJson_eq_map] at hdistinct
    refine ⟨?_, hdistinct.items _ (List.mem_map_of_mem hmem)⟩
    cases hfits with
    | list _ hentries => exact (hentries _ hmem).exists_fits
  next members name =>
    obtain ⟨j, hj, rfl⟩ := Option.map_eq_some_iff.1 hw
    exact sound_data (Json.DistinctNames.values hdistinct _ (mem_of_lookup_eq_some hj))
  next items i =>
    obtain ⟨j, hj, rfl⟩ := Option.map_eq_some_iff.1 hw
    exact sound_data (Json.DistinctNames.items hdistinct _ (mem_of_itemAt?_eq_some hj))
  next => cases hw

/-- The entries of a sound map are entries, and have distinct names. -/
theorem Sound.members (h : v.Sound) :
    (∀ m ∈ v.members, m.2.IsEntry) ∧
      (Json.obj (v.members.map fun m => (m.1, m.2.toJson))).DistinctNames := by
  obtain ⟨⟨shape, hfits⟩, hdistinct⟩ := h
  cases v with
  | map ms =>
    rw [toJson, membersToJson_eq_map] at hdistinct
    cases hfits with
    | map hentries => exact ⟨hentries, hdistinct⟩
  | _ => exact ⟨List.forall_mem_nil _, .obj List.nodup_nil (List.forall_mem_nil _)⟩

/-- So are those of a sound schema's dependencies. -/
theorem Sound.dependencies (h : (schema s).Sound) :
    (∀ m ∈ s.dependencies, m.2.IsEntry) ∧
      (Json.obj (s.dependencies.map fun m => (m.1, m.2.toJson))).DistinctNames := by
  unfold Schema.dependencies
  cases hv : s.value? .dependencies with
  | none => exact ⟨List.forall_mem_nil _, .obj List.nodup_nil (List.forall_mem_nil _)⟩
  | some v =>
    have hget : s.get? Keyword.dependencies.name = some v := by rw [Schema.get?_name, hv]
    exact (h.get? hget).members

/-- **The dependencies of a sound node make a sound schema**, which is read
from the document drafted for them. -/
theorem Sound.dependentSchema (h : v.Sound) (hs : v.dependentSchema? = some s) :
    (schema s).Sound := by
  cases v with
  | schema t =>
    obtain ⟨hentries, hdistinct⟩ := h.dependencies
    have hsub : t.dependentNodes.Sublist t.dependencies := List.filter_sublist
    rw [Schema.dependentSchema?_eq, Option.ite_none_left_eq_some] at hs
    obtain rfl := Option.some.inj hs.2
    exact sound_of_readNode (Schema.distinctNames_draft (hdistinct.sublist (hsub.map _)) none)
      (Schema.readNode_obj_eq_ok_iff.2 ⟨_, Schema.read_draft_dependentNodes hentries, rfl⟩)
  | _ => cases hs

/-- The schema of some parameters is sound. -/
theorem sound_of_parameters {entries : List (String × Given Parameter.read)}
    (hnames : (entries.map Prod.fst).Nodup) (hentries : ∀ m ∈ entries, m.2.DistinctNames)
    (h : Parameter.synthesize (some entries) = .ok (some s)) : (schema s).Sound := by
  rw [Parameter.synthesize, Option.getD_some] at h
  cases hps : readEach Given.read entries with
  | error r =>
    rw [hps] at h
    cases h
  | ok ps =>
    rw [hps] at h
    have hs : Parameter.schemaOf? ps = some s := Except.ok.inj h
    have hnames' : (ps.map Prod.fst).Nodup := map_fst_of_readEach hps ▸ hnames
    have hread : ∀ m ∈ ps, ∃ j : Json, j.DistinctNames ∧ Parameter.read j = .ok m.2 :=
      fun m hm => exists_distinct_of_readEach hps hentries hm
    have hdraft : Schema.readNode (Parameter.draft ps) = .ok (schema s) :=
      Parameter.readNode_draft (fun m hm => (hread m hm).imp fun _ => And.right) hs
    exact sound_of_readNode (Parameter.distinctNames_draft hnames' hread) hdraft

/-- The schema of some variables is sound. -/
theorem sound_of_variables {entries : List (String × Given ServerVariable.read)}
    (hnames : (entries.map Prod.fst).Nodup) (hentries : ∀ m ∈ entries, m.2.DistinctNames)
    (h : ServerVariable.synthesize (some entries) = .ok (some s)) : (schema s).Sound := by
  rw [ServerVariable.synthesize, Option.getD_some] at h
  cases hvs : readEach Given.read entries with
  | error r =>
    rw [hvs] at h
    cases h
  | ok vs =>
    rw [hvs] at h
    have hs : ServerVariable.schemaOf? vs = .ok (some s) := h
    have hne : vs ≠ [] := by
      rintro rfl
      cases hs
    have hdraft : Schema.readNode (ServerVariable.draft vs) = .ok (schema s) := by
      rw [ServerVariable.schemaOf?_of_ne_nil hne] at hs
      rw [ServerVariable.readNode_draft]
      cases hproperties : ServerVariable.properties? vs with
      | none =>
        rw [hproperties] at hs
        cases hs
      | some properties =>
        rw [hproperties] at hs
        obtain rfl := Option.some.inj (Except.ok.inj hs)
        rfl
    have hnames' : (vs.map Prod.fst).Nodup := map_fst_of_readEach hvs ▸ hnames
    have hread : ∀ m ∈ vs, ∃ j : Json, j.DistinctNames ∧ ServerVariable.read j = .ok m.2 :=
      fun m hm => exists_distinct_of_readEach hvs hentries hm
    exact sound_of_readNode (ServerVariable.distinctNames_draft hnames' hread) hdraft

/-- **Whatever a program meets is sound.** -/
theorem Reachable.sound (h : v.Reachable) : v.Sound := by
  induction h with
  | document hdocument hread => exact sound_of_readNode hdocument hread
  | ofExample settings he =>
    exact sound_of_readNode (he.document settings) (Example.readNode_document settings _)
  | ofParameters hnames hentries hs => exact sound_of_parameters hnames hentries hs
  | ofVariables hnames hentries hs => exact sound_of_variables hnames hentries hs
  | ofDependencies _ hs ih => exact ih.dependentSchema hs
  | child _ hw ih => exact ih.child hw

end Value

namespace Schema

/-- **The views agree on every schema that a program meets**, however it came
to be: read, synthesized, or found inside another value. -/
theorem viewsAgree_of_reachable {s : Schema} (h : (Value.schema s).Reachable) :
    s.ViewsAgree := by
  have hsound := h.sound
  have hdistinct : (Json.obj s.written).DistinctNames :=
    toJson_eq_written s ▸ hsound.distinctNames
  have hnames : s.keywords.Nodup := map_fst_written s ▸ hdistinct.names
  exact viewsAgree hsound.wellFormed hnames

/-- An object with an extension, a private marker in another spelling and a
misspelt keyword. -/
def oddMembers : List (String × Json) :=
  [("x-note", .null), ("x-schema-private-raw-value", .str "yes"), ("min_length", .num (.int 3))]

theorem viewsAgree_oddMembers :
    ∃ s : Schema, (Value.schema s).Reachable ∧ s.ViewsAgree ∧
      s.keywords = ["minLength", "x-schema-private-raw-value", "x-note", "min_length"] ∧
      s.extensions = [("x-schema-private-raw-value", .bool true), ("x-note", .null)] := by
  have hodd : (Json.obj oddMembers).DistinctNames := by
    refine .obj (by decide) ?_
    simp only [oddMembers, List.forall_mem_cons]
    exact ⟨.null, .str _, .leaf nofun nofun, nofun⟩
  have hproperties : (Json.obj [("a", .obj oddMembers)]).DistinctNames :=
    .obj (List.nodup_singleton _) (List.forall_mem_singleton.2 hodd)
  have hdocument : (Json.obj [("properties", .obj [("a", .obj oddMembers)])]).DistinctNames :=
    .obj (List.nodup_singleton _) (List.forall_mem_singleton.2 hproperties)
  -- the schema is two steps inside the node that is read
  have hroot := Value.Reachable.document hdocument rfl
  have hmap := hroot.child (show Value.child? _ (.member "properties") = some _ from rfl)
  have hschema := hmap.child (show Value.child? _ (.member "a") = some _ from rfl)
  exact ⟨_, hschema, viewsAgree_of_reachable hschema, rfl, rfl⟩

end Schema

end SchemaProse
