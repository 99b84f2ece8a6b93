import Mathlib.Logic.Relation
import SchemaProse.Proofs.Reading.Steps
import SchemaProse.Proofs.Schema.Agreement
import SchemaProse.Proofs.Signature.Unambiguous
/-!
# Reading — truth values and their object forms

A node that is a truth value has an object form: the empty object for `true`,
and the object that negates it for `false`. A document is *recast* when one of
its nodes is put into its object form, be it the document itself or a node at
any depth (`Recast`); only a `false` under `additionalItems`, which ends a tuple,
has to stay. The recast document is read as well, and to a value with the same
signature (`exists_readEntry?_recast`), so recasting any number of nodes changes
neither the type text nor whether the document is any.
-/

namespace SchemaProse

/-- One node of the document, a truth value, is put into its object form. -/
inductive Recast : Json → Json → Prop
  /-- The document itself, when it accepts everything. -/
  | all : Recast (.bool true) (.obj [])
  /-- The document itself, when it accepts nothing. -/
  | nothing : Recast (.bool false) (.obj [("not", .obj [])])
  /-- In the node under a keyword; a `false` that ends a tuple stays. -/
  | node {k : Keyword} {before after : List (String × Json)} {j j' : Json} :
      k.shape.takesNode = true → (k = .additionalItems → j ≠ .bool false) → Recast j j' →
      Recast (.obj (before ++ (k.name, j) :: after)) (.obj (before ++ (k.name, j') :: after))
  /-- In an entry of the list under a keyword. -/
  | entry {k : Keyword} {before after : List (String × Json)} {earlier later : List Json}
      {j j' : Json} :
      k.shape.takesList = true → Recast j j' →
      Recast (.obj (before ++ (k.name, .arr (earlier ++ j :: later)) :: after))
        (.obj (before ++ (k.name, .arr (earlier ++ j' :: later)) :: after))
  /-- In a named entry under a keyword. -/
  | member {k : Keyword} {before after earlier later : List (String × Json)} {name : String}
      {j j' : Json} :
      k.shape = .nodeMap → Recast j j' →
      Recast (.obj (before ++ (k.name, .obj (earlier ++ (name, j) :: later)) :: after))
        (.obj (before ++ (k.name, .obj (earlier ++ (name, j') :: later)) :: after))

/-! ## Values that a signature does not tell apart -/

/-- Under the keyword, a signature does not tell the two values apart. -/
structure Value.Exchangeable (k : Keyword) (v w : Value) : Prop where
  /-- They have the same outline. -/
  outline?_eq : v.outline? = w.outline?
  /-- Both are any or neither is. -/
  isAny_eq : v.isAny = w.isAny
  /-- They end a tuple both or neither. -/
  isFalse_eq : k = .additionalItems → v.isFalse = w.isFalse
  /-- They are the same where no schema stands. -/
  eq_of_isScalar : k.shape.isScalar = true → v = w

theorem Value.Exchangeable.refl (k : Keyword) (v : Value) : v.Exchangeable k v :=
  ⟨rfl, rfl, fun _ => rfl, fun _ => rfl⟩

namespace Schema

/-- Under every keyword, a signature does not tell the values of the two schemas
apart. -/
structure Exchangeable (s t : Schema) : Prop where
  /-- The first schema declares no keyword twice. -/
  nodup_left : (s.declared.map Prod.fst).Nodup
  /-- Nor does the second one. -/
  nodup_right : (t.declared.map Prod.fst).Nodup
  /-- Under a keyword both have exchangeable values, or neither has one. -/
  values : ∀ k, Option.Rel (Value.Exchangeable k) (s.value? k) (t.value? k)

namespace Exchangeable

variable {s t : Schema} {k : Keyword} {α : Type}

/-- What does not tell exchangeable values apart does not tell the schemas
apart. -/
theorem eq_of_values (h : s.Exchangeable t) {f : Option Value → α}
    (hf : ∀ v w, Value.Exchangeable k v w → f (some v) = f (some w)) :
    f (s.value? k) = f (t.value? k) := by
  rcases eq_none_or_exists_of_rel (h.values k) with ⟨hs, ht⟩ | ⟨v, w, hs, ht, hvw⟩
  · rw [hs, ht]
  · rw [hs, ht, hf v w hvw]

theorem value?_eq (h : s.Exchangeable t) (hk : k.shape.isScalar = true) :
    s.value? k = t.value? k :=
  h.eq_of_values (f := id) fun _ _ hvw => congrArg some (hvw.eq_of_isScalar hk)

/-- **Exchangeable schemas have the same signature.** -/
theorem signature_eq (h : s.Exchangeable t) : s.signature = t.signature := by
  have hcarries : ∀ k, s.carries k = t.carries k := fun k =>
    h.eq_of_values (f := Option.isSome) fun _ _ _ => rfl
  have houtline : ∀ k, (outlines s.declared).lookup k = (outlines t.declared).lookup k := by
    intro k
    rw [lookup_outlines h.nodup_left, lookup_outlines h.nodup_right]
    exact h.eq_of_values (f := fun v? => v?.bind Value.outline?) fun _ _ hvw => hvw.outline?_eq
  refine signature_congr (fun k _ => hcarries k) ?_ (fun k _ => houtline k) ?_ fun array => ?_
  · exact h.eq_of_values (f := fun v? => v?.any Value.isAny) fun _ _ hvw => hvw.isAny_eq
  · exact h.eq_of_values (f := fun v? => v?.any Value.isFalse) fun _ _ hvw => hvw.isFalse_eq rfl
  · rw [unionMembers, unionMembers, declaredTypes?, declaredTypes?, typeNames?, typeNames?,
      enumItems, enumItems, h.value?_eq (k := .type) rfl, h.value?_eq (k := .const) rfl,
      h.value?_eq (k := .enum) rfl]

end Exchangeable

end Schema

/-! ## Replacing one member, or one entry -/

/-- A member that is replaced by one of its name changes the look-up of that name
only, and not even that one when the name was there before. -/
theorem lookup_replace {α β : Type} [BEq α] [LawfulBEq α] (before after : List (α × β)) (a : α)
    (b b' : β) (c : α) :
    (before ++ (a, b') :: after).lookup c = (before ++ (a, b) :: after).lookup c ∨
      c = a ∧ (before ++ (a, b) :: after).lookup c = some b ∧
        (before ++ (a, b') :: after).lookup c = some b' := by
  simp only [List.lookup_append]
  cases before.lookup c with
  | some d => exact .inl rfl
  | none =>
    by_cases hc : c = a
    · subst hc
      exact .inr ⟨rfl, by simp⟩
    · left
      simp [List.lookup_cons, beq_false_of_ne hc]

/-- Replacing one item of a list replaces one item of a related list, and what is
not told of the two is not told of the lists. -/
theorem exists_forall₂_replace {α β γ : Type} {R : α → β → Prop} {f : β → γ}
    {before after : List α} {x y : α} {l : List β} (h : List.Forall₂ R (before ++ x :: after) l)
    (hx : ∀ b, R x b → ∃ b', R y b' ∧ f b = f b') :
    ∃ l', List.Forall₂ R (before ++ y :: after) l' ∧ l.map f = l'.map f := by
  induction before generalizing l with
  | nil =>
    obtain ⟨b, l, hb, hl, rfl⟩ := List.forall₂_cons_left_iff.1 h
    obtain ⟨b', hb', hf⟩ := hx b hb
    exact ⟨b' :: l, .cons hb' hl, by rw [List.map_cons, List.map_cons, hf]⟩
  | cons c before ih =>
    obtain ⟨b, l, hb, hl, rfl⟩ := List.forall₂_cons_left_iff.1 h
    obtain ⟨l', hl', hf⟩ := ih hl
    exact ⟨b :: l', .cons hb hl', by rw [List.map_cons, List.map_cons, hf]⟩

namespace Schema

variable {before after : List (String × Json)} {k : Keyword} {i i' : Json} {s : Schema}

/-- The members that are no keyword stay when a keyword's value is replaced. -/
theorem unknown_replace (before after : List (String × Json)) (k : Keyword) (i i' : Json) :
    unknown (before ++ (k.name, i') :: after) = unknown (before ++ (k.name, i) :: after) := by
  have hk : (Keyword.ofName? k.name).isNone = false := by rw [Keyword.ofName?_name]; rfl
  simp [unknown, List.filter_append, hk]

/-- **An object is read when one value is replaced by one that is read
exchangeably**, and the schemas are exchangeable. -/
theorem exists_read_replace (h : read (before ++ (k.name, i) :: after) = .ok s)
    (hvalue : ∀ v, Value.readGiven? k.shape i = some v →
      ∃ w, Value.readGiven? k.shape i' = some w ∧ v.Exchangeable k w) :
    ∃ t, read (before ++ (k.name, i') :: after) = .ok t ∧ s.Exchangeable t := by
  have hlookup := lookup_replace before after k.name i i'
  obtain ⟨t, ht⟩ : ∃ t, read (before ++ (k.name, i') :: after) = .ok t := by
    refine exists_read_of_forall fun k' j hj => ?_
    rcases hlookup k'.name with hsame | ⟨hname, hold, hnew⟩
    · rw [hsame] at hj
      obtain ⟨v, hv, -⟩ := value?_of_lookup_eq_some h hj
      exact ⟨v, hv⟩
    · obtain rfl := Keyword.name_injective hname
      obtain rfl := Option.some.inj (hnew.symm.trans hj)
      obtain ⟨v, hv, -⟩ := value?_of_lookup_eq_some h hold
      obtain ⟨w, hw, -⟩ := hvalue v hv
      exact ⟨w, hw⟩
  refine ⟨t, ht, nodup_declared_of_read h, nodup_declared_of_read ht, fun k' => ?_⟩
  rcases hlookup k'.name with hsame | ⟨hname, hold, hnew⟩
  · have hvalue? : s.value? k' = t.value? k' := by
      cases hj : (before ++ (k.name, i) :: after).lookup k'.name with
      | some j =>
        obtain ⟨v, hv, hsv⟩ := value?_of_lookup_eq_some h hj
        obtain ⟨w, hw, htw⟩ := value?_of_lookup_eq_some ht (hsame.trans hj)
        rw [hsv, htw, ← hv, ← hw]
      | none =>
        rw [value?_of_lookup_eq_none h hj, value?_of_lookup_eq_none ht (hsame.trans hj),
          unknown_replace before after k i i']
    rw [hvalue?]
    cases t.value? k' with
    | none => exact .none
    | some v => exact .some (.refl k' v)
  · obtain rfl := Keyword.name_injective hname
    obtain ⟨v, hv, hsv⟩ := value?_of_lookup_eq_some h hold
    obtain ⟨w, hw, htw⟩ := value?_of_lookup_eq_some ht hnew
    obtain ⟨w', hw', hvw⟩ := hvalue v hv
    obtain rfl := Option.some.inj (hw.symm.trans hw')
    rw [hsv, htw]
    exact .some hvw

end Schema

/-! ## One node is recast -/

namespace Recast

variable {j j' : Json} {shape : Shape} {v : Value}

/-- A document that is recast is a truth value or an object. -/
theorem eq_bool_or_obj (h : Recast j j') : (∃ b, j = .bool b) ∨ ∃ members, j = .obj members := by
  cases h with
  | all | nothing => exact .inl ⟨_, rfl⟩
  | node | entry | member => exact .inr ⟨_, rfl⟩

/-- And becomes an object. -/
theorem exists_eq_obj (h : Recast j j') : ∃ members, j' = .obj members := by
  cases h <;> exact ⟨_, rfl⟩

/-- In the place of a node, it is read as an entry is. -/
theorem readGiven?_eq (h : Recast j j') (hnode : shape.takesNode = true) :
    Value.readGiven? shape j = Value.readEntry? j := by
  rcases h.eq_bool_or_obj with ⟨b, rfl⟩ | ⟨members, rfl⟩
  · exact Value.read?_bool hnode b
  · exact Value.readGiven?_obj hnode members

/-- What is read from it has one signature as its outline. -/
theorem outline?_eq (h : Recast j j') (hv : Value.readEntry? j = some v) :
    v.outline? = some (.one v.signature) := by
  rcases h.eq_bool_or_obj with ⟨b, rfl⟩ | ⟨members, rfl⟩
  · obtain rfl := Option.some.inj hv
    rfl
  · obtain ⟨s, -, rfl⟩ := Value.readEntry?_obj_eq_some_iff.1 hv
    rfl

/-- It ends a tuple only when it is `false`. -/
theorem isFalse_eq (h : Recast j j') (hv : Value.readEntry? j = some v) (hj : j ≠ .bool false) :
    v.isFalse = false := by
  rcases h.eq_bool_or_obj with ⟨b, rfl⟩ | ⟨members, rfl⟩
  · obtain rfl := Option.some.inj hv
    cases b with
    | false => exact absurd rfl hj
    | true => rfl
  · obtain ⟨s, -, rfl⟩ := Value.readEntry?_obj_eq_some_iff.1 hv
    rfl

end Recast

namespace Value

/-- Values with the same signature are any both or neither. -/
theorem isAny_eq_of_signature_eq {v w : Value} (h : v.signature = w.signature) :
    v.isAny = w.isAny := by
  rw [Bool.eq_iff_iff, ← signature_eq_any_iff, ← signature_eq_any_iff, h]

variable {k : Keyword} {j j' : Json}

/-- A node that is recast is read exchangeably, if its signature stays. -/
theorem exists_readGiven?_node (hnode : k.shape.takesNode = true)
    (hlast : k = .additionalItems → j ≠ .bool false) (hrecast : Recast j j')
    (hentry : ∀ v, readEntry? j = some v →
      ∃ s : Schema, readEntry? j' = some (.schema s) ∧ v.signature = s.signature) :
    ∀ v, readGiven? k.shape j = some v →
      ∃ w, readGiven? k.shape j' = some w ∧ v.Exchangeable k w := by
  intro v hv
  rw [hrecast.readGiven?_eq hnode] at hv
  obtain ⟨s, hs, hsignature⟩ := hentry v hv
  obtain ⟨members, rfl⟩ := hrecast.exists_eq_obj
  refine ⟨.schema s, by rw [readGiven?_obj hnode, hs], ?_, ?_, fun hk => ?_, fun hscalar => ?_⟩
  · rw [hrecast.outline?_eq hv, hsignature]
    rfl
  · exact isAny_eq_of_signature_eq hsignature
  · exact hrecast.isFalse_eq hv (hlast hk)
  · cases hshape : k.shape <;> rw [hshape] at hnode hscalar <;> cases hnode <;> cases hscalar

/-- So is a list in which an entry is recast. -/
theorem exists_readGiven?_entry {earlier later : List Json} (hlist : k.shape.takesList = true)
    (hentry : ∀ v, readEntry? j = some v →
      ∃ s : Schema, readEntry? j' = some (.schema s) ∧ v.signature = s.signature) :
    ∀ v, readGiven? k.shape (.arr (earlier ++ j :: later)) = some v →
      ∃ w, readGiven? k.shape (.arr (earlier ++ j' :: later)) = some w ∧ v.Exchangeable k w := by
  intro v hv
  have hread (items : List Json) :
      readGiven? k.shape (.arr items) = (readEntries? items).map .list := read?_arr hlist items
  rw [hread] at hv
  obtain ⟨vs, hvs, rfl⟩ := Option.map_eq_some_iff.1 hv
  obtain ⟨ws, hws, hsignatures⟩ := exists_forall₂_replace (f := signature)
    (readEntries?_eq_some_iff.1 hvs) fun v hv => by
      obtain ⟨s, hs, hsignature⟩ := hentry v hv
      exact ⟨.schema s, hs, hsignature⟩
  refine ⟨.list ws, ?_, ?_, rfl, fun _ => rfl, fun hscalar => ?_⟩
  · rw [hread, readEntries?_eq_some_iff.2 hws, Option.map_some]
  · rw [outline?, outline?, hsignatures]
  · cases hshape : k.shape <;> rw [hshape] at hlist hscalar <;> cases hlist <;> cases hscalar

/-- And so are named entries. -/
theorem exists_readGiven?_member {earlier later : List (String × Json)} {name : String}
    (hmap : k.shape = .nodeMap)
    (hentry : ∀ v, readEntry? j = some v →
      ∃ s : Schema, readEntry? j' = some (.schema s) ∧ v.signature = s.signature) :
    ∀ v, readGiven? k.shape (.obj (earlier ++ (name, j) :: later)) = some v →
      ∃ w, readGiven? k.shape (.obj (earlier ++ (name, j') :: later)) = some w ∧
        v.Exchangeable k w := by
  intro v hv
  have hread (members : List (String × Json)) :
      readGiven? k.shape (.obj members) = (readMembers? members).map .map := by
    rw [hmap]
    exact read?_nodeMap_obj members
  rw [hread] at hv
  obtain ⟨ms, hms, rfl⟩ := Option.map_eq_some_iff.1 hv
  obtain ⟨ns, hns, -⟩ := exists_forall₂_replace (f := Prod.fst) (y := (name, j'))
    (readMembers?_eq_some_iff.1 hms) fun m hm => by
      obtain ⟨s, hs, -⟩ := hentry m.2 hm.2
      exact ⟨(name, .schema s), ⟨rfl, hs⟩, hm.1.symm⟩
  refine ⟨.map ns, ?_, rfl, rfl, fun _ => rfl, fun hscalar => ?_⟩
  · rw [hread, readMembers?_eq_some_iff.2 hns, Option.map_some]
  · rw [hmap] at hscalar
    cases hscalar

/-- **A document is read when one node is recast**, and to a schema with the same
signature. -/
theorem exists_readEntry?_recast (h : Recast j j') :
    ∀ v, readEntry? j = some v →
      ∃ s : Schema, readEntry? j' = some (.schema s) ∧ v.signature = s.signature := by
  -- an object is read when one of its values is read exchangeably
  have hobj {k : Keyword} {before after : List (String × Json)} {i i' : Json}
      (hvalue : ∀ v, readGiven? k.shape i = some v →
        ∃ w, readGiven? k.shape i' = some w ∧ v.Exchangeable k w) :
      ∀ v, readEntry? (.obj (before ++ (k.name, i) :: after)) = some v →
        ∃ t : Schema, readEntry? (.obj (before ++ (k.name, i') :: after)) = some (.schema t) ∧
          v.signature = t.signature := by
    intro v hv
    obtain ⟨s, hs, rfl⟩ := readEntry?_obj_eq_some_iff.1 hv
    obtain ⟨t, ht, hexchangeable⟩ := Schema.exists_read_replace hs hvalue
    exact ⟨t, readEntry?_obj_eq_some_iff.2 ⟨t, ht, rfl⟩, hexchangeable.signature_eq⟩
  induction h with
  | all =>
    rintro _ ⟨⟩
    exact ⟨.empty, rfl, rfl⟩
  | nothing =>
    rintro _ ⟨⟩
    exact ⟨_, rfl, rfl⟩
  | node hnode hlast hrecast ih => exact hobj (exists_readGiven?_node hnode hlast hrecast ih)
  | entry hlist _ ih => exact hobj (exists_readGiven?_entry hlist ih)
  | member hmap _ ih => exact hobj (exists_readGiven?_member hmap ih)

end Value

/-! ## Any number of nodes is recast -/

namespace Schema

/-- **Truth values and their object forms are interchangeable.** Recasting any
number of nodes of a document that is read leaves the type text, and whether the
document is any. -/
theorem typeText_eq_of_recast {x x' : Json} {v : Value} (h : readNode x = .ok v)
    (hrecast : Relation.ReflTransGen Recast x x') :
    ∃ v', readNode x' = .ok v' ∧ v'.typeText = v.typeText ∧ v'.isAny = v.isAny := by
  have hrun : ∃ v', readNode x' = .ok v' ∧ v.signature = v'.signature := by
    induction hrecast with
    | refl => exact ⟨v, h, rfl⟩
    | @tail y z _ hstep ih =>
      obtain ⟨w, hw, hsignature⟩ := ih
      obtain ⟨s, hs, hsignature'⟩ :=
        Value.exists_readEntry?_recast hstep w (readEntry?_of_readNode hw)
      obtain ⟨members, rfl⟩ := hstep.exists_eq_obj
      have hread := readNode_obj_eq_ok_iff.2 (Value.readEntry?_obj_eq_some_iff.1 hs)
      exact ⟨.schema s, hread, hsignature.trans hsignature'⟩
  obtain ⟨v', hv', hsignature⟩ := hrun
  refine ⟨v', hv', ?_, (Value.isAny_eq_of_signature_eq hsignature).symm⟩
  rw [Value.typeText, Value.typeText, hsignature]

/-- A pair with nothing behind it, in which three other nodes are truth values. -/
def closedPair (first negated contained : Json) : Json :=
  .obj [("type", .str "array"), ("items", .arr [first, .obj [("not", negated)]]),
    ("additionalItems", .bool false), ("contains", contained)]

/-- Its nodes are recast one after the other; the `false` that ends the pair
stays. -/
theorem typeText_closedPair :
    ∃ v v', readNode (closedPair (.bool true) (.bool true) (.bool false)) = .ok v ∧
      Relation.ReflTransGen Recast (closedPair (.bool true) (.bool true) (.bool false))
        (closedPair (.obj []) (.obj []) (.obj [("not", .obj [])])) ∧
      readNode (closedPair (.obj []) (.obj []) (.obj [("not", .obj [])])) = .ok v' ∧
      v.typeText = "tuple<ANY, NEVER>" ∧ v'.typeText = v.typeText ∧ v'.isAny = v.isAny := by
  obtain ⟨v, hv⟩ : ∃ v, readNode (closedPair (.bool true) (.bool true) (.bool false)) = .ok v :=
    ⟨_, rfl⟩
  have hfirst : Recast (closedPair (.bool true) (.bool true) (.bool false))
      (closedPair (.obj []) (.bool true) (.bool false)) :=
    @Recast.entry .items [_] _ [] _ _ _ rfl .all
  have hnegated : Recast (closedPair (.obj []) (.bool true) (.bool false))
      (closedPair (.obj []) (.obj []) (.bool false)) :=
    @Recast.entry .items [_] _ [_] _ _ _ rfl (@Recast.node .negation [] _ _ _ rfl nofun .all)
  have hcontained : Recast (closedPair (.obj []) (.obj []) (.bool false))
      (closedPair (.obj []) (.obj []) (.obj [("not", .obj [])])) :=
    @Recast.node .contains [_, _, _] _ _ _ rfl nofun .nothing
  have hrecast := ((Relation.ReflTransGen.single hfirst).tail hnegated).tail hcontained
  obtain ⟨v', hv', htext, hany⟩ := typeText_eq_of_recast hv hrecast
  refine ⟨v, v', hv, hrecast, hv', ?_, htext, hany⟩
  obtain rfl := Except.ok.inj hv
  decide +kernel

end Schema

end SchemaProse
