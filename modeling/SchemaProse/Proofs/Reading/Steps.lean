import Mathlib.Data.List.Forall2
import SchemaProse.Proofs.Json.Members
import SchemaProse.Proofs.Keyword.Table
import SchemaProse.Proofs.Reading.Scalar
import SchemaProse.Schema.Reading
/-!
# Reading — what one step does

`Schema.read` and the readers it calls, each described once, so that no later
proof opens them. A reading of the value under a keyword has one of five forms
(`reads_of_read?`, `read?_of_reads`); a list of entries is read entry by entry
(`readEntries?_eq_some_iff`, `readMembers?_eq_some_iff`); and an object is read
keyword by keyword, each from the member of its name (`mem_refused_iff`,
`value?_of_lookup_eq_some`), or else from its identifier
(`value?_of_lookup_eq_none`).
-/

namespace SchemaProse

namespace Value

/-- Reads the value given under a keyword of a shape; an empty value is
accepted under every keyword. -/
def readGiven? (shape : Shape) (j : Json) : Option Value :=
  if j.isNull then some (.data .null) else read? shape j

/-- Reading under a scalar shape is reading a scalar. -/
theorem read?_of_isScalar {shape : Shape} (h : shape.isScalar = true) (j : Json) :
    read? shape j = (shape.scalar? j).map .data := by
  cases shape with
  | node | nodeList | nodeOrList | nodeMap => cases h
  | _ => cases j <;> rfl

/-- A value of a shape with no other spellings is kept as it is given. -/
theorem eq_data_of_readGiven? {shape : Shape} (hshape : shape.isVerbatim = true) {j : Json}
    {v : Value} (h : readGiven? shape j = some v) : v = .data j := by
  cases hnull : j.isNull with
  | true =>
    cases j with
    | null => exact (Option.some.inj h).symm
    | _ => cases hnull
  | false =>
    have hscalar := Shape.isScalar_of_isVerbatim hshape
    rw [readGiven?, hnull, if_neg (by simp), read?_of_isScalar hscalar] at h
    obtain ⟨j', hj', rfl⟩ := Option.map_eq_some_iff.1 h
    rw [Shape.eq_of_scalar? hshape hj']

/-- An entry that is no object is kept as it is. -/
theorem readEntry?_of_kind {j : Json} (h : j.kind ≠ .object) : readEntry? j = some (.data j) := by
  cases j with
  | obj members => exact absurd rfl h
  | _ => rfl

/-- An entry that is an object is read as a schema. -/
theorem readEntry?_obj_eq_some_iff {members : List (String × Json)} {v : Value} :
    readEntry? (.obj members) = some v ↔ ∃ s, Schema.read members = .ok s ∧ v = .schema s := by
  change (Schema.read members).toOption.map schema = some v ↔ _
  cases Schema.read members with
  | ok s => simp [Except.toOption, eq_comm]
  | error bad => simp [Except.toOption]

/-- A single node that is a truth value is read as it is. -/
theorem read?_bool {shape : Shape} (h : shape.takesNode = true) (b : Bool) :
    read? shape (.bool b) = some (.bool b) := by
  cases shape with
  | node | nodeOrList => rfl
  | _ => cases h

/-- A single node that is an object is read as an entry is. -/
theorem read?_obj {shape : Shape} (h : shape.takesNode = true) (members : List (String × Json)) :
    read? shape (.obj members) = readEntry? (.obj members) := by
  cases shape with
  | node | nodeOrList => rfl
  | _ => cases h

/-- A list is read entry by entry. -/
theorem read?_arr {shape : Shape} (h : shape.takesList = true) (items : List Json) :
    read? shape (.arr items) = (readEntries? items).map .list := by
  cases shape with
  | nodeList | nodeOrList => rfl
  | _ => cases h

/-- Named entries are read entry by entry. -/
theorem read?_nodeMap_obj (members : List (String × Json)) :
    read? .nodeMap (.obj members) = (readMembers? members).map .map :=
  rfl

/-- **The forms of a reading**: what a value of a shape is read as. -/
inductive Reads : Shape → Json → Value → Prop
  /-- A value that holds no schema, as its declared form. -/
  | scalar {shape : Shape} {j j' : Json} : shape.scalar? j = some j' → Reads shape j (.data j')
  /-- A truth value in the place of a node. -/
  | bool {shape : Shape} {b : Bool} : shape.takesNode = true → Reads shape (.bool b) (.bool b)
  /-- An object in the place of a node. -/
  | schema {shape : Shape} {members : List (String × Json)} {s : Schema} :
      shape.takesNode = true → Schema.read members = .ok s → Reads shape (.obj members) (.schema s)
  /-- A list of entries. -/
  | list {shape : Shape} {items : List Json} {vs : List Value} :
      shape.takesList = true → readEntries? items = some vs → Reads shape (.arr items) (.list vs)
  /-- Named entries. -/
  | map {members : List (String × Json)} {ms : List (String × Value)} :
      readMembers? members = some ms → Reads .nodeMap (.obj members) (.map ms)

/-- Every reading has one of the forms. -/
theorem reads_of_read? {shape : Shape} {j : Json} {v : Value} (h : read? shape j = some v) :
    Reads shape j v := by
  -- the shape decides which reader is used, and two shapes share each of these
  have hobj : ∀ {members}, shape.takesNode = true → readEntry? (.obj members) = some v →
      Reads shape (.obj members) v := by
    intro members hnode hread
    obtain ⟨s, hs, rfl⟩ := readEntry?_obj_eq_some_iff.1 hread
    exact .schema hnode hs
  have harr : ∀ {items}, shape.takesList = true → (readEntries? items).map list = some v →
      Reads shape (.arr items) v := by
    intro items hlist hread
    obtain ⟨vs, hvs, rfl⟩ := Option.map_eq_some_iff.1 hread
    exact .list hlist hvs
  cases shape with
  | node =>
    cases j with
    | bool b => exact Option.some.inj h ▸ .bool rfl
    | obj members => exact hobj rfl h
    | _ => cases h
  | nodeOrList =>
    cases j with
    | bool b => exact Option.some.inj h ▸ .bool rfl
    | obj members => exact hobj rfl h
    | arr items => exact harr rfl h
    | _ => cases h
  | nodeList =>
    cases j with
    | arr items => exact harr rfl h
    | _ => cases h
  | nodeMap =>
    cases j with
    | obj members =>
      obtain ⟨ms, hms, rfl⟩ := Option.map_eq_some_iff.1 h
      exact .map hms
    | _ => cases h
  | _ =>
    rw [read?_of_isScalar rfl] at h
    obtain ⟨j', hj', rfl⟩ := Option.map_eq_some_iff.1 h
    exact .scalar hj'

/-- And every form is one of a reading. -/
theorem read?_of_reads {shape : Shape} {j : Json} {v : Value} (h : Reads shape j v) :
    read? shape j = some v := by
  cases h with
  | scalar hj' =>
    have hscalar := Shape.isScalar_of_holds (Shape.holds_of_scalar? hj')
    rw [read?_of_isScalar hscalar, hj', Option.map_some]
  | bool hnode => exact read?_bool hnode _
  | schema hnode hs =>
    rw [read?_obj hnode]
    exact readEntry?_obj_eq_some_iff.2 ⟨_, hs, rfl⟩
  | list hlist hvs => rw [read?_arr hlist, hvs, Option.map_some]
  | map hms => rw [read?_nodeMap_obj, hms, Option.map_some]

/-- A list is read when every entry is, each to its own value. -/
theorem readEntries?_eq_some_iff {items : List Json} {vs : List Value} :
    readEntries? items = some vs ↔ List.Forall₂ (fun j v => readEntry? j = some v) items vs := by
  induction items generalizing vs with
  | nil => simp [readEntries?, eq_comm]
  | cons j items ih =>
    simp only [readEntries?, Option.bind_eq_bind, Option.bind_eq_some_iff, Option.some.injEq]
    constructor
    · rintro ⟨v, hv, vs', hvs', rfl⟩
      exact List.Forall₂.cons hv (ih.1 hvs')
    · rintro (_ | ⟨hv, hvs⟩)
      exact ⟨_, hv, _, ih.2 hvs, rfl⟩

/-- Named entries are read when every entry is, each to its own value under
its own name. -/
theorem readMembers?_eq_some_iff {members : List (String × Json)} {ms : List (String × Value)} :
    readMembers? members = some ms ↔
      List.Forall₂ (fun m n => m.1 = n.1 ∧ readEntry? m.2 = some n.2) members ms := by
  induction members generalizing ms with
  | nil => simp [readMembers?, eq_comm]
  | cons m members ih =>
    simp only [readMembers?, Option.bind_eq_bind, Option.bind_eq_some_iff, Option.some.injEq]
    constructor
    · rintro ⟨v, hv, ms', hms', rfl⟩
      exact List.Forall₂.cons ⟨rfl, hv⟩ (ih.1 hms')
    · rintro (_ | ⟨⟨hname, hv⟩, hms⟩)
      exact ⟨_, hv, _, ih.2 hms, by rw [hname]⟩

/-- A list is not read when one of its entries is not. -/
theorem readEntries?_eq_none_iff {items : List Json} :
    readEntries? items = none ↔ ∃ j ∈ items, readEntry? j = none := by
  induction items with
  | nil => simp [readEntries?]
  | cons j items ih =>
    cases hj : readEntry? j with
    | none => simp [readEntries?, hj]
    | some v =>
      simp only [List.exists_mem_cons_iff, hj, reduceCtorEq, false_or, ← ih]
      cases hitems : readEntries? items <;> simp [readEntries?, hj, hitems]

/-- Named entries are not read when one of them is not. -/
theorem readMembers?_eq_none_iff {members : List (String × Json)} :
    readMembers? members = none ↔ ∃ m ∈ members, readEntry? m.2 = none := by
  induction members with
  | nil => simp [readMembers?]
  | cons m members ih =>
    cases hm : readEntry? m.2 with
    | none => simp [readMembers?, hm]
    | some v =>
      simp only [List.exists_mem_cons_iff, hm, reduceCtorEq, false_or, ← ih]
      cases hmembers : readMembers? members <;> simp [readMembers?, hm, hmembers]

/-- An object given in the place of a node is read as an entry is. -/
theorem readGiven?_obj {shape : Shape} (h : shape.takesNode = true)
    (members : List (String × Json)) :
    readGiven? shape (.obj members) = readEntry? (.obj members) :=
  read?_obj h members

/-- A list that is given is not read when one of its entries is not. -/
theorem readGiven?_arr_eq_none_iff {shape : Shape} (h : shape.takesList = true)
    {items : List Json} :
    readGiven? shape (.arr items) = none ↔ ∃ j ∈ items, readEntry? j = none := by
  change read? shape (.arr items) = none ↔ _
  rw [read?_arr h, Option.map_eq_none_iff, readEntries?_eq_none_iff]

/-- Named entries that are given are not read when one of them is not. -/
theorem readGiven?_nodeMap_obj_eq_none_iff {members : List (String × Json)} :
    readGiven? .nodeMap (.obj members) = none ↔ ∃ m ∈ members, readEntry? m.2 = none := by
  change read? .nodeMap (.obj members) = none ↔ _
  rw [read?_nodeMap_obj, Option.map_eq_none_iff, readMembers?_eq_none_iff]

/-- **A keyword is read from the member of its name.** -/
theorem lookup_readFields (members : List (String × Json)) (k : Keyword) :
    (readFields members).lookup k = (members.lookup k.name).map (readGiven? k.shape) := by
  induction members with
  | nil => rfl
  | cons m members ih =>
    obtain ⟨name, j⟩ := m
    rw [List.lookup_cons]
    cases hname : Keyword.ofName? name with
    | none =>
      have hne : k.name ≠ name := Keyword.ofName?_eq_none_iff.1 hname k
      rw [beq_false_of_ne hne, ← ih]
      simp [readFields, hname]
    | some k' =>
      -- names and keywords are one to one here, so both look-ups stop at the same member
      obtain rfl := Keyword.ofName?_eq_some_iff.1 hname
      simp only [readFields, hname, List.lookup_cons]
      by_cases h : k = k'
      · simp [h, readGiven?]
      · rw [beq_false_of_ne h, beq_false_of_ne fun e => h (Keyword.name_injective e), ih]

end Value

namespace Schema

/-- A keyword is refused when the value given under it is not read. -/
theorem mem_refused_iff {members : List (String × Json)} {k : Keyword} :
    k ∈ refused (Value.readFields members) ↔
      ∃ j, members.lookup k.name = some j ∧ Value.readGiven? k.shape j = none := by
  rw [refused, List.mem_filter, Value.lookup_readFields]
  cases hj : members.lookup k.name with
  | none => simp
  | some j =>
    cases hv : Value.readGiven? k.shape j <;> simp [hv, Keyword.mem_all]

/-- A keyword that a member names holds what is read from the member. -/
theorem field?_of_lookup_eq_some {members extra : List (String × Json)} {k : Keyword} {j : Json}
    (h : members.lookup k.name = some j) :
    field? (Value.readFields members) extra k = (Value.readGiven? k.shape j).map (k, ·) := by
  rw [field?, Value.lookup_readFields, h]
  rfl

/-- A keyword that no member names is empty or absent, by its identifier. -/
theorem field?_of_lookup_eq_none {members extra : List (String × Json)} {k : Keyword}
    (h : members.lookup k.name = none) :
    field? (Value.readFields members) extra k =
      if (extra.lookup k.identifier).isSome then some (k, .data .null) else none := by
  rw [field?, Value.lookup_readFields, h]
  rfl

/-- What a schema holds under a keyword is held under that keyword. -/
theorem fst_of_field?_eq_some {readings : List (Keyword × Option Value)}
    {extra : List (String × Json)} {k : Keyword} {m : Keyword × Value}
    (h : field? readings extra k = some m) : m.1 = k := by
  unfold field? at h
  split at h
  · obtain ⟨v, -, rfl⟩ := Option.map_eq_some_iff.1 h
    rfl
  · split at h
    · exact Option.some.inj h ▸ rfl
    · cases h

/-- **An object is read when no keyword is refused**, and then holds a field
for each keyword and the members that are no keyword. -/
theorem read_eq_ok_iff {members : List (String × Json)} {s : Schema} :
    read members = .ok s ↔ refused (Value.readFields members) = [] ∧
      s = ⟨Keyword.all.filterMap (field? (Value.readFields members) (unknown members)),
        unknown members⟩ := by
  unfold read assemble
  split
  next hnil => simp [hnil, eq_comm]
  next hne => exact iff_of_false (by simp) fun h => hne h.1

/-- **An object is not read when a keyword is refused**, and the refused
keywords are the error. -/
theorem read_eq_error_iff {members : List (String × Json)} {bad : List Keyword} :
    read members = .error bad ↔ bad ≠ [] ∧ refused (Value.readFields members) = bad := by
  unfold read assemble
  split
  next hnil => simp +contextual [hnil, eq_comm]
  next hne =>
    simp only [Except.error.injEq]
    constructor
    · rintro rfl
      exact ⟨hne, rfl⟩
    · exact And.right

/-- An object with no refused keyword is read. -/
theorem exists_read_of_refused_eq_nil {members : List (String × Json)}
    (h : refused (Value.readFields members) = []) : ∃ s, read members = .ok s :=
  ⟨_, read_eq_ok_iff.2 ⟨h, rfl⟩⟩

/-- A schema is read from an object when under every keyword of it a value is. -/
theorem exists_read_of_forall {members : List (String × Json)}
    (h : ∀ k : Keyword, ∀ j, members.lookup k.name = some j →
      ∃ v, Value.readGiven? k.shape j = some v) :
    ∃ s, read members = .ok s := by
  refine exists_read_of_refused_eq_nil (List.eq_nil_iff_forall_not_mem.2 fun k hk => ?_)
  obtain ⟨j, hj, hnone⟩ := mem_refused_iff.1 hk
  obtain ⟨v, hv⟩ := h k j hj
  rw [hv] at hnone
  cases hnone

/-- An object is read as a node when it is read as a schema. -/
theorem readNode_obj_eq_ok_iff {members : List (String × Json)} {v : Value} :
    readNode (.obj members) = .ok v ↔ ∃ s, read members = .ok s ∧ v = .schema s := by
  rw [readNode]
  cases read members with
  | ok s => simp [eq_comm]
  | error bad => simp

/-- And it is not read as a node when a keyword is refused. -/
theorem readNode_obj_eq_error_iff {members : List (String × Json)} {e : ReadError} :
    readNode (.obj members) = .error e ↔ ∃ bad, read members = .error bad ∧ e = .refused bad := by
  rw [readNode]
  cases read members with
  | ok s => simp
  | error bad => simp [eq_comm]

/-- Nodes are read from truth values and from objects only. -/
theorem readNode_eq_ok_iff {j : Json} {v : Value} :
    readNode j = .ok v ↔ (∃ b, j = .bool b ∧ v = .bool b) ∨
      ∃ members s, j = .obj members ∧ read members = .ok s ∧ v = .schema s := by
  cases j with
  | obj members => simp [readNode_obj_eq_ok_iff]
  | num n => cases n <;> simp [readNode]
  | _ => simp [readNode, eq_comm]

/-- What is read as a node is read as an entry of a list. -/
theorem readEntry?_of_readNode {j : Json} {v : Value} (h : readNode j = .ok v) :
    Value.readEntry? j = some v := by
  rcases readNode_eq_ok_iff.1 h with ⟨b, rfl, rfl⟩ | ⟨members, s, rfl, hs, rfl⟩
  · rfl
  · exact Value.readEntry?_obj_eq_some_iff.2 ⟨s, hs, rfl⟩

/-! ## What the schema read from an object holds -/

variable {members : List (String × Json)} {s : Schema}

/-- The members that are no keyword are kept as they came. -/
theorem extra_of_read (h : read members = .ok s) : s.extra = unknown members := by
  rw [(read_eq_ok_iff.1 h).2]

/-- What the schema declares keeps the order of the keywords. -/
theorem declared_sublist_of_read (h : read members = .ok s) :
    (s.declared.map Prod.fst).Sublist Keyword.all := by
  rw [(read_eq_ok_iff.1 h).2]
  exact map_fst_filterMap_sublist (fun _ _ => fst_of_field?_eq_some) _

/-- No keyword is declared twice. -/
theorem nodup_declared_of_read (h : read members = .ok s) : (s.declared.map Prod.fst).Nodup :=
  (declared_sublist_of_read h).nodup Keyword.nodup_all

/-- A declared value is empty, or is read from a member that has the keyword's
name. -/
theorem empty_or_exists_of_mem_declared (h : read members = .ok s) {m : Keyword × Value}
    (hm : m ∈ s.declared) :
    m.2 = .data .null ∨
      ∃ j, (m.1.name, j) ∈ members ∧ Value.read? m.1.shape j = some m.2 := by
  rw [(read_eq_ok_iff.1 h).2] at hm
  obtain ⟨k, -, hk⟩ := List.mem_filterMap.1 hm
  cases hj : members.lookup k.name with
  | none =>
    rw [field?_of_lookup_eq_none hj] at hk
    split at hk
    · exact Option.some.inj hk ▸ .inl rfl
    · cases hk
  | some j =>
    rw [field?_of_lookup_eq_some hj] at hk
    obtain ⟨v, hv, rfl⟩ := Option.map_eq_some_iff.1 hk
    unfold Value.readGiven? at hv
    split at hv
    -- an empty value was given under the keyword
    · exact .inl (Option.some.inj hv).symm
    · exact .inr ⟨j, mem_of_lookup_eq_some hj, hv⟩

/-- The value of a keyword is its field's. -/
theorem value?_of_read (h : read members = .ok s) (k : Keyword) :
    s.value? k = (field? (Value.readFields members) (unknown members) k).map Prod.snd := by
  rw [(read_eq_ok_iff.1 h).2, value?]
  exact lookup_filterMap_key (fun _ _ => fst_of_field?_eq_some) (Keyword.mem_all k)

/-- **The value of a keyword that a member names is read from the member**,
and there is one. -/
theorem value?_of_lookup_eq_some (h : read members = .ok s) {k : Keyword} {j : Json}
    (hj : members.lookup k.name = some j) :
    ∃ v, Value.readGiven? k.shape j = some v ∧ s.value? k = some v := by
  rw [value?_of_read h, field?_of_lookup_eq_some hj]
  cases hv : Value.readGiven? k.shape j with
  | none =>
    -- then the keyword would have been refused, and the object with it
    have hmem : k ∈ refused (Value.readFields members) := mem_refused_iff.2 ⟨j, hj, hv⟩
    rw [(read_eq_ok_iff.1 h).1] at hmem
    cases hmem
  | some v => exact ⟨v, rfl, rfl⟩

/-- **A keyword that no member names is empty when its identifier is among the
other members**, and absent otherwise. -/
theorem value?_of_lookup_eq_none (h : read members = .ok s) {k : Keyword}
    (hk : members.lookup k.name = none) :
    s.value? k = if ((unknown members).lookup k.identifier).isSome then some (.data .null)
      else none := by
  rw [value?_of_read h, field?_of_lookup_eq_none hk]
  split <;> rfl

/-- Among the members that are no keyword, a keyword's name is not found. -/
theorem lookup_unknown_eq (members : List (String × Json)) (name : String) :
    (unknown members).lookup name =
      if (Keyword.ofName? name).isNone then members.lookup name else none :=
  lookup_filter_name (fun name => (Keyword.ofName? name).isNone) members name

/-- Any other name is looked up as among all members. -/
theorem lookup_unknown {name : String} (h : Keyword.ofName? name = none) :
    (unknown members).lookup name = members.lookup name := by
  rw [lookup_unknown_eq, h]
  rfl

end Schema

end SchemaProse
