import SchemaProse.Proofs.Reading.RoundTrip
import SchemaProse.Proofs.Reading.Tidy
/-!
# Schema — documents of a schema

Members *spell* a schema when they are its written form but for the order of
the keywords. A well-formed schema is read from any members that spell it
(`Spells.read`), and is written as those members arranged
(`Spells.written_eq`). Giving a keyword another value is the same thing done to
the members and to the schema (`Spells.put`), so a document that is edited as
an object may be followed as a schema.
-/

namespace SchemaProse

/-- Gives a member a value: in the place of the member that has the name, or
behind the others. -/
def Json.putMember (name : String) (j : Json) : List (String × Json) → List (String × Json)
  | [] => [(name, j)]
  | (n, i) :: ms => if n = name then (n, j) :: ms else (n, i) :: putMember name j ms

namespace Json

variable (name : String) (j : Json) (ms : List (String × Json))

/-- The name then has the value, and every other name the value that it had. -/
theorem lookup_putMember (n : String) :
    (putMember name j ms).lookup n = if n = name then some j else ms.lookup n := by
  induction ms with
  | nil =>
    rw [putMember, List.lookup_cons]
    by_cases h : n = name
    · simp [h]
    · simp [h, beq_false_of_ne h]
  | cons m ms ih =>
    obtain ⟨n', i⟩ := m
    rw [putMember]
    by_cases hname : n' = name
    · subst hname
      by_cases h : n = n'
      · simp [h]
      · simp [h, List.lookup_cons, beq_false_of_ne h]
    · by_cases h : n = n'
      · subst h
        simp [hname]
      · simp [hname, List.lookup_cons, beq_false_of_ne h, ih]

/-- The members that are no keyword stay as they are when the name is a
keyword's. -/
theorem unknown_putMember (k : Keyword) :
    Schema.unknown (putMember k.name j ms) = Schema.unknown ms := by
  have hk : (Keyword.ofName? k.name).isNone = false := by rw [Keyword.ofName?_name]; rfl
  induction ms with
  | nil => simp [putMember, Schema.unknown, hk]
  | cons m ms ih =>
    obtain ⟨n, i⟩ := m
    rw [putMember]
    by_cases h : n = k.name
    · subst h
      simp [Schema.unknown, hk]
    · rw [if_neg h]
      simp only [Schema.unknown, List.filter_cons] at ih ⊢
      rw [ih]

/-- Giving a member a value adds its name when it is not there. -/
theorem map_fst_putMember :
    (putMember name j ms).map Prod.fst =
      if name ∈ ms.map Prod.fst then ms.map Prod.fst else ms.map Prod.fst ++ [name] := by
  induction ms with
  | nil => rfl
  | cons m ms ih =>
    obtain ⟨n, i⟩ := m
    rw [putMember]
    by_cases h : n = name
    · simp [h]
    · rw [if_neg h, List.map_cons, ih, List.map_cons]
      by_cases hname : name ∈ ms.map Prod.fst
      · simp [hname]
      · have hname' : name ∉ n :: ms.map Prod.fst := by simp [Ne.symm h, hname]
        rw [if_neg hname, if_neg hname', List.cons_append]

/-- A member is the one that was put in, or was there before. -/
theorem eq_or_mem_of_mem_putMember {name : String} {j : Json} {ms : List (String × Json)}
    {m : String × Json} (h : m ∈ putMember name j ms) : m = (name, j) ∨ m ∈ ms := by
  induction ms with
  | nil => exact .inl (List.mem_singleton.1 h)
  | cons n ms ih =>
    rw [putMember] at h
    split at h
    next hname =>
      rcases List.mem_cons.1 h with rfl | hm
      · exact .inl (Prod.ext hname rfl)
      · exact .inr (List.mem_cons_of_mem _ hm)
    next =>
      rcases List.mem_cons.1 h with rfl | hm
      · exact .inr List.mem_cons_self
      · exact (ih hm).imp_right (List.mem_cons_of_mem _)

end Json

namespace Schema

/-! ## Reading and arranging look keywords up -/

/-- Arranging changes no look-up. -/
theorem lookup_arranged (members : List (String × Json)) (name : String) :
    (arranged members).lookup name = members.lookup name := by
  rw [arranged, List.lookup_append, lookup_unknown_eq]
  cases hname : Keyword.ofName? name with
  | none =>
    -- the first part has names of keywords only
    have hknown : (Keyword.all.filterMap fun k =>
        (members.lookup k.name).map (k.name, ·)).lookup name = none := by
      rw [lookup_eq_none_iff_notMem, List.mem_map]
      rintro ⟨m, hm, rfl⟩
      obtain ⟨k, -, hk⟩ := List.mem_filterMap.1 hm
      obtain ⟨j, -, rfl⟩ := Option.map_eq_some_iff.1 hk
      exact Keyword.ofName?_eq_none_iff.1 hname k rfl
    rw [hknown]
    simp
  | some k =>
    obtain rfl := Keyword.ofName?_eq_some_iff.1 hname
    have hknown : (Keyword.all.filterMap fun k =>
        (members.lookup k.name).map (k.name, ·)).lookup k.name = members.lookup k.name := by
      have hkeys := lookup_map_key Keyword.name_injective id
        (Keyword.all.filterMap fun k => (members.lookup k.name).map (k, ·)) k
      rw [lookup_filterMap_key ?_ (Keyword.mem_all k), List.map_filterMap] at hkeys
      · simpa [Function.comp_def] using hkeys
      · intro k m hm
        obtain ⟨j, -, rfl⟩ := Option.map_eq_some_iff.1 hm
        rfl
    rw [hknown]
    simp

variable {members members' : List (String × Json)}

/-- What is arranged depends on the look-ups of keywords and on the other
members; a part of it, chosen by name, on the look-ups of the names chosen. -/
theorem filter_arranged_congr (p : String → Bool)
    (hlookup : ∀ k : Keyword, p k.name = true → members.lookup k.name = members'.lookup k.name)
    (hunknown : unknown members = unknown members') :
    (arranged members).filter (fun m => p m.1) = (arranged members').filter fun m => p m.1 := by
  rw [arranged, arranged, List.filter_append, List.filter_append, hunknown,
    List.filter_filterMap, List.filter_filterMap]
  congr 1
  refine List.filterMap_congr fun k _ => ?_
  cases hp : p k.name with
  | true => rw [hlookup k hp]
  | false =>
    have hdropped : ∀ j : Option Json,
        Option.filter (fun m => p m.1) (j.map (k.name, ·)) = none := by
      intro j
      cases j <;> simp [hp]
    rw [hdropped, hdropped]

/-- What is arranged depends on the look-ups of keywords and on the other
members. -/
theorem arranged_congr (hlookup : ∀ k : Keyword, members.lookup k.name = members'.lookup k.name)
    (hunknown : unknown members = unknown members') : arranged members = arranged members' := by
  have hall := filter_arranged_congr (fun _ => true) (fun k _ => hlookup k) hunknown
  simpa using hall

/-- And so does what is read. -/
theorem read_congr (hlookup : ∀ k : Keyword, members.lookup k.name = members'.lookup k.name)
    (hunknown : unknown members = unknown members') : read members = read members' := by
  have hreadings : ∀ k : Keyword,
      (Value.readFields members).lookup k = (Value.readFields members').lookup k := by
    intro k
    rw [Value.lookup_readFields, Value.lookup_readFields, hlookup]
  have hrefused : refused (Value.readFields members) = refused (Value.readFields members') :=
    List.filter_congr fun k _ => by rw [hreadings]
  have hfield : field? (Value.readFields members) = field? (Value.readFields members') := by
    funext extra k
    rw [field?, field?, hreadings]
  rw [read, read, assemble, assemble, hrefused, hfield, hunknown]

/-! ## Members that spell a schema -/

/-- The members are the schema's written form, its keywords in any order. -/
structure Spells (members : List (String × Json)) (s : Schema) : Prop where
  /-- Each keyword has its written value. -/
  lookup_eq : ∀ k : Keyword, members.lookup k.name = (s.value? k).map Value.toJson
  /-- The members that are no keyword are the schema's, in their order. -/
  unknown_eq : unknown members = s.extra

variable {s : Schema} {k : Keyword} {v : Value}

/-- The written form spells the schema. -/
theorem spells_written (hwf : s.WellFormed) : Spells s.written s where
  lookup_eq := lookup_written hwf
  unknown_eq := unknown_written hwf

/-- **A schema is read from any members that spell it.** -/
theorem Spells.read (h : Spells members s) (hwf : s.WellFormed) : read members = .ok s := by
  have hwritten := spells_written hwf
  rw [← read_written hwf]
  refine read_congr (fun k => ?_) ?_
  · rw [h.lookup_eq, hwritten.lookup_eq]
  · rw [h.unknown_eq, hwritten.unknown_eq]

/-- The written form is arranged already. -/
theorem arranged_written (hwf : s.WellFormed) : arranged s.written = s.written := by
  have hdeclared : Keyword.all.filterMap (fun k => (s.value? k).map (k, ·)) = s.declared :=
    filterMap_lookup_of_sublist Keyword.nodup_all hwf.order
  have hknown : (Keyword.all.filterMap fun k => (s.written.lookup k.name).map (k.name, ·)) =
      s.declared.map fun m => (m.1.name, m.2.toJson) := by
    rw [← hdeclared, List.map_filterMap]
    simp only [lookup_written hwf, Option.map_map, Function.comp_def]
  rw [arranged, hknown, unknown_written hwf, written]

/-- **And it is written as those members, arranged.** -/
theorem Spells.written_eq (h : Spells members s) (hwf : s.WellFormed) :
    s.written = arranged members := by
  have hwritten := spells_written hwf
  rw [← arranged_written hwf]
  refine arranged_congr (fun k => ?_) ?_
  · rw [h.lookup_eq, hwritten.lookup_eq]
  · rw [h.unknown_eq, hwritten.unknown_eq]

/-! ## Giving a keyword another value -/

/-- What is held under a keyword then is held under that keyword. -/
theorem fst_of_setField_eq_some {k' : Keyword} {m : Keyword × Value}
    (h : (if k' = k then some (k, v) else (s.value? k').map (k', ·)) = some m) : m.1 = k' := by
  split at h
  next hk => exact Option.some.inj h ▸ hk.symm
  next =>
    obtain ⟨w, -, rfl⟩ := Option.map_eq_some_iff.1 h
    rfl

/-- The keyword then has the value, and every other keyword the value that it
had. -/
theorem value?_set (s : Schema) (k : Keyword) (v : Value) (k' : Keyword) :
    (s.set k v).value? k' = if k' = k then some v else s.value? k' := by
  rw [set, value?, lookup_filterMap_key (fun _ _ => fst_of_setField_eq_some) (Keyword.mem_all k')]
  split
  · rfl
  · simp [Function.comp_def]

/-- Putting a member in is giving the keyword a value. -/
theorem Spells.put (h : Spells members s) (k : Keyword) (v : Value) :
    Spells (Json.putMember k.name v.toJson members) (s.set k v) where
  lookup_eq k' := by
    rw [Json.lookup_putMember, value?_set, h.lookup_eq]
    by_cases hk : k' = k
    · simp [hk]
    · have hname : k'.name ≠ k.name := fun e => hk (Keyword.name_injective e)
      rw [if_neg hname, if_neg hk]
  unknown_eq := by
    rw [Json.unknown_putMember, h.unknown_eq]
    rfl

/-- A schema stays well formed when a keyword is given a value that fits. -/
theorem WellFormed.set (hwf : s.WellFormed) (hv : v.Fits k.shape) : (s.set k v).WellFormed := by
  have horder : ((s.set k v).declared.map Prod.fst).Sublist Keyword.all :=
    map_fst_filterMap_sublist (fun _ _ => fst_of_setField_eq_some) _
  refine .intro horder ?_ hwf.other fun k' hk' => ?_
  · intro m hm
    obtain ⟨k', -, hk'⟩ := List.mem_filterMap.1 hm
    split at hk'
    · exact Option.some.inj hk' ▸ hv
    · obtain ⟨w, hw, rfl⟩ := Option.map_eq_some_iff.1 hk'
      exact hwf.fits _ (mem_of_lookup_eq_some hw)
  · -- a keyword that the schema carried is carried still
    have hcarried : s.carries k' = true := carries_iff_mem.2 (hwf.carried hk')
    refine carries_iff_mem.1 (show (s.set k v).carries k' = true from ?_)
    rw [carries, value?_set]
    split
    · rfl
    · exact hcarried

end Schema

end SchemaProse
