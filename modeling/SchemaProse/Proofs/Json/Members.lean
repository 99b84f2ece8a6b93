import Mathlib.Data.List.Forall2
import Mathlib.Data.List.Nodup
import SchemaProse.Json.Basic
/-!
# Json — induction, and looking up members

`Json.ind` is the induction that reading follows: a fact of an array's items or
of an object's members carries to the array or the object. The rest is about
association lists. A look-up goes through a change of the values
(`lookup_map_value`), through a filter on the names (`lookup_filter_name`) and
through a list that is built key by key (`lookup_filterMap_key`), and a list
that keeps the order of its keys is rebuilt by looking each key up
(`filterMap_lookup_of_sublist`).
-/

namespace SchemaProse

/-- A fact that carries from the parts of a value to the value holds of every
value. -/
theorem Json.ind {P : Json → Prop} (null : P .null) (bool : ∀ b, P (.bool b))
    (num : ∀ n, P (.num n)) (str : ∀ s, P (.str s))
    (arr : ∀ items, (∀ j ∈ items, P j) → P (.arr items))
    (obj : ∀ members, (∀ m ∈ members, P m.2) → P (.obj members)) (j : Json) : P j :=
  @Json.rec P (fun items => ∀ j ∈ items, P j) (fun members => ∀ m ∈ members, P m.2)
    (fun m => P m.2) null bool num str arr obj (by simp)
    (fun _ _ head tail => List.forall_mem_cons.2 ⟨head, tail⟩) (by simp)
    (fun _ _ head tail => List.forall_mem_cons.2 ⟨head, tail⟩) (fun _ _ value => value) j

/-- What a list is related to item by item has only items of the relation. -/
theorem exists_mem_of_forall₂ {α β : Type} {R : α → β → Prop} {l : List α} {l' : List β}
    (h : List.Forall₂ R l l') {b : β} (hb : b ∈ l') : ∃ a ∈ l, R a b := by
  induction h with
  | nil => cases hb
  | cons hab _ ih =>
    rcases List.mem_cons.1 hb with rfl | hb'
    · exact ⟨_, List.mem_cons_self, hab⟩
    · obtain ⟨a, ha, hR⟩ := ih hb'
      exact ⟨a, List.mem_cons_of_mem _ ha, hR⟩

/-- Lists that are related item by item have the same image when related items
do. -/
theorem map_eq_map_of_forall₂ {α β γ : Type} {R : α → β → Prop} {f : α → γ} {g : β → γ}
    {l : List α} {l' : List β} (h : List.Forall₂ R l l')
    (hR : ∀ a ∈ l, ∀ b, R a b → g b = f a) : l'.map g = l.map f := by
  induction h with
  | nil => rfl
  | cons hab _ ih =>
    rw [List.map_cons, List.map_cons, hR _ List.mem_cons_self _ hab,
      ih fun a ha => hR a (List.mem_cons_of_mem _ ha)]

/-- Relations that follow one another item by item make one relation. -/
theorem forall₂_comp {α β γ : Type} {R : α → β → Prop} {S : β → γ → Prop} {T : α → γ → Prop}
    (hT : ∀ a b c, R a b → S b c → T a c) {l : List α} {l' : List β} {l'' : List γ}
    (h : List.Forall₂ R l l') (h' : List.Forall₂ S l' l'') : List.Forall₂ T l l'' := by
  induction h generalizing l'' with
  | nil => exact List.forall₂_nil_left_iff.2 (List.forall₂_nil_left_iff.1 h')
  | cons hab _ ih =>
    cases h' with
    | cons hbc h' => exact .cons (hT _ _ _ hab hbc) (ih h')

/-- Filters that agree on related items leave related items, which pass. -/
theorem forall₂_filter {α β : Type} {R : α → β → Prop} {p : α → Bool} {q : β → Bool}
    {l : List α} {l' : List β} (h : List.Forall₂ R l l') (hpq : ∀ a b, R a b → p a = q b) :
    List.Forall₂ (fun a b => R a b ∧ p a = true) (l.filter p) (l'.filter q) := by
  induction h with
  | nil => exact .nil
  | @cons a b l l' hab _ ih =>
    rw [List.filter_cons, List.filter_cons, ← hpq a b hab]
    split
    next hp => exact .cons ⟨hab, hp⟩ ih
    next => exact ih

/-- Images are the same item by item when a relation says whether two items
have the same image. -/
theorem map_eq_map_iff_forall₂ {α β : Type} {f : α → β} {R : α → α → Prop} {l l' : List α}
    (h : ∀ a ∈ l, ∀ b, f a = f b ↔ R a b) : l.map f = l'.map f ↔ List.Forall₂ R l l' := by
  induction l generalizing l' with
  | nil => cases l' <;> simp
  | cons a l ih =>
    cases l' with
    | nil => simp
    | cons b l' =>
      rw [List.map_cons, List.map_cons, List.cons_eq_cons, List.forall₂_cons,
        h a List.mem_cons_self, ih fun a ha => h a (List.mem_cons_of_mem _ ha)]

/-- A change of the values leaves the same lists of pairs when it leaves the
same values under the same names. -/
theorem map_value_eq_map_value_iff {α β γ : Type} {g : β → γ} {l l' : List (α × β)} :
    (l.map fun m => (m.1, g m.2)) = (l'.map fun m => (m.1, g m.2)) ↔
      l.map Prod.fst = l'.map Prod.fst ∧ (l.map Prod.snd).map g = (l'.map Prod.snd).map g := by
  induction l generalizing l' with
  | nil => cases l' <;> simp
  | cons m l ih =>
    cases l' with
    | nil => simp
    | cons m' l' =>
      simp only [List.map_cons, List.cons_eq_cons, Prod.mk.injEq, ih]
      exact and_and_and_comm

/-- Two optional values that are related are both absent or both there. -/
theorem eq_none_or_exists_of_rel {α β : Type} {R : α → β → Prop} {a : Option α} {b : Option β}
    (h : Option.Rel R a b) :
    (a = none ∧ b = none) ∨ ∃ x y, a = some x ∧ b = some y ∧ R x y := by
  cases h with
  | some hxy => exact .inr ⟨_, _, rfl, rfl, hxy⟩
  | none => exact .inl ⟨rfl, rfl⟩

section Lookup

variable {α β γ : Type} [BEq α] [LawfulBEq α]

/-- A key that is found is among the keys. -/
theorem mem_of_lookup_eq_some {l : List (α × β)} {a : α} {b : β} (h : l.lookup a = some b) :
    (a, b) ∈ l := by
  obtain ⟨l₁, l₂, rfl, -⟩ := List.lookup_eq_some_iff.1 h
  simp

/-- A key is found exactly when it is among the keys. -/
theorem lookup_isSome_iff_mem {l : List (α × β)} {a : α} :
    (l.lookup a).isSome = true ↔ a ∈ l.map Prod.fst := by
  induction l with
  | nil => simp
  | cons m l ih =>
    obtain ⟨a', b⟩ := m
    rw [List.lookup_cons, List.map_cons, List.mem_cons]
    by_cases h : a = a'
    · simp [h]
    · rw [beq_false_of_ne h, ih]
      simp [h]

/-- A key is not found exactly when it is not among the keys. -/
theorem lookup_eq_none_iff_notMem {l : List (α × β)} {a : α} :
    l.lookup a = none ↔ a ∉ l.map Prod.fst := by
  rw [← lookup_isSome_iff_mem, Option.not_isSome_iff_eq_none]

/-- Among distinct keys, a member is what its key is looked up as. -/
theorem lookup_eq_some_iff_mem {l : List (α × β)} (hl : (l.map Prod.fst).Nodup) {a : α} {b : β} :
    l.lookup a = some b ↔ (a, b) ∈ l := by
  refine ⟨mem_of_lookup_eq_some, fun h => ?_⟩
  induction l with
  | nil => cases h
  | cons m l ih =>
    obtain ⟨hm, hl'⟩ := List.nodup_cons.1 hl
    rcases List.mem_cons.1 h with rfl | h'
    · exact List.lookup_cons_self
    · have hne : a ≠ m.1 := fun e => hm (e ▸ List.mem_map_of_mem h')
      rw [List.lookup_cons, beq_false_of_ne hne, ih hl' h']

omit [BEq α] [LawfulBEq α] in
/-- Among distinct keys, a member's key is left by a filter exactly when the
member is. -/
theorem mem_map_fst_filter_iff {l : List (α × β)} (hl : (l.map Prod.fst).Nodup)
    {p : α × β → Bool} {m : α × β} (hm : m ∈ l) :
    m.1 ∈ (l.filter p).map Prod.fst ↔ p m = true := by
  rw [List.mem_map]
  constructor
  · rintro ⟨n, hn, hkey⟩
    obtain ⟨hn, hp⟩ := List.mem_filter.1 hn
    exact List.inj_on_of_nodup_map hl hn hm hkey ▸ hp
  · exact fun hp => ⟨m, List.mem_filter.2 ⟨hm, hp⟩, rfl⟩

/-- What a key is looked up as in one of two lists that are related member by
member is related to what it is looked up as in the other. -/
theorem exists_lookup_of_forall₂ {R : β → γ → Prop} {l : List (α × β)} {l' : List (α × γ)}
    (h : List.Forall₂ (fun m n => m.1 = n.1 ∧ R m.2 n.2) l l') {a : α} {b : β}
    (hb : l.lookup a = some b) : ∃ c, l'.lookup a = some c ∧ R b c := by
  induction h with
  | nil => cases hb
  | @cons m n l l' hmn _ ih =>
    obtain ⟨a', b'⟩ := m
    obtain ⟨a'', c⟩ := n
    obtain ⟨rfl, hR⟩ : a' = a'' ∧ R b' c := hmn
    rw [List.lookup_cons] at hb ⊢
    by_cases ha : a = a'
    · rw [beq_iff_eq.2 ha] at hb ⊢
      obtain rfl := Option.some.inj hb
      exact ⟨c, rfl, hR⟩
    · rw [beq_false_of_ne ha] at hb ⊢
      exact ih hb

/-- A change of the values, be it by the key, changes the value found. -/
theorem lookup_map_value (f : α → β → γ) (l : List (α × β)) (a : α) :
    (l.map fun m => (m.1, f m.1 m.2)).lookup a = (l.lookup a).map (f a) := by
  induction l with
  | nil => rfl
  | cons m l ih =>
    obtain ⟨a', b⟩ := m
    rw [List.map_cons, List.lookup_cons, List.lookup_cons, ih]
    by_cases h : a = a'
    · simp [h]
    · rw [beq_false_of_ne h]

/-- A change of the values that drops some members changes the value found, or
drops it, when no key is repeated. -/
theorem lookup_filterMap_value (f : β → Option γ) {l : List (α × β)}
    (hl : (l.map Prod.fst).Nodup) (a : α) :
    (l.filterMap fun m => (f m.2).map (m.1, ·)).lookup a = (l.lookup a).bind f := by
  induction l with
  | nil => rfl
  | cons m l ih =>
    obtain ⟨a', b⟩ := m
    obtain ⟨ha', hl'⟩ := List.nodup_cons.1 hl
    rw [List.filterMap_cons, List.lookup_cons]
    by_cases h : a = a'
    · subst h
      -- the key stands nowhere else, so nothing is found when its value is dropped
      have hnone : l.lookup a = none := lookup_eq_none_iff_notMem.2 ha'
      cases hb : f b with
      | none => simpa [hb, hnone] using ih hl'
      | some c => simp [hb]
    · rw [beq_false_of_ne h, ← ih hl']
      cases f b with
      | none => rfl
      | some c => rw [Option.map_some, List.lookup_cons, beq_false_of_ne h]

/-- A one-to-one change of the keys changes the key to look for. -/
theorem lookup_map_key {κ : Type} [BEq κ] [LawfulBEq κ] {f : κ → α} (hf : Function.Injective f)
    (g : β → γ) (l : List (κ × β)) (k : κ) :
    (l.map fun m => (f m.1, g m.2)).lookup (f k) = (l.lookup k).map g := by
  induction l with
  | nil => rfl
  | cons m l ih =>
    obtain ⟨k', b⟩ := m
    rw [List.map_cons, List.lookup_cons, List.lookup_cons, ih]
    by_cases h : k = k'
    · simp [h]
    · rw [beq_false_of_ne h, beq_false_of_ne fun e => h (hf e)]

/-- A filter on the names hides some of them and leaves the others as they
are. -/
theorem lookup_filter_name (p : α → Bool) (l : List (α × β)) (a : α) :
    (l.filter fun m => p m.1).lookup a = if p a then l.lookup a else none := by
  induction l with
  | nil => simp
  | cons m l ih =>
    obtain ⟨a', b⟩ := m
    rw [List.filter_cons, List.lookup_cons]
    by_cases h : a = a'
    · subst h
      cases hp : p a
      · simpa [hp] using ih
      · simp
    · rw [beq_false_of_ne h]
      cases hp : p a'
      · simpa using ih
      · simpa [List.lookup_cons, beq_false_of_ne h] using ih

/-- In a list that has been built key by key, a key has what was built for
it. -/
theorem lookup_filterMap_key {f : α → Option (α × β)} (hf : ∀ a m, f a = some m → m.1 = a)
    {l : List α} {a : α} (ha : a ∈ l) : (l.filterMap f).lookup a = (f a).map Prod.snd := by
  cases hfa : f a with
  | none =>
    refine lookup_eq_none_iff_notMem.2 fun hmem => ?_
    obtain ⟨m, hm, rfl⟩ := List.mem_map.1 hmem
    obtain ⟨a', -, hfm⟩ := List.mem_filterMap.1 hm
    rw [hf a' m hfm, hfm] at hfa
    cases hfa
  | some m =>
    induction l with
    | nil => cases ha
    | cons a' l ih =>
      rcases List.mem_cons.1 ha with rfl | hl
      · obtain ⟨_, b⟩ := m
        obtain rfl := hf a _ hfa
        rw [List.filterMap_cons_some hfa]
        simp
      · cases hfa' : f a' with
        | none => rw [List.filterMap_cons_none hfa', ih hl]
        | some m' =>
          obtain ⟨a'', b⟩ := m'
          obtain rfl := hf a' _ hfa'
          rw [List.filterMap_cons_some hfa', List.lookup_cons, ih hl]
          by_cases h : a = a''
          · subst h
            rw [hfa] at hfa'
            simp [Option.some.inj hfa']
          · rw [beq_false_of_ne h]

omit [BEq α] [LawfulBEq α] in
/-- The keys of a list that has been built key by key keep their order. -/
theorem map_fst_filterMap_sublist {f : α → Option (α × β)} (hf : ∀ a m, f a = some m → m.1 = a)
    (l : List α) : ((l.filterMap f).map Prod.fst).Sublist l := by
  induction l with
  | nil => exact List.Sublist.refl []
  | cons a l ih =>
    cases hfa : f a with
    | none =>
      rw [List.filterMap_cons_none hfa]
      exact ih.cons a
    | some m =>
      rw [List.filterMap_cons_some hfa, List.map_cons, hf a m hfa]
      exact ih.cons_cons a

/-- A list that keeps the order of its keys is rebuilt by looking each key
up. -/
theorem filterMap_lookup_of_sublist {l : List α} (hl : l.Nodup) {d : List (α × β)}
    (hd : (d.map Prod.fst).Sublist l) : l.filterMap (fun a => (d.lookup a).map (a, ·)) = d := by
  induction l generalizing d with
  | nil =>
    have hnil : d = [] := by simpa using hd
    rw [hnil, List.filterMap_nil]
  | cons a l ih =>
    obtain ⟨ha, hl'⟩ := List.nodup_cons.1 hl
    rcases List.sublist_cons_iff.1 hd with hd' | ⟨r, hr, hd'⟩
    · have hnone : d.lookup a = none :=
        lookup_eq_none_iff_notMem.2 fun hmem => ha (hd'.subset hmem)
      rw [List.filterMap_cons_none (by rw [hnone]; rfl)]
      exact ih hl' hd'
    · -- the first key of the list is the first key of `d`, and is looked up nowhere else
      obtain ⟨m, d', rfl, rfl, rfl⟩ := List.map_eq_cons_iff.1 hr
      rw [List.filterMap_cons_some (by rw [List.lookup_cons_self]; rfl)]
      have htail : ∀ a' ∈ l, ((m :: d').lookup a').map (a', ·) = (d'.lookup a').map (a', ·) := by
        intro a' ha'
        have hne : a' ≠ m.1 := fun e => ha (e ▸ ha')
        rw [List.lookup_cons, beq_false_of_ne hne]
      rw [List.filterMap_congr htail, ih hl' hd']

end Lookup

end SchemaProse
