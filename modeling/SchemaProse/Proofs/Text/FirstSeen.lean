import Mathlib.Data.List.Basic
/-!
# Text — the order in which items are first seen

A list without its repetitions has its items in the order in which they are
first seen (`pairwise_idxOf_eraseDups`), and it makes no difference whether
some of them are left out before or after (`eraseDups_filter`). Which items are
kept determines the list that has them in this order (`InFirstOrder.unique`).
-/

namespace SchemaProse

variable {α : Type} [BEq α] [LawfulBEq α]

/-- Items can be dropped before repetitions are. -/
theorem eraseDups_filter (p : α → Bool) (items : List α) :
    (items.filter p).eraseDups = items.eraseDups.filter p := by
  match items with
  | [] => rfl
  | item :: items =>
    have ih := eraseDups_filter p (items.filter fun other => !other == item)
    rw [List.eraseDups_cons, List.filter_cons, List.filter_cons, ← ih, List.filter_filter]
    by_cases hp : p item = true
    · rw [if_pos hp, if_pos hp, List.eraseDups_cons, List.filter_filter]
      simp only [Bool.and_comm]
    · rw [if_neg hp, if_neg hp]
      congr 1
      refine List.filter_congr fun other _ => ?_
      by_cases hother : other = item
      · simp [hother, hp]
      · simp [hother]
termination_by items.length
decreasing_by
  exact Nat.lt_succ_of_le (List.length_filter_le _ _)

/-- **Without repetitions, items stand in the order in which they are first
seen.** -/
theorem pairwise_idxOf_eraseDups (items : List α) :
    items.eraseDups.Pairwise fun a b => items.idxOf a < items.idxOf b := by
  induction items with
  | nil => simp
  | cons item items ih =>
    have hne : ∀ {a}, a ∈ items.eraseDups.filter (fun other => !other == item) → item ≠ a := by
      rintro a ha rfl
      simpa using (List.mem_filter.1 ha).2
    rw [List.eraseDups_cons, eraseDups_filter, List.pairwise_cons]
    refine ⟨fun a ha => ?_, (ih.filter _).imp_of_mem fun ha hb hab => ?_⟩
    · rw [List.idxOf_cons_self, List.idxOf_cons_ne items (hne ha)]
      exact Nat.succ_pos _
    · rw [List.idxOf_cons_ne items (hne ha), List.idxOf_cons_ne items (hne hb)]
      exact Nat.succ_lt_succ hab

/-- Items that are different stay as they are. -/
theorem eraseDups_of_nodup {items : List α} (h : items.Nodup) : items.eraseDups = items := by
  induction items with
  | nil => rfl
  | cons item items ih =>
    obtain ⟨hitem, hitems⟩ := List.nodup_cons.1 h
    have hothers : items.filter (fun other => !other == item) = items := by
      refine List.filter_eq_self.2 fun other hother => ?_
      have hne : other ≠ item := ne_of_mem_of_not_mem hother hitem
      simpa using hne
    rw [List.eraseDups_cons, hothers, ih hitems]

/-- An item that was seen before makes no difference. -/
theorem eraseDups_append_cons {before after : List α} {item : α} (h : item ∈ before) :
    (before ++ item :: after).eraseDups = (before ++ after).eraseDups := by
  have hseen : before.contains item = true := List.contains_iff_mem.2 h
  rw [List.eraseDups_append, List.eraseDups_append, List.cons_removeAll, hseen,
    if_neg Bool.noConfusion]

/-! ## Some of the items, in this order -/

/-- The result has the items that are kept, each once, in the order in which all
items are first seen. -/
structure InFirstOrder (keep : α → Prop) (items result : List α) : Prop where
  /-- No item is added, and none is dropped that is kept. -/
  mem_iff : ∀ a, a ∈ result ↔ a ∈ items ∧ keep a
  /-- What is first seen earlier stands earlier. -/
  order : result.Pairwise fun a b => items.idxOf a < items.idxOf b

namespace InFirstOrder

variable {keep : α → Prop} {items result other : List α}

omit [LawfulBEq α] in
theorem nodup (h : InFirstOrder keep items result) : result.Nodup :=
  h.order.imp fun hab heq => Nat.ne_of_lt hab (congrArg items.idxOf heq)

omit [LawfulBEq α] in
/-- **The items that are kept determine the result.** -/
theorem unique (h : InFirstOrder keep items result) (h' : InFirstOrder keep items other) :
    result = other := by
  have hperm : result.Perm other :=
    (List.perm_ext_iff_of_nodup h.nodup h'.nodup).2 fun a => (h.mem_iff a).trans (h'.mem_iff a).symm
  exact hperm.eq_of_pairwise (fun _ _ _ _ hab hba => absurd hab (Nat.lt_asymm hba)) h.order h'.order

/-- Items that are dropped can be dropped behind the repetitions. -/
theorem filter_eraseDups (p : α → Bool) (items : List α) :
    InFirstOrder (fun a => p a = true) items (items.eraseDups.filter p) where
  mem_iff a := by rw [List.mem_filter, List.mem_eraseDups]
  order := (pairwise_idxOf_eraseDups items).filter p

/-- Without its repetitions, a list has all its items. -/
theorem eraseDups (items : List α) : InFirstOrder (fun _ => True) items items.eraseDups where
  mem_iff a := by rw [List.mem_eraseDups, and_true]
  order := pairwise_idxOf_eraseDups items

end InFirstOrder

end SchemaProse
