import Mathlib.Data.List.Forall2
import Mathlib.Data.List.TakeWhile
/-!
# Text — parts that say where they end

A text that is put together from parts determines them when each part says
where it ends: a run of characters of one class by the first character that is
not of the class (`run_append_inj`), a list of items by a separator before each
of them (`separated_append_inj`). Items that are known to be related are then
cancelled one by one (`separated_append_cancel`). `Balanced` texts open and
close their angle brackets in pairs.
-/

namespace SchemaProse

/-- The text is empty or begins with one of the characters. -/
def StartsIn (delimiters : List Char) (r : List Char) : Prop :=
  ∀ c ∈ r.head?, c ∈ delimiters

section StartsIn

variable {delimiters : List Char} {c : Char} {r : List Char}

@[simp] theorem startsIn_nil : StartsIn delimiters [] := by
  simp [StartsIn]

@[simp] theorem startsIn_cons : StartsIn delimiters (c :: r) ↔ c ∈ delimiters := by
  simp [StartsIn]

theorem StartsIn.mono {delimiters' : List Char} (h : StartsIn delimiters r)
    (hsub : ∀ c ∈ delimiters, c ∈ delimiters') : StartsIn delimiters' r :=
  fun c hc => hsub c (h c hc)

end StartsIn

section Run

variable {p : Char → Bool} {w r : List Char}

/-- A run of characters of one class is taken as a whole. -/
theorem takeWhile_run_append (hw : ∀ c ∈ w, p c = true) (hr : ∀ c ∈ r.head?, p c = false) :
    (w ++ r).takeWhile p = w := by
  have hstop : r.takeWhile p = [] := by
    cases r with
    | nil => rfl
    | cons c r => exact List.takeWhile_cons_of_neg (by simp [hr c rfl])
  rw [List.takeWhile_append_of_pos hw, hstop, List.append_nil]

/-- And dropped as a whole. -/
theorem dropWhile_run_append (hw : ∀ c ∈ w, p c = true) (hr : ∀ c ∈ r.head?, p c = false) :
    (w ++ r).dropWhile p = r := by
  rw [List.dropWhile_append_of_pos hw]
  cases r with
  | nil => rfl
  | cons c r => exact List.dropWhile_cons_of_neg (by simp [hr c rfl])

/-- **A run of characters of one class determines itself and the rest**, when
what follows it is not of the class. -/
theorem run_append_inj {w' r' : List Char} (hw : ∀ c ∈ w, p c = true)
    (hw' : ∀ c ∈ w', p c = true) (hr : ∀ c ∈ r.head?, p c = false)
    (hr' : ∀ c ∈ r'.head?, p c = false) (h : w ++ r = w' ++ r') : w = w' ∧ r = r' := by
  have hww : w = w' := by
    rw [← takeWhile_run_append hw hr, h, takeWhile_run_append hw' hr']
  subst hww
  exact ⟨rfl, List.append_cancel_left h⟩

end Run

/-- The first of some texts stands alone, each of the others behind a
separator. -/
theorem intercalate_cons (sep t : List Char) (ts : List (List Char)) :
    sep.intercalate (t :: ts) = t ++ ts.flatMap fun u => sep ++ u := by
  induction ts generalizing t with
  | nil => rw [List.intercalate_singleton, List.flatMap_nil, List.append_nil]
  | cons u ts ih =>
    rw [List.intercalate_cons_cons, ih, List.flatMap_cons, List.append_assoc, List.append_assoc]

/-- What stands before items behind a separator ends there, when it does
before the separator and before what follows the items. -/
theorem ends_separated_append {α : Type} {f : α → List Char} {sep : List Char}
    {Ends : List Char → Prop} (hsep : ∀ u, Ends (sep ++ u)) {xs : List α} {r : List Char}
    (hr : Ends r) : Ends ((xs.flatMap fun x => sep ++ f x) ++ r) := by
  cases xs with
  | nil => exact hr
  | cons x xs =>
    rw [List.flatMap_cons, List.append_assoc, List.append_assoc]
    exact hsep _

/-- **Items behind a separator determine themselves and the rest**, when each
item does before what may follow it, and the rest is not another item. -/
theorem separated_append_inj {α : Type} {f : α → List Char} {sep : List Char}
    {Ends : List Char → Prop} (hsep : ∀ u, Ends (sep ++ u)) {xs ys : List α} {r r' : List Char}
    (hf : ∀ x ∈ xs, ∀ y ∈ ys, ∀ u u', Ends u → Ends u' → f x ++ u = f y ++ u' → x = y ∧ u = u')
    (hr : Ends r) (hr' : Ends r') (hstop : ∀ y ∈ ys, ∀ u, r ≠ sep ++ (f y ++ u))
    (hstop' : ∀ x ∈ xs, ∀ u, r' ≠ sep ++ (f x ++ u))
    (h : (xs.flatMap fun x => sep ++ f x) ++ r = (ys.flatMap fun y => sep ++ f y) ++ r') :
    xs = ys ∧ r = r' := by
  induction xs generalizing ys with
  | nil =>
    cases ys with
    | nil => exact ⟨rfl, h⟩
    | cons y ys =>
      rw [List.flatMap_nil, List.nil_append, List.flatMap_cons, List.append_assoc,
        List.append_assoc] at h
      exact absurd h (hstop y List.mem_cons_self _)
  | cons x xs ih =>
    cases ys with
    | nil =>
      rw [List.flatMap_nil, List.nil_append, List.flatMap_cons, List.append_assoc,
        List.append_assoc] at h
      exact absurd h.symm (hstop' x List.mem_cons_self _)
    | cons y ys =>
      rw [List.flatMap_cons, List.flatMap_cons, List.append_assoc, List.append_assoc,
        List.append_assoc, List.append_assoc] at h
      obtain ⟨hxy, hrest⟩ := hf x List.mem_cons_self y List.mem_cons_self _ _
        (ends_separated_append hsep hr) (ends_separated_append hsep hr')
        (List.append_cancel_left h)
      obtain ⟨hxsys, hrr⟩ := ih
        (fun x hx y hy => hf x (List.mem_cons_of_mem _ hx) y (List.mem_cons_of_mem _ hy))
        (fun y hy => hstop y (List.mem_cons_of_mem _ hy))
        (fun x hx => hstop' x (List.mem_cons_of_mem _ hx)) hrest
      exact ⟨by rw [hxy, hxsys], hrr⟩

/-- **Related items behind a separator are cancelled one by one**, when each
item is before what may follow it; `S` is what is left of the relation. -/
theorem separated_append_cancel {α β : Type} {R S : α → β → Prop} {f : α → List Char}
    {g : β → List Char} {sep : List Char} {Ends : List Char → Prop} (hsep : ∀ u, Ends (sep ++ u))
    {xs : List α} {ys : List β} {r r' : List Char} (hxy : List.Forall₂ R xs ys)
    (hf : ∀ x ∈ xs, ∀ y, R x y → ∀ u u', Ends u → Ends u' → f x ++ u = g y ++ u' → S x y ∧ u = u')
    (hr : Ends r) (hr' : Ends r')
    (h : (xs.flatMap fun x => sep ++ f x) ++ r = (ys.flatMap fun y => sep ++ g y) ++ r') :
    List.Forall₂ S xs ys ∧ r = r' := by
  induction hxy with
  | nil => exact ⟨.nil, h⟩
  | @cons x y xs ys hR hxy ih =>
    rw [List.flatMap_cons, List.flatMap_cons, List.append_assoc, List.append_assoc,
      List.append_assoc, List.append_assoc] at h
    obtain ⟨hS, hrest⟩ := hf x List.mem_cons_self y hR _ _ (ends_separated_append hsep hr)
      (ends_separated_append hsep hr') (List.append_cancel_left h)
    obtain ⟨hSs, hrr⟩ := ih (fun x hx => hf x (List.mem_cons_of_mem _ hx)) hrest
    exact ⟨.cons hS hSs, hrr⟩

/-! ## Brackets -/

/-- Every angle bracket that the text opens it closes again, and no other. -/
inductive Balanced : List Char → Prop
  /-- A text without angle brackets. -/
  | plain {cs : List Char} : '<' ∉ cs → '>' ∉ cs → Balanced cs
  /-- A balanced text in brackets. -/
  | bracketed {cs : List Char} : Balanced cs → Balanced ('<' :: (cs ++ ['>']))
  /-- One balanced text after another. -/
  | append {cs ds : List Char} : Balanced cs → Balanced ds → Balanced (cs ++ ds)

/-- Balanced texts one after another are balanced. -/
theorem Balanced.flatMap {α : Type} {f : α → List Char} {xs : List α}
    (h : ∀ x ∈ xs, Balanced (f x)) : Balanced (xs.flatMap f) := by
  induction xs with
  | nil => exact .plain (by simp) (by simp)
  | cons x xs ih =>
    rw [List.flatMap_cons]
    exact .append (h x List.mem_cons_self) (ih fun y hy => h y (List.mem_cons_of_mem _ hy))

end SchemaProse
