import SchemaProse.Proofs.Json.Members
import SchemaProse.Proofs.Number.Exact
/-!
# Json — the compact text tells the value

A value's compact text says where it ends, whatever comma or closing bracket
follows it. Its first character tells the kind of the value
(`exists_compactChars_eq`); a number runs up to what follows, a character of a
string is read back from its escape (`character?_escape`), and the items of an
array or the members of an object are separated by commas. So two values with
the same compact text are the same (`compactChars_append_inj`), down to the
order of members and the kinds of numbers.
-/

namespace SchemaProse

namespace Json

/-! ## What may follow a value -/

/-- What may follow a value inside a text. -/
def valueEnds : List Char :=
  [',', ']', '}']

/-- A number ends before whatever may follow a value. -/
theorem notMem_valueEnds_of_mem_exactChars {n : Number} {c : Char} (h : c ∈ n.exactChars) :
    c ∉ valueEnds := by
  have hall : Number.exactAlphabet.all (fun c => decide (c ∉ valueEnds)) = true := by decide
  simpa using List.all_eq_true.1 hall c (Number.mem_exactAlphabet h)

/-! ## Strings -/

/-- The characters that are escaped by one letter, and the letter. -/
def letterEscapes : List (Char × Char) :=
  [('"', '"'), ('\\', '\\'), ('\n', 'n'), ('\r', 'r'), ('\t', 't'), ('\x08', 'b'), ('\x0c', 'f')]

/-- **The forms of an escape**: a letter behind a backslash, the code unit of a control
character, or the character itself. -/
theorem escape_cases (c : Char) :
    (∃ e, e ≠ 'u' ∧ unescape? e = some c ∧ escape c = ['\\', e]) ∨
      (c.toNat < 0x20 ∧ escape c =
        ['\\', 'u', '0', '0', hexDigit (c.toNat / 16), hexDigit (c.toNat % 16)]) ∨
      (c ≠ '"' ∧ c ≠ '\\' ∧ ¬ c.toNat < 0x20 ∧ escape c = [c]) := by
  have hletters : ∀ p ∈ letterEscapes,
      p.2 ≠ 'u' ∧ unescape? p.2 = some p.1 ∧ escape p.1 = ['\\', p.2] := by decide
  by_cases hletter : c ∈ letterEscapes.map Prod.fst
  · obtain ⟨⟨_, e⟩, hp, rfl⟩ := List.mem_map.1 hletter
    exact .inl ⟨e, hletters _ hp⟩
  · have hescape : escape c = if c.toNat < 0x20 then
        ['\\', 'u', '0', '0', hexDigit (c.toNat / 16), hexDigit (c.toNat % 16)] else [c] := by
      simp only [letterEscapes, List.map_cons, List.map_nil, List.mem_cons, List.not_mem_nil,
        or_false, not_or] at hletter
      obtain ⟨hquote, hbackslash, hn, hr, ht, hb, hf⟩ := hletter
      rw [escape, if_neg hquote, if_neg hbackslash, if_neg hn, if_neg hr, if_neg ht, if_neg hb,
        if_neg hf]
    by_cases hcontrol : c.toNat < 0x20
    · exact .inr (.inl ⟨hcontrol, by rw [hescape, if_pos hcontrol]⟩)
    · refine .inr (.inr ⟨?_, ?_, hcontrol, by rw [hescape, if_neg hcontrol]⟩)
      all_goals
        rintro rfl
        exact hletter (by decide)

/-- A control character is read back from its code unit. -/
theorem character?_control {k : ℕ} (hk : k < 0x20) (u : List Char) :
    character? ('\\' :: 'u' :: '0' :: '0' :: hexDigit (k / 16) :: hexDigit (k % 16) :: u) =
      some (Char.ofNat k, u) := by
  interval_cases k <;> rfl

/-- **A character is read back from its escape.** -/
theorem character?_escape (c : Char) (u : List Char) :
    character? (escape c ++ u) = some (c, u) := by
  rcases escape_cases c with ⟨e, hletter, hc, hescape⟩ | ⟨hcontrol, hescape⟩ |
    ⟨-, hbackslash, hplain, hescape⟩
  · rw [hescape]
    simp [character?, hc]
  · rw [hescape]
    have hread := character?_control hcontrol u
    rwa [Char.ofNat_toNat] at hread
  · rw [hescape]
    simp only [List.singleton_append, character?, if_neg hbackslash, if_neg hplain]

/-- No escape begins with the quote that closes a string. -/
theorem quote_ne_escape_append (c : Char) (u u' : List Char) : '"' :: u ≠ escape c ++ u' := by
  intro h
  have hread := character?_escape c u'
  rw [← h] at hread
  have hc : '"' = c := congrArg Prod.fst (Option.some.inj hread)
  rw [← hc] at h
  exact absurd (List.cons.inj h).1 (by decide)

/-- Escapes one after another up to the closing quote determine the string. -/
theorem escapes_append_inj {cs ds u u' : List Char}
    (h : cs.flatMap escape ++ '"' :: u = ds.flatMap escape ++ '"' :: u') : cs = ds ∧ u = u' := by
  induction cs generalizing ds with
  | nil =>
    cases ds with
    | nil => exact ⟨rfl, (List.cons.inj h).2⟩
    | cons d ds =>
      rw [List.flatMap_cons, List.append_assoc] at h
      exact absurd h (quote_ne_escape_append d _ _)
  | cons c cs ih =>
    cases ds with
    | nil =>
      rw [List.flatMap_cons, List.append_assoc] at h
      exact absurd h.symm (quote_ne_escape_append c _ _)
    | cons d ds =>
      rw [List.flatMap_cons, List.flatMap_cons, List.append_assoc, List.append_assoc] at h
      have hread := character?_escape c (cs.flatMap escape ++ '"' :: u)
      rw [h, character?_escape, Option.some.injEq, Prod.mk.injEq] at hread
      obtain ⟨rfl, hrest⟩ := hread
      obtain ⟨rfl, hu⟩ := ih hrest.symm
      exact ⟨rfl, hu⟩

/-- **A string determines itself and what follows it.** -/
theorem quoted_append_inj {s t : String} {u u' : List Char}
    (h : quoted s ++ u = quoted t ++ u') : s = t ∧ u = u' := by
  simp only [quoted, List.cons_append, List.append_assoc, List.nil_append, List.cons.injEq,
    true_and] at h
  obtain ⟨hst, hu⟩ := escapes_append_inj h
  exact ⟨String.toList_injective hst, hu⟩

/-! ## Items with commas between them -/

theorem compactItems_eq_map (items : List Json) : compactItems items = items.map compactChars := by
  induction items with
  | nil => rfl
  | cons j js ih => rw [compactItems, ih, List.map_cons]

/-- A member's compact text. -/
def memberChars (m : String × Json) : List Char :=
  quoted m.1 ++ ':' :: m.2.compactChars

theorem compactMembers_eq_map (members : List (String × Json)) :
    compactMembers members = members.map memberChars := by
  induction members with
  | nil => rfl
  | cons m ms ih => rw [compactMembers, ih, List.map_cons, memberChars]

/-- **Items with commas between them determine themselves**, when each item
does before what may follow it and none begins with the closing bracket. -/
theorem commas_append_inj {α : Type} {f : α → List Char} {close : Char}
    (hclose : close ∈ valueEnds) (hcomma : close ≠ ',') {xs ys : List α} {r r' : List Char}
    (hfirst : ∀ x u v, f x ++ u ≠ close :: v)
    (hf : ∀ x ∈ xs, ∀ y ∈ ys, ∀ u u', StartsIn valueEnds u → StartsIn valueEnds u' →
      f x ++ u = f y ++ u' → x = y ∧ u = u')
    (h : commas (xs.map f) ++ close :: r = commas (ys.map f) ++ close :: r') :
    xs = ys ∧ r = r' := by
  have hends : ∀ u, StartsIn valueEnds ([','] ++ u) := fun u => startsIn_cons.2 (by decide)
  cases xs with
  | nil =>
    cases ys with
    | nil => exact ⟨rfl, (List.cons.inj h).2⟩
    | cons y ys =>
      rw [List.map_cons, commas, commas, intercalate_cons, List.append_assoc] at h
      exact absurd h.symm (hfirst y _ _)
  | cons x xs =>
    cases ys with
    | nil =>
      rw [List.map_cons, commas, commas, intercalate_cons, List.append_assoc] at h
      exact absurd h (hfirst x _ _)
    | cons y ys =>
      rw [List.map_cons, List.map_cons, commas, commas, intercalate_cons, intercalate_cons,
        List.append_assoc, List.append_assoc, List.flatMap_map, List.flatMap_map] at h
      have hr : ∀ r, StartsIn valueEnds (close :: r) := fun r => startsIn_cons.2 hclose
      have hstop : ∀ r u, close :: r ≠ [','] ++ u := fun r u heq => hcomma (List.cons.inj heq).1
      obtain ⟨rfl, hrest⟩ := hf x List.mem_cons_self y List.mem_cons_self _ _
        (ends_separated_append hends (hr r)) (ends_separated_append hends (hr r')) h
      obtain ⟨rfl, hrr⟩ := separated_append_inj hends
        (fun x hx y hy => hf x (List.mem_cons_of_mem _ hx) y (List.mem_cons_of_mem _ hy))
        (hr r) (hr r') (fun y _ u => hstop r _) (fun x _ u => hstop r' _) hrest
      exact ⟨rfl, (List.cons.inj hrr).2⟩

/-! ## Values -/

/-- The kind of the values that begin with a character. -/
def initialKind (c : Char) : Kind :=
  if c = 'n' then .null
  else if c = 't' ∨ c = 'f' then .boolean
  else if c = '"' then .string
  else if c = '[' then .array
  else if c = '{' then .object
  else .number

/-- **The first character tells the kind**, and it is none that may follow a
value. -/
theorem exists_compactChars_eq (j : Json) : ∃ c cs, j.compactChars = c :: cs ∧
    initialKind c = j.kind ∧ c ∉ valueEnds := by
  match j with
  | .null => exact ⟨_, _, rfl, by decide, by decide⟩
  | .bool true => exact ⟨_, _, rfl, by decide, by decide⟩
  | .bool false => exact ⟨_, _, rfl, by decide, by decide⟩
  | .str s => exact ⟨_, _, rfl, rfl, by decide⟩
  | .arr items => exact ⟨_, _, rfl, rfl, by decide⟩
  | .obj members => exact ⟨_, _, rfl, rfl, by decide⟩
  | .num n =>
    obtain ⟨c, cs, hchars, hfirst⟩ := n.exists_exactChars_cons
    have hmem : c ∈ decimalDigits ++ ['-', 'N', 'I'] :=
      List.mem_append.2 (hfirst.imp mem_of_isDigit id)
    have hall : (decimalDigits ++ ['-', 'N', 'I']).all
        (fun c => initialKind c == .number && decide (c ∉ valueEnds)) = true := by decide
    have hc := List.all_eq_true.1 hall c hmem
    rw [Bool.and_eq_true, beq_iff_eq, decide_eq_true_eq] at hc
    exact ⟨c, cs, hchars, hc⟩

/-- Values whose texts begin alike are of one kind. -/
theorem kind_eq_of_append_eq {v w : Json} {r r' : List Char}
    (h : v.compactChars ++ r = w.compactChars ++ r') : v.kind = w.kind := by
  obtain ⟨c, cs, hv, hkind, -⟩ := v.exists_compactChars_eq
  obtain ⟨d, ds, hw, hkind', -⟩ := w.exists_compactChars_eq
  rw [hv, hw] at h
  rw [← hkind, ← hkind', (List.cons.inj h).1]

/-- No value begins with what may follow a value. -/
theorem compactChars_append_ne {close : Char} (hclose : close ∈ valueEnds) (j : Json)
    (u v : List Char) : j.compactChars ++ u ≠ close :: v := by
  obtain ⟨c, cs, hchars, -, hc⟩ := j.exists_compactChars_eq
  rw [hchars]
  intro h
  rw [(List.cons.inj h).1] at hc
  exact hc hclose

/-- A number determines itself and what follows it: it is the longest text without a
character that may follow a value. -/
theorem exactChars_append_inj {n n' : Number} {r r' : List Char} (hr : StartsIn valueEnds r)
    (hr' : StartsIn valueEnds r') (h : n.exactChars ++ r = n'.exactChars ++ r') :
    n = n' ∧ r = r' := by
  have hnumber : ∀ n : Number, ∀ c ∈ n.exactChars, decide (c ∉ valueEnds) = true :=
    fun n c hc => decide_eq_true (notMem_valueEnds_of_mem_exactChars hc)
  have hends : ∀ {u}, StartsIn valueEnds u → ∀ c ∈ u.head?, decide (c ∉ valueEnds) = false :=
    fun hu c hc => decide_eq_false (not_not_intro (hu c hc))
  obtain ⟨hnn, hrr⟩ := run_append_inj (hnumber n) (hnumber n') (hends hr) (hends hr') h
  exact ⟨Number.exactChars_injective hnn, hrr⟩

/-- A member determines itself and what follows it, when its value does. -/
theorem memberChars_append_inj {m m' : String × Json} {u u' : List Char}
    (hvalue : m.2.compactChars ++ u = m'.2.compactChars ++ u' → m.2 = m'.2 ∧ u = u')
    (h : memberChars m ++ u = memberChars m' ++ u') : m = m' ∧ u = u' := by
  rw [memberChars, memberChars, List.append_assoc, List.append_assoc] at h
  obtain ⟨hname, hrest⟩ := quoted_append_inj h
  obtain ⟨hj, hu⟩ := hvalue (List.cons.inj hrest).2
  exact ⟨Prod.ext hname hj, hu⟩

/-- **Compact texts determine their values and what follows them.** -/
theorem compactChars_append_inj {v w : Json} {r r' : List Char} (hr : StartsIn valueEnds r)
    (hr' : StartsIn valueEnds r') (h : v.compactChars ++ r = w.compactChars ++ r') :
    v = w ∧ r = r' := by
  have hkind := kind_eq_of_append_eq h
  induction v using Json.ind generalizing w r r' with
  | null =>
    cases w with
    | null => exact ⟨rfl, List.append_cancel_left h⟩
    | _ => cases hkind
  | bool b =>
    cases w with
    | bool b' =>
      cases b <;> cases b'
      · exact ⟨rfl, List.append_cancel_left h⟩
      · exact absurd (List.cons.inj h).1 (by decide)
      · exact absurd (List.cons.inj h).1 (by decide)
      · exact ⟨rfl, List.append_cancel_left h⟩
    | _ => cases hkind
  | num n =>
    cases w with
    | num n' =>
      obtain ⟨hnn, hrr⟩ := exactChars_append_inj hr hr' h
      exact ⟨congrArg num hnn, hrr⟩
    | _ => cases hkind
  | str s =>
    cases w with
    | str s' =>
      obtain ⟨hss, hrr⟩ := quoted_append_inj h
      exact ⟨congrArg str hss, hrr⟩
    | _ => cases hkind
  | arr items ih =>
    cases w with
    | arr items' =>
      simp only [compactChars, compactItems_eq_map, List.cons_append, List.append_assoc,
        List.nil_append, List.cons.injEq, true_and] at h
      obtain ⟨hitems, hrr⟩ := commas_append_inj (by decide) (by decide)
        (compactChars_append_ne (by decide)) (fun x hx y _ u u' hu hu' heq =>
          ih x hx hu hu' heq (kind_eq_of_append_eq heq)) h
      exact ⟨congrArg arr hitems, hrr⟩
    | _ => cases hkind
  | obj members ih =>
    cases w with
    | obj members' =>
      simp only [compactChars, compactMembers_eq_map, List.cons_append, List.append_assoc,
        List.nil_append, List.cons.injEq, true_and] at h
      have hfirst : ∀ (m : String × Json) u v, memberChars m ++ u ≠ '}' :: v :=
        fun m u v heq => absurd (List.cons.inj heq).1 (by decide)
      have hmember : ∀ m ∈ members, ∀ m' ∈ members', ∀ u u', StartsIn valueEnds u →
          StartsIn valueEnds u' → memberChars m ++ u = memberChars m' ++ u' → m = m' ∧ u = u' :=
        fun m hm m' _ u u' hu hu' heq => memberChars_append_inj
          (fun hvalue => ih m hm hu hu' hvalue (kind_eq_of_append_eq hvalue)) heq
      obtain ⟨hmembers, hrr⟩ := commas_append_inj (by decide) (by decide) hfirst hmember h
      exact ⟨congrArg obj hmembers, hrr⟩
    | _ => cases hkind

end Json

end SchemaProse
