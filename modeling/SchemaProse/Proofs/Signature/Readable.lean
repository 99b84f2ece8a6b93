import SchemaProse.Proofs.Signature.WellMade
/-!
# Signature — the text of a signature can be read back

The text of a well-made signature says where it ends: it opens with a run of
letters, which tells its form, and what may follow it is a comma or a closing
bracket. So the text determines the signature (`WellMade.text_injective`), at
every depth, although bars, commas, brackets and the names of the combinators
are the same on all levels.
-/

namespace SchemaProse

namespace Signature

/-! ## What follows a text -/

/-- No delimiter is a letter. -/
theorem isAlpha_eq_false_of_startsIn {r : List Char} (hr : StartsIn ['<', ',', '>', ' '] r) :
    ∀ c ∈ r.head?, c.isAlpha = false := by
  have hdelimiters : ['<', ',', '>', ' '].any Char.isAlpha = false := by decide
  intro c hc
  simpa using List.any_eq_false.1 hdelimiters c (hr c hc)

/-- Two names of combinators, or none, behind unions. -/
theorem combinatorChars_append_inj {c c' : Option Combinator} {r r' : List Char}
    (hr : StartsIn [',', '>'] r) (hr' : StartsIn [',', '>'] r')
    (h : combinatorChars c ++ r = combinatorChars c' ++ r') : c = c' ∧ r = r' := by
  have hnone : ∀ {c : Combinator} {u v : List Char}, StartsIn [',', '>'] u →
      u ≠ combinatorChars (some c) ++ v := by
    rintro c u v hu rfl
    simp [combinatorChars] at hu
  cases c with
  | none =>
    cases c' with
    | none => exact ⟨rfl, h⟩
    | some c' => exact absurd h (hnone hr)
  | some c =>
    cases c' with
    | none => exact absurd h.symm (hnone hr')
    | some c' =>
      have halpha : ∀ c : Combinator, ∀ x ∈ c.name.toList, x.isAlpha = true := by
        intro c
        rw [← List.all_eq_true]
        cases c <;> decide +kernel
      have hname : ∀ c c' : Combinator, c.name = c'.name → c = c' := by
        intro c c'
        cases c <;> cases c' <;> decide +kernel
      rw [combinatorChars, combinatorChars, List.cons_append, List.cons_append] at h
      obtain ⟨hnames, hrest⟩ := run_append_inj (halpha c) (halpha c')
        (isAlpha_eq_false_of_startsIn (hr.mono (by simp)))
        (isAlpha_eq_false_of_startsIn (hr'.mono (by simp))) (List.cons.inj h).2
      exact ⟨congrArg some (hname c c' (String.toList_inj.1 hnames)), hrest⟩

/-- What stands behind a union, and behind each of its members. -/
theorem startsIn_combinatorChars_append (c : Option Combinator) {r : List Char}
    (hr : StartsIn [',', '>'] r) : StartsIn [',', '>', ' '] (combinatorChars c ++ r) := by
  cases c with
  | none => exact hr.mono (by simp)
  | some c => simp [combinatorChars]

theorem startsIn_members_append (ms : List Member) (c : Option Combinator) {r : List Char}
    (hr : StartsIn [',', '>'] r) :
    StartsIn [',', '>', ' ']
      ((ms.flatMap fun m => bar ++ m.text.toList) ++ (combinatorChars c ++ r)) :=
  ends_separated_append (fun u => by simp [bar_append]) (startsIn_combinatorChars_append c hr)

/-- What stands behind each element of a tuple. -/
theorem startsIn_tailChars_append (tail : Option Signature) (r : List Char) :
    StartsIn [',', '>'] (tailChars tail ++ '>' :: r) := by
  cases tail with
  | none => simp [tailChars]
  | some s => simp [tailChars, comma_append]

theorem startsIn_others_append (others : List Signature) (tail : Option Signature)
    (r : List Char) :
    StartsIn [',', '>']
      ((others.flatMap fun s => Signature.comma ++ s.chars) ++ (tailChars tail ++ '>' :: r)) :=
  ends_separated_append (fun u => by simp [comma_append]) (startsIn_tailChars_append tail r)

/-! ## Reading back -/

/-- The text of the signature says where it ends, and which signature it is of,
before a comma and before a closing bracket. -/
def Readable (s : Signature) : Prop :=
  ∀ t : Signature, t.WellMade → t.isBlank = false → ∀ r r' : List Char, StartsIn [',', '>'] r →
    StartsIn [',', '>'] r' → s.chars ++ r = t.chars ++ r' → s = t ∧ r = r'

/-- The word of a single-word signature opens no union with members. -/
theorem readable_of_mem_singleWords {s : Signature} (hs : s ∈ singleWords) : s.Readable := by
  intro t ht hblank r r' hr hr' h
  have hstop := isAlpha_eq_false_of_startsIn (hr.mono (by simp))
  rcases mem_singleWords_or_union hblank with hword | ⟨m, ms, c, rfl⟩
  · obtain ⟨htext, hrest⟩ := run_append_inj (isAlpha_of_mem_singleWords s hs)
      (isAlpha_of_mem_singleWords t hword) hstop
      (isAlpha_eq_false_of_startsIn (hr'.mono (by simp))) h
    exact ⟨eq_of_mem_singleWords hs hword (String.toList_inj.1 htext), hrest⟩
  · have hm := (ht.members m List.mem_cons_self).isNamed
    have hword := Member.word_mem_words hm
    rw [chars_union_cons hm, Member.toList_text, List.append_assoc, List.append_assoc,
      List.append_assoc] at h
    have hbrackets := Member.startsIn_brackets_append (m := m) (startsIn_members_append ms c hr')
    obtain ⟨htext, -⟩ := run_append_inj (isAlpha_of_mem_singleWords s hs)
      (Member.isAlpha_of_mem_words _ hword) hstop (isAlpha_eq_false_of_startsIn hbrackets) h
    rw [← String.toList_inj.1 htext] at hword
    exact absurd hword (text_notMem_words s hs)

/-- The tail of a tuple is not another of its elements: it begins with dots. -/
theorem tailChars_append_ne {tail : Option Signature} {e : Signature} (he : e.WellMade)
    (hshown : e.isBlank = false) (r u : List Char) :
    tailChars tail ++ '>' :: r ≠ comma ++ (e.chars ++ u) := by
  intro h
  cases tail with
  | none => simp [tailChars, comma_append] at h
  | some t =>
    obtain ⟨c, cs, hchars, hletter⟩ := he.exists_letter hshown
    rw [tailChars_some_append, hchars, dots_eq_cons] at h
    have hdot : '.' = c := by simpa using congrArg List.head? (List.append_cancel_left h)
    rw [← hdot] at hletter
    exact absurd hletter (by decide)

/-- Two tails of tuples, or none, before the closing bracket. -/
theorem tailChars_append_inj {tail tail' : Option Signature} {r r' : List Char}
    (hread : ∀ e ∈ tail, e.Readable) (hwell : ∀ e ∈ tail', e.WellMade)
    (hshown : ∀ e ∈ tail', e.isBlank = false)
    (h : tailChars tail ++ '>' :: r = tailChars tail' ++ '>' :: r') : tail = tail' ∧ r = r' := by
  have hnone : ∀ {e : Signature} {u v : List Char}, '>' :: u ≠ tailChars (some e) ++ v := by
    intro e u v
    simp [tailChars_some_append, comma_append]
  cases tail with
  | none =>
    cases tail' with
    | none => exact ⟨rfl, (List.cons.inj h).2⟩
    | some e' => exact absurd h hnone
  | some e =>
    cases tail' with
    | none => exact absurd h.symm hnone
    | some e' =>
      rw [tailChars_some_append, tailChars_some_append] at h
      obtain ⟨rfl, hrest⟩ := hread e rfl e' (hwell e' rfl) (hshown e' rfl) _ _
        (startsIn_cons.2 (by simp)) (startsIn_cons.2 (by simp))
        (List.append_cancel_left (List.append_cancel_left h))
      exact ⟨rfl, (List.cons.inj (List.cons.inj hrest).2).2⟩

end Signature

namespace Member

/-- An array's brackets. -/
theorem array_append_inj {e e' : Signature} (he' : (array e').WellMade) (hread : e.Readable)
    {r r' : List Char} (h : (array e).brackets ++ r = (array e').brackets ++ r') :
    array e = array e' ∧ r = r' := by
  simp only [brackets, List.cons_append, List.append_assoc, List.nil_append, List.cons.injEq,
    true_and] at h
  obtain ⟨rfl, hrest⟩ := hread e' (he'.elements e' (by simp [elements]))
    (he'.shown e' (by simp [elements])) _ _ (startsIn_cons.2 (by simp)) (startsIn_cons.2 (by simp))
    h
  exact ⟨rfl, (List.cons.inj hrest).2⟩

/-- A tuple's brackets. -/
theorem tuple_append_inj {first first' : Signature} {others others' : List Signature}
    {tail tail' : Option Signature} (hm : (tuple first others tail).WellMade)
    (hm' : (tuple first' others' tail').WellMade)
    (hread : ∀ e ∈ (tuple first others tail).elements, e.Readable) {r r' : List Char}
    (h : (tuple first others tail).brackets ++ r = (tuple first' others' tail').brackets ++ r') :
    tuple first others tail = tuple first' others' tail' ∧ r = r' := by
  simp only [brackets, List.cons_append, List.append_assoc, List.nil_append, List.cons.injEq,
    true_and] at h
  simp only [elements, List.forall_mem_cons, List.forall_mem_append] at hread
  obtain ⟨hfirst, hothers, htail⟩ := hread
  have hwell := hm.elements
  have hwell' := hm'.elements
  have hshown := hm.shown
  have hshown' := hm'.shown
  simp only [elements, List.forall_mem_cons, List.forall_mem_append] at hwell hwell' hshown hshown'
  obtain ⟨rfl, hbehind⟩ := hfirst first' hwell'.1 hshown'.1 _ _
    (Signature.startsIn_others_append others tail r)
    (Signature.startsIn_others_append others' tail' r') h
  obtain ⟨rfl, hclosing⟩ := separated_append_inj (fun u => by simp [Signature.comma_append])
    (fun e he e' he' => hothers e he e' (hwell'.2.1 e' he') (hshown'.2.1 e' he'))
    (Signature.startsIn_tailChars_append tail r) (Signature.startsIn_tailChars_append tail' r')
    (fun e' he' => Signature.tailChars_append_ne (hwell'.2.1 e' he') (hshown'.2.1 e' he') r)
    (fun e he => Signature.tailChars_append_ne (hwell.2.1 e he) (hshown.2.1 e he) r') hbehind
  obtain ⟨rfl, hrest⟩ := Signature.tailChars_append_inj
    (fun e he => htail e (by simpa using he)) (fun e he => hwell'.2.2 e (by simpa using he))
    (fun e he => hshown'.2.2 e (by simpa using he)) hclosing
  exact ⟨rfl, hrest⟩

end Member

/-- **A member's text determines it and the rest**, when the texts of its
elements do. -/
theorem Member.append_inj {m m' : Member} (hm : m.WellMade) (hm' : m'.WellMade)
    (hread : ∀ e ∈ m.elements, e.Readable) {r r' : List Char} (hr : StartsIn [',', '>', ' '] r)
    (hr' : StartsIn [',', '>', ' '] r') (h : m.text.toList ++ r = m'.text.toList ++ r') :
    m = m' ∧ r = r' := by
  rw [toList_text, toList_text, List.append_assoc, List.append_assoc] at h
  obtain ⟨hwords, hbrackets⟩ := run_append_inj
    (isAlpha_of_mem_words _ (word_mem_words hm.isNamed))
    (isAlpha_of_mem_words _ (word_mem_words hm'.isNamed))
    (Signature.isAlpha_eq_false_of_startsIn (startsIn_brackets_append hr))
    (Signature.isAlpha_eq_false_of_startsIn (startsIn_brackets_append hr')) h
  have hword : m.word = m'.word := String.toList_inj.1 hwords
  -- nothing but the bracket tells an array from the type of that name
  have hclosed : ∀ {u v : List Char}, StartsIn [',', '>', ' '] u → u ≠ '<' :: v := by
    rintro u v hu rfl
    simp at hu
  match m, m' with
  | .named name, .named name' => exact ⟨congrArg named hword, hbrackets⟩
  | .named name, .array e' => exact absurd hbrackets (hclosed hr)
  | .named name, .tuple first' others' tail' => exact absurd hbrackets (hclosed hr)
  | .array e, .named name' => exact absurd hbrackets.symm (hclosed hr')
  | .tuple first others tail, .named name' => exact absurd hbrackets.symm (hclosed hr')
  | .array e, .tuple first' others' tail' => simp [word] at hword
  | .tuple first others tail, .array e' => simp [word] at hword
  | .array e, .array e' =>
    exact array_append_inj hm' (hread e (by simp [elements])) hbrackets
  | .tuple first others tail, .tuple first' others' tail' =>
    exact tuple_append_inj hm hm' hread hbrackets

namespace Signature

/-- What stands behind a union is not another member of it. -/
theorem combinatorChars_append_ne (c : Option Combinator) {r u : List Char}
    (hr : StartsIn [',', '>'] r) : combinatorChars c ++ r ≠ bar ++ u := by
  intro h
  cases c with
  | none =>
    rw [combinatorChars, List.nil_append] at h
    rw [h, bar_append] at hr
    simp at hr
  | some c =>
    have hname : ∃ x cs, c.name.toList = x :: cs ∧ x ≠ '|' := by
      cases c <;> exact ⟨_, _, rfl, by decide⟩
    obtain ⟨x, cs, hx, hne⟩ := hname
    rw [combinatorChars, hx, bar_append] at h
    exact hne (List.cons.inj (List.cons.inj h).2).1

/-- **The text of a union with members determines it and the rest**, when the
texts of its elements do. -/
theorem union_append_inj {m m' : Member} {ms ms' : List Member} {c c' : Option Combinator}
    (hs : WellMade (.union (m :: ms) c)) (ht : WellMade (.union (m' :: ms') c'))
    (hread : ∀ x ∈ m :: ms, ∀ e ∈ x.elements, e.Readable) {r r' : List Char}
    (hr : StartsIn [',', '>'] r) (hr' : StartsIn [',', '>'] r')
    (h : chars (.union (m :: ms) c) ++ r = chars (.union (m' :: ms') c') ++ r') :
    union (m :: ms) c = union (m' :: ms') c' ∧ r = r' := by
  have hm := hs.members
  have hm' := ht.members
  rw [chars_union_cons (hm m List.mem_cons_self).isNamed,
    chars_union_cons (hm' m' List.mem_cons_self).isNamed] at h
  simp only [List.append_assoc] at h
  obtain ⟨rfl, hothers⟩ := Member.append_inj (hm m List.mem_cons_self) (hm' m' List.mem_cons_self)
    (hread m List.mem_cons_self) (startsIn_members_append ms c hr)
    (startsIn_members_append ms' c' hr') h
  obtain ⟨rfl, hbehind⟩ := separated_append_inj (fun u => by simp [bar_append])
    (fun x hx y hy u u' hu hu' heq => Member.append_inj (hm x (List.mem_cons_of_mem _ hx))
      (hm' y (List.mem_cons_of_mem _ hy)) (hread x (List.mem_cons_of_mem _ hx)) hu hu' heq)
    (startsIn_combinatorChars_append c hr) (startsIn_combinatorChars_append c' hr')
    (fun _ _ _ => combinatorChars_append_ne c hr) (fun _ _ _ => combinatorChars_append_ne c' hr')
    hothers
  obtain ⟨rfl, hrest⟩ := combinatorChars_append_inj hr hr' hbehind
  exact ⟨rfl, hrest⟩

/-- **The text of a well-made signature can be read back**, unless it is
blank. -/
theorem readable_of_wellMade {s : Signature} (hs : s.WellMade) (hshown : s.isBlank = false) :
    s.Readable := by
  induction hs with
  | any => exact readable_of_mem_singleWords (by simp [singleWords])
  | never => exact readable_of_mem_singleWords (by simp [singleWords])
  | unknown => exact readable_of_mem_singleWords (by simp [singleWords])
  | @union members combinator hnamed helements hwell ih =>
    have hs : WellMade (.union members combinator) := .union hnamed helements hwell
    rcases mem_singleWords_or_union hshown with hword | ⟨m, ms, c, heq⟩
    · exact readable_of_mem_singleWords hword
    · obtain ⟨rfl, rfl⟩ := union.inj heq
      intro t ht hblank r r' hr hr' h
      rcases mem_singleWords_or_union hblank with hword | ⟨m', ms', c', rfl⟩
      · obtain ⟨htext, hrest⟩ :=
          readable_of_mem_singleWords hword _ hs hshown r' r hr' hr h.symm
        exact ⟨htext.symm, hrest.symm⟩
      · exact union_append_inj hs ht (fun x hx e he => ih x hx e he (helements x hx e he)) hr hr' h

/-- **The texts of two well-made signatures are equal only when the signatures
are.** -/
theorem WellMade.text_injective {s t : Signature} (hs : s.WellMade) (ht : t.WellMade)
    (h : s.text = t.text) : s = t := by
  by_cases hblank : s.isBlank = true
  · have hblank' : t.isBlank = true := by
      rw [isBlank_iff_text_eq, ← h]
      exact isBlank_iff_text_eq.1 hblank
    rw [hs.eq_of_isBlank hblank, ht.eq_of_isBlank hblank']
  · have hshown : s.isBlank = false := by simpa using hblank
    have hshown' : t.isBlank = false := by
      rw [Bool.eq_false_iff, Ne, isBlank_iff_text_eq, ← h, ← isBlank_iff_text_eq]
      exact hblank
    have hchars : s.chars ++ [] = t.chars ++ [] := by rw [chars, chars, h]
    exact (readable_of_wellMade hs hshown t ht hshown' [] [] startsIn_nil startsIn_nil hchars).1

end Signature

end SchemaProse
