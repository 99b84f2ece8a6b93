import Mathlib.Data.List.DropRight
import SchemaProse.Text.Trim
/-!
# Text — what trimming and splitting leave

A list of characters has one *core*: what is left when the characters of a
class are taken away at both ends, and neither end of the core has the class.
Trimming finds it (`trim_eq_iff`). And a list has one sequence of *pieces*
between the occurrences of a character, which is what splitting finds
(`splitOn_eq_iff`).
-/

namespace SchemaProse

namespace Text

variable {p : Char → Bool} {cs core : List Char}

/-- The core of a list: the class stands around it, and at neither end of
it. -/
structure Core (p : Char → Bool) (cs core : List Char) : Prop where
  around : ∃ before after, cs = before ++ core ++ after ∧ (∀ c ∈ before, p c = true) ∧
    ∀ c ∈ after, p c = true
  first : ∀ c ∈ core.head?, p c = false
  last : ∀ c ∈ core.getLast?, p c = false

/-- What the class stands in front of is what is left when it is dropped. -/
theorem dropWhile_append_of_first {before rest : List Char} (hbefore : ∀ c ∈ before, p c = true)
    (hfirst : ∀ c ∈ rest.head?, p c = false) : (before ++ rest).dropWhile p = rest := by
  rw [List.dropWhile_append_of_pos hbefore]
  cases rest with
  | nil => rfl
  | cons c rest => exact List.dropWhile_cons_of_neg (by simp [hfirst c rfl])

/-- What is left when the class is dropped does not begin with it. -/
theorem first_dropWhile (p : Char → Bool) (cs : List Char) :
    ∀ c ∈ (cs.dropWhile p).head?, p c = false := by
  intro c hc
  have hnot := List.head?_dropWhile_not p cs
  rwa [hc] at hnot

/-- Trimming drops the class in front, and then behind. -/
theorem trim_eq_rdropWhile (p : Char → Bool) (cs : List Char) :
    trim p cs = (cs.dropWhile p).rdropWhile p :=
  rfl

/-- Trimming leaves a core. -/
theorem core_trim (p : Char → Bool) (cs : List Char) : Core p cs (trim p cs) := by
  rw [trim_eq_rdropWhile]
  refine ⟨⟨cs.takeWhile p, (cs.dropWhile p).rtakeWhile p, ?_, ?_, ?_⟩, ?_, ?_⟩
  · rw [List.append_assoc, List.rdropWhile_append_rtakeWhile, List.takeWhile_append_dropWhile]
  · exact fun c => List.mem_takeWhile_imp
  · exact fun c => List.mem_rtakeWhile_imp
  · intro c hc
    -- the first character that is left is the first one that was not dropped
    obtain ⟨after, hafter⟩ := List.rdropWhile_prefix p (cs.dropWhile p)
    refine first_dropWhile p cs c ?_
    rw [← hafter, List.head?_append, hc]
    rfl
  · intro c hc
    rw [List.rdropWhile, List.getLast?_reverse] at hc
    exact first_dropWhile p _ c hc

/-- **Trimming leaves the core, and nothing else is one.** -/
theorem trim_eq_iff : trim p cs = core ↔ Core p cs core := by
  refine ⟨fun h => h ▸ core_trim p cs, fun h => ?_⟩
  obtain ⟨⟨before, after, rfl, hbefore, hafter⟩, hfirst, hlast⟩ := h
  rw [trim_eq_rdropWhile]
  by_cases hcore : core = []
  · subst hcore
    have hall : (before ++ [] ++ after).dropWhile p = [] := by
      rw [List.append_nil, List.dropWhile_eq_nil_iff, List.forall_mem_append]
      exact ⟨hbefore, hafter⟩
    rw [hall, List.rdropWhile_nil]
  · have hfirst' : ∀ c ∈ (core ++ after).head?, p c = false := by
      rwa [List.head?_append_of_ne_nil core hcore]
    have hlast' : ∀ c ∈ core.reverse.head?, p c = false := by
      rwa [List.head?_reverse]
    have hafter' : ∀ c ∈ after.reverse, p c = true := fun c hc => hafter c (List.mem_reverse.1 hc)
    rw [List.append_assoc, dropWhile_append_of_first hbefore hfirst', List.rdropWhile,
      List.reverse_append, dropWhile_append_of_first hafter' hlast', List.reverse_reverse]

end Text

/-- No piece of a split list has the character at which it is split. -/
theorem notMem_of_mem_splitOn {α : Type} [BEq α] [LawfulBEq α] {a : α} {l piece : List α}
    (h : piece ∈ l.splitOn a) : a ∉ piece := by
  induction l generalizing piece with
  | nil =>
    rw [List.splitOn_nil] at h
    rw [List.mem_singleton.1 h]
    exact List.not_mem_nil
  | cons b l ih =>
    rw [List.splitOn_cons_eq_if_modifyHead] at h
    split at h
    · rcases List.mem_cons.1 h with rfl | h
      · exact List.not_mem_nil
      · exact ih h
    next hb =>
      cases hl : l.splitOn a with
      | nil => exact absurd hl (List.splitOn_ne_nil a l)
      | cons first rest =>
        rw [hl] at ih h
        rcases List.mem_cons.1 h with rfl | h
        · intro hmem
          rcases List.mem_cons.1 hmem with rfl | hmem
          · exact hb (beq_self_eq_true a)
          · exact ih List.mem_cons_self hmem
        · exact ih (List.mem_cons_of_mem _ h)

/-- **Splitting leaves the pieces, and nothing else is a sequence of them.** -/
theorem splitOn_eq_iff {α : Type} [BEq α] [LawfulBEq α] {a : α} {l : List α}
    {pieces : List (List α)} :
    l.splitOn a = pieces ↔
      pieces ≠ [] ∧ (∀ piece ∈ pieces, a ∉ piece) ∧ [a].intercalate pieces = l := by
  constructor
  · rintro rfl
    exact ⟨List.splitOn_ne_nil a l, fun _ => notMem_of_mem_splitOn, List.intercalate_splitOn a⟩
  · rintro ⟨hne, hpieces, rfl⟩
    exact List.splitOn_intercalate a hpieces hne

/-- And so are the texts between the occurrences of a character. -/
theorem map_ofList_splitOn_eq_iff {a : Char} {text : String} {parts : List String} :
    (text.toList.splitOn a).map String.ofList = parts ↔
      parts ≠ [] ∧ (∀ part ∈ parts, a ∉ part.toList) ∧
        (String.singleton a).intercalate parts = text := by
  have hchars : (text.toList.splitOn a).map String.ofList = parts ↔
      text.toList.splitOn a = parts.map String.toList := by
    constructor
    · rintro rfl
      simp [Function.comp_def]
    · intro h
      simp [h, Function.comp_def]
  have hjoined : [a].intercalate (parts.map String.toList) = text.toList ↔
      (String.singleton a).intercalate parts = text := by
    rw [← String.toList_inj, String.toList_intercalate, String.toList_singleton]
  rw [hchars, splitOn_eq_iff, hjoined, List.forall_mem_map, Ne, List.map_eq_nil_iff]

end SchemaProse
