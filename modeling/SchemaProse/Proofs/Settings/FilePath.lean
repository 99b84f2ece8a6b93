import Mathlib.Data.List.Induction
import SchemaProse.Proofs.Text.Delimited
import SchemaProse.Proofs.Text.Trimmed
import SchemaProse.Settings.FilePath
/-!
# Settings — the spellings of a path

What a path leads to is described here by how it is spelt: it *ends in* a name
that stands alone or behind a slash, whatever slashes and single dots follow
(`EndsIn`). This is the name of the path that the text spells
(`name_ofText_iff`), and the text of a path spells the path (`ofText_text`).
-/

namespace SchemaProse

namespace FilePath

/-- A text ends in a name, but for slashes and single dots that lead nowhere. -/
inductive EndsIn (name : List Char) : List Char → Prop
  /-- It is the name. -/
  | alone : EndsIn name name
  /-- The name stands in a folder. -/
  | inside (folder : List Char) : EndsIn name (folder ++ '/' :: name)
  /-- A slash follows. -/
  | slash {cs : List Char} : EndsIn name cs → EndsIn name (cs ++ ['/'])
  /-- A single dot follows. -/
  | dot {cs : List Char} : EndsIn name cs → EndsIn name (cs ++ ['/', '.'])

variable {cs : List Char} {p : Part}

/-! ## Parts -/

@[simp] theorem part?_val (p : Part) : part? p.val = some p :=
  dif_pos p.property

theorem eq_of_part?_eq_some (h : part? cs = some p) : cs = p.val := by
  rw [part?, Option.dite_none_right_eq_some] at h
  obtain ⟨_, hp⟩ := h
  exact congrArg Subtype.val (Option.some.inj hp)

/-- What leads nowhere is empty or a single dot. -/
theorem eq_of_part?_eq_none (hslash : '/' ∉ cs) (h : part? cs = none) : cs = [] ∨ cs = ['.'] := by
  rw [part?, dite_eq_right_iff] at h
  by_contra hcs
  rw [not_or] at hcs
  cases h ⟨hcs.1, hcs.2, hslash⟩

theorem partsOf_append (cs ds : List Char) :
    partsOf (cs ++ '/' :: ds) = partsOf cs ++ partsOf ds := by
  rw [partsOf, List.splitOn_append_cons_self, List.filterMap_append, partsOf, partsOf]

theorem partsOf_val (p : Part) : partsOf p.val = [p] := by
  rw [partsOf, List.splitOn_eq_singleton p.property.2.2, List.filterMap_cons_some (part?_val p),
    List.filterMap_nil]

/-! ## Names -/

/-- A text that ends in a part has it as its last part. -/
theorem EndsIn.getLast?_partsOf (h : EndsIn p.val cs) : (partsOf cs).getLast? = some p := by
  induction h with
  | alone => rw [partsOf_val, List.getLast?_singleton]
  | inside folder => rw [partsOf_append, partsOf_val, List.getLast?_concat]
  | slash _ ih =>
    have hnowhere : partsOf [] = [] := rfl
    rw [partsOf_append, hnowhere, List.append_nil, ih]
  | dot _ ih =>
    have hnowhere : partsOf ['.'] = [] := rfl
    rw [partsOf_append, hnowhere, List.append_nil, ih]

/-- What stands behind the last slash comes last. -/
theorem intercalate_concat {pieces : List (List Char)} (hne : pieces ≠ []) (piece : List Char) :
    ['/'].intercalate (pieces ++ [piece]) = ['/'].intercalate pieces ++ '/' :: piece := by
  cases pieces with
  | nil => exact absurd rfl hne
  | cons first pieces =>
    rw [List.cons_append, intercalate_cons, intercalate_cons, List.flatMap_append,
      List.flatMap_singleton, List.append_assoc, List.singleton_append]

/-- Pieces end in the last of them that leads anywhere. -/
theorem endsIn_intercalate {pieces : List (List Char)} (hslash : ∀ cs ∈ pieces, '/' ∉ cs)
    (h : (pieces.filterMap part?).getLast? = some p) :
    EndsIn p.val (['/'].intercalate pieces) := by
  induction pieces using List.reverseRecOn with
  | nil => cases h
  | append_singleton pieces piece ih =>
    rw [List.filterMap_append] at h
    obtain ⟨hpieces, hpiece⟩ := List.forall_mem_append.1 hslash
    cases hpart : part? piece with
    | some q =>
      rw [List.filterMap_cons_some hpart, List.filterMap_nil, List.getLast?_concat] at h
      obtain rfl := Option.some.inj h
      obtain rfl := eq_of_part?_eq_some hpart
      by_cases hne : pieces = []
      · subst hne
        rw [List.nil_append, List.intercalate_singleton]
        exact .alone
      · rw [intercalate_concat hne]
        exact .inside _
    | none =>
      rw [List.filterMap_cons_none hpart, List.filterMap_nil, List.append_nil] at h
      have hne : pieces ≠ [] := by
        rintro rfl
        cases h
      rw [intercalate_concat hne]
      rcases eq_of_part?_eq_none (hpiece piece List.mem_cons_self) hpart with rfl | rfl
      · exact (ih hpieces h).slash
      · exact (ih hpieces h).dot

/-- The name of a path is its last part. -/
theorem name_eq_iff {path : FilePath} :
    path.name = String.ofList p.val ↔ path.parts.getLast? = some p := by
  rw [name, String.ofList_inj]
  cases path.parts.getLast? with
  | none => exact iff_of_false p.property.1.symm (Option.some_ne_none p).symm
  | some q => exact Subtype.ext_iff.symm.trans Option.some_inj.symm

/-- **The name of a path is what its text ends in.** -/
theorem name_ofText_iff {text : String} :
    (ofText text).name = String.ofList p.val ↔ EndsIn p.val text.toList := by
  have hpieces : ['/'].intercalate (text.toList.splitOn '/') = text.toList :=
    List.intercalate_splitOn '/'
  rw [name_eq_iff]
  constructor
  · intro h
    rw [← hpieces]
    exact endsIn_intercalate (fun _ => notMem_of_mem_splitOn) h
  · exact EndsIn.getLast?_partsOf

/-! ## Texts -/

/-- The parts of a path behind its root. -/
def body (path : FilePath) : List Char :=
  ['/'].intercalate (path.parts.map Subtype.val)

theorem partsOf_body (path : FilePath) : partsOf path.body = path.parts := by
  by_cases hne : path.parts = []
  · rw [body, hne]
    rfl
  · have hslash : ∀ cs ∈ path.parts.map Subtype.val, '/' ∉ cs := by
      intro cs hcs
      obtain ⟨p, -, rfl⟩ := List.mem_map.1 hcs
      exact p.property.2.2
    rw [body, partsOf, List.splitOn_intercalate '/' hslash (List.map_eq_nil_iff.not.2 hne),
      List.filterMap_map]
    have hsome : part? ∘ Subtype.val = some := funext part?_val
    rw [hsome, List.filterMap_some]

/-- No slash begins what stands behind the root. -/
theorem head?_body (path : FilePath) : ∀ c ∈ path.body.head?, (c == '/') = false := by
  intro c hc
  cases hparts : path.parts with
  | nil =>
    rw [body, hparts] at hc
    cases hc
  | cons p ps =>
    rw [body, hparts, List.map_cons, intercalate_cons,
      List.head?_append_of_ne_nil _ p.property.1] at hc
    rw [beq_eq_false_iff_ne]
    rintro rfl
    exact p.property.2.2 (List.mem_of_mem_head? hc)

/-- A text is the root and what stands behind it, unless there is neither. -/
theorem toList_text {path : FilePath} (h : path.root ≠ .here ∨ path.parts ≠ []) :
    path.text.toList = path.root.chars ++ path.body := by
  rw [text]
  split
  next hroot hparts => exact absurd h (by simp [hroot, hparts])
  next => exact String.toList_ofList

theorem Root.ofSlashes_length (root : Root) : Root.ofSlashes root.chars.length = root := by
  cases root <;> rfl

/-- A root has no parts. -/
theorem partsOf_root_append (root : Root) (cs : List Char) :
    partsOf (root.chars ++ cs) = partsOf cs := by
  cases root with
  | here => rfl
  | single => exact partsOf_append [] cs
  | double => exact (partsOf_append [] ('/' :: cs)).trans (partsOf_append [] cs)

/-- **The text of a path spells the path.** -/
theorem ofText_text (path : FilePath) : ofText path.text = path := by
  by_cases h : path.root ≠ .here ∨ path.parts ≠ []
  · have hroot : ∀ c ∈ path.root.chars, (c == '/') = true := by
      cases path.root <;> simp [Root.chars]
    have htext := toList_text h
    rw [ofText, htext, takeWhile_run_append hroot path.head?_body, Root.ofSlashes_length]
    congr 1
    exact (partsOf_root_append _ _).trans path.partsOf_body
  · obtain ⟨root, parts⟩ := path
    obtain ⟨rfl, rfl⟩ : root = .here ∧ parts = [] := by simpa using h
    rfl

end FilePath

end SchemaProse
