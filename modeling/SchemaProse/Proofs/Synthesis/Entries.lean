import SchemaProse.Proofs.Json.Members
import SchemaProse.Synthesis.Refusal
/-!
# Synthesis — named entries

A collection of entries is read in order, and reading stops at the first entry
that is refused. So the records are those of the entries, name by name
(`readEach_eq_ok_iff`), or the error is the first refusal
(`readEach_eq_error_iff`). An entry may be given as a document or as a record
that has been read before (`Given`).
-/

namespace SchemaProse

section ReadEach

variable {α β : Type} {read : α → Except Refusal β} {entries : List (String × α)}

/-- The refusal is that of the first entry that is refused. -/
def FirstRefusal (read : α → Except Refusal β) (entries : List (String × α)) (r : Refusal) :
    Prop :=
  ∃ before name a after, entries = before ++ (name, a) :: after ∧
    (∀ m ∈ before, ∃ b, read m.2 = .ok b) ∧ read a = .error r

/-- One entry is read, and then the others. -/
theorem readEach_cons (name : String) (a : α) (entries : List (String × α)) :
    readEach read ((name, a) :: entries) =
      (read a).bind fun b => (readEach read entries).map ((name, b) :: ·) := by
  rw [readEach]
  cases read a with
  | error r => rfl
  | ok b => cases readEach read entries <;> rfl

/-- **The records are those of the entries**, each under the entry's name. -/
theorem readEach_eq_ok_iff {records : List (String × β)} :
    readEach read entries = .ok records ↔
      List.Forall₂ (fun m n => m.1 = n.1 ∧ read m.2 = .ok n.2) entries records := by
  induction entries generalizing records with
  | nil => simp [readEach, eq_comm]
  | cons m entries ih =>
    obtain ⟨name, a⟩ := m
    rw [readEach_cons]
    cases ha : read a with
    | error r =>
      refine iff_of_false nofun fun h => ?_
      cases h with
      | cons hm _ => exact nomatch ha.symm.trans hm.2
    | ok b =>
      cases hentries : readEach read entries with
      | error r =>
        refine iff_of_false nofun fun h => ?_
        cases h with
        | cons _ htail => exact nomatch hentries.symm.trans (ih.2 htail)
      | ok bs =>
        constructor
        · intro h
          obtain rfl := Except.ok.inj h
          exact .cons ⟨rfl, ha⟩ (ih.1 hentries)
        · intro h
          cases h with
          | @cons _ n _ ns hm htail =>
            have hhead : (name, b) = n := Prod.ext hm.1 (Except.ok.inj (ha.symm.trans hm.2))
            have hrest : bs = ns := Except.ok.inj (hentries.symm.trans (ih.2 htail))
            rw [← hhead, ← hrest]
            rfl

/-- **The error is the first refusal**, whatever the entries behind it are. -/
theorem readEach_eq_error_iff {r : Refusal} :
    readEach read entries = .error r ↔ FirstRefusal read entries r := by
  induction entries with
  | nil =>
    refine iff_of_false nofun ?_
    rintro ⟨before, name, a, after, h, -⟩
    simp at h
  | cons m entries ih =>
    obtain ⟨name, a⟩ := m
    rw [readEach_cons]
    cases ha : read a with
    | error r' =>
      constructor
      · intro h
        obtain rfl := Except.error.inj h
        exact ⟨[], name, a, entries, rfl, nofun, ha⟩
      · rintro ⟨before, name', a', after, h, hbefore, hrefused⟩
        cases before with
        | nil =>
          obtain ⟨⟨-, rfl⟩, -⟩ : (name = name' ∧ a = a') ∧ entries = after := by simpa using h
          exact congrArg Except.error (Except.error.inj (ha.symm.trans hrefused))
        | cons m before =>
          -- an entry in front of the refused one would be this one, which is refused itself
          obtain ⟨rfl, -⟩ := List.cons_eq_cons.1 h
          obtain ⟨b, hb⟩ := hbefore _ List.mem_cons_self
          exact nomatch ha.symm.trans hb
    | ok b =>
      have hmap : ((readEach read entries).map ((name, b) :: ·) = .error r) ↔
          readEach read entries = .error r := by
        cases readEach read entries <;> simp [Except.map]
      refine hmap.trans (ih.trans ⟨?_, ?_⟩)
      · rintro ⟨before, name', a', after, rfl, hbefore, hrefused⟩
        refine ⟨(name, a) :: before, name', a', after, rfl, ?_, hrefused⟩
        exact List.forall_mem_cons.2 ⟨⟨b, ha⟩, hbefore⟩
      · rintro ⟨before, name', a', after, h, hbefore, hrefused⟩
        cases before with
        | nil =>
          obtain ⟨⟨-, rfl⟩, -⟩ : (name = name' ∧ a = a') ∧ entries = after := by simpa using h
          exact nomatch ha.symm.trans hrefused
        | cons m before =>
          obtain ⟨-, rfl⟩ := List.cons_eq_cons.1 h
          exact ⟨before, name', a', after, rfl, (List.forall_mem_cons.1 hbefore).2, hrefused⟩

/-- Entries none of which is refused are read. -/
theorem exists_readEach_of_forall (h : ∀ m ∈ entries, ∃ b, read m.2 = .ok b) :
    ∃ records, readEach read entries = .ok records := by
  cases hread : readEach read entries with
  | ok records => exact ⟨records, rfl⟩
  | error r =>
    obtain ⟨before, name, a, after, rfl, -, hrefused⟩ := readEach_eq_error_iff.1 hread
    obtain ⟨b, hb⟩ := h (name, a) (by simp)
    exact nomatch hrefused.symm.trans hb

end ReadEach

/-- An entry as it is given: a document, or a record that has been read from
one before. -/
inductive Given {α : Type} (read : Json → Except Refusal α) where
  | document (j : Json)
  | built (a : α) (h : ∃ j, read j = .ok a)

namespace Given

variable {α : Type} {reader : Json → Except Refusal α}

/-- The record of an entry; one that has been read is not read again. -/
def read : Given reader → Except Refusal α
  | .document j => reader j
  | .built a _ => .ok a

/-- Every record comes from a document. -/
theorem exists_document {e : Given reader} {a : α} (h : e.read = .ok a) :
    ∃ j, reader j = .ok a := by
  cases e with
  | document j => exact ⟨j, h⟩
  | built b hb =>
    obtain rfl := Except.ok.inj h
    exact hb

end Given

/-- So do the records of a collection of entries. -/
theorem exists_document_of_readEach {α : Type} {reader : Json → Except Refusal α}
    {entries : List (String × Given reader)} {records : List (String × α)}
    (h : readEach Given.read entries = .ok records) :
    ∀ m ∈ records, ∃ j, reader j = .ok m.2 := by
  intro m hm
  obtain ⟨e, -, -, he⟩ := exists_mem_of_forall₂ (readEach_eq_ok_iff.1 h) hm
  exact Given.exists_document he

/-- Documents that are given are read as documents. -/
theorem readEach_documents {α : Type} (reader : Json → Except Refusal α)
    (documents : List (String × Json)) :
    readEach Given.read (documents.map fun m => (m.1, (.document m.2 : Given reader))) =
      readEach reader documents := by
  induction documents with
  | nil => rfl
  | cons m documents ih =>
    rw [List.map_cons, readEach_cons, readEach_cons, ih]
    rfl

end SchemaProse
