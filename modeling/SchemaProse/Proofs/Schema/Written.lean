import SchemaProse.Proofs.Json.Members
import SchemaProse.Proofs.Keyword.Table
import SchemaProse.Schema.Field
/-!
# Schema — the written form and look-ups

`Value.ind` is the induction that writing follows. A schema is written as an
object whose members are `Schema.written`, under the names that
`Schema.keywords` lists, and a look-up by name reads either the keyword of that
name or another member.
-/

namespace SchemaProse

/-- A fact that carries from the parts of a value to the value holds of every
value. -/
theorem Value.ind {P : Value → Prop} (data : ∀ j, P (.data j))
    (list : ∀ entries, (∀ v ∈ entries, P v) → P (.list entries))
    (map : ∀ members, (∀ m ∈ members, P m.2) → P (.map members))
    (schema : ∀ declared extra, (∀ m ∈ declared, P m.2) → P (.schema ⟨declared, extra⟩))
    (v : Value) : P v :=
  @Value.rec P (fun s => P (.schema s)) (fun entries => ∀ v ∈ entries, P v)
    (fun members => ∀ m ∈ members, P m.2) (fun declared => ∀ m ∈ declared, P m.2)
    (fun m => P m.2) (fun m => P m.2) data list map (fun _ hs => hs) schema (by simp)
    (fun _ _ head tail => List.forall_mem_cons.2 ⟨head, tail⟩) (by simp)
    (fun _ _ head tail => List.forall_mem_cons.2 ⟨head, tail⟩) (by simp)
    (fun _ _ head tail => List.forall_mem_cons.2 ⟨head, tail⟩) (fun _ _ value => value)
    (fun _ _ value => value) v

namespace Value

theorem listToJson_eq_map (vs : List Value) : listToJson vs = vs.map toJson := by
  induction vs with
  | nil => rfl
  | cons v vs ih => rw [listToJson, ih, List.map_cons]

theorem membersToJson_eq_map (ms : List (String × Value)) :
    membersToJson ms = ms.map fun m => (m.1, m.2.toJson) := by
  induction ms with
  | nil => rfl
  | cons m ms ih => rw [membersToJson, ih, List.map_cons]

theorem declaredToJson_eq_map (declared : List (Keyword × Value)) :
    declaredToJson declared = declared.map fun m => (m.1.name, m.2.toJson) := by
  induction declared with
  | nil => rfl
  | cons m declared ih => rw [declaredToJson, ih, List.map_cons]

end Value

namespace Schema

/-- The members of the object that a schema is written as. -/
def written (s : Schema) : List (String × Json) :=
  (s.declared.map fun m => (m.1.name, m.2.toJson)) ++ s.extra

theorem toJson_eq_written (s : Schema) : s.toJson = .obj s.written := by
  obtain ⟨declared, extra⟩ := s
  rw [toJson, Value.declaredToJson_eq_map, written]

/-- A schema is written under the names that it lists. -/
theorem map_fst_written (s : Schema) : s.written.map Prod.fst = s.keywords := by
  simp [written, keywords, Function.comp_def]

/-- A keyword is looked up by its name. -/
theorem get?_name (s : Schema) (k : Keyword) : s.get? k.name = s.value? k := by
  rw [get?, Keyword.ofName?_name]

/-- A name that is no keyword's is looked up among the other members. -/
theorem get?_of_ofName?_eq_none (s : Schema) {name : String} (h : Keyword.ofName? name = none) :
    s.get? name = (s.extra.lookup name).map .data := by
  rw [get?, h]

/-- A keyword is carried when the schema declares it. -/
theorem carries_iff_mem {s : Schema} {k : Keyword} :
    s.carries k = true ↔ k ∈ s.declared.map Prod.fst :=
  lookup_isSome_iff_mem

/-- Nothing is turned away when no constraining keyword is given. -/
theorem isAny_iff {s : Schema} :
    s.isAny = true ↔ ∀ k ∈ Keyword.constraining, s.value? k = none := by
  simp [isAny, carries]

end Schema

end SchemaProse
