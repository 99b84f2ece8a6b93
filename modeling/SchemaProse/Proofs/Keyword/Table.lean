import Mathlib.Data.List.Nodup
import SchemaProse.Keyword.Basic
/-!
# Keyword — the table read by name

No keyword is listed twice and no two keywords share a name, so a member name
stands for at most one keyword.
-/

namespace SchemaProse

namespace Keyword

/-- No keyword is listed twice. -/
theorem nodup_all : all.Nodup := by decide

/-- A name stands for a keyword exactly when the keyword has it. -/
theorem ofName?_eq_some_iff {name : String} {k : Keyword} :
    ofName? name = some k ↔ k.name = name := by
  constructor
  · intro h
    simpa using List.find?_some h
  · rintro rfl
    exact ofName?_name k

/-- No two keywords share a name. -/
theorem name_injective : Function.Injective name := by
  intro k k' h
  have hk : ofName? k'.name = some k := ofName?_eq_some_iff.2 h
  rw [ofName?_name] at hk
  exact (Option.some.inj hk).symm

/-- A name that stands for no keyword is no keyword's. -/
theorem ofName?_eq_none_iff {name : String} :
    ofName? name = none ↔ ∀ k : Keyword, k.name ≠ name := by
  rw [← Option.not_isSome_iff_eq_none, Option.isSome_iff_exists, not_exists]
  exact forall_congr' fun k => not_congr ofName?_eq_some_iff

end Keyword

end SchemaProse
