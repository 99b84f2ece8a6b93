import SchemaProse.Json.Literal
import SchemaProse.Proofs.Json.Compact
import SchemaProse.Proofs.Number.Denoted
/-!
# Json — literal text and the kinds of numbers

A value is respelt when some of its whole binary64 numbers are replaced by the
equal whole numbers (`Respelt`). Outside objects the literal text does not show
it, however deep the arrays are nested; an object has its compact text, which
shows the kind of every number. So the literal text stays the same exactly when
nothing inside an object is respelt (`literal_eq_iff_respelt`).
-/

namespace SchemaProse

namespace Json

/-- The second value is the first one with some whole binary64 numbers replaced
by the equal whole numbers, inside objects only if `inObjects` is true. -/
inductive Respelt (inObjects : Bool) : Json → Json → Prop
  /-- Nothing is replaced. -/
  | same (j : Json) : Respelt inObjects j j
  /-- A binary64 number by the whole number that it equals. -/
  | number {x : Binary64} {i : ℤ} : x.value = .rational i →
      Respelt inObjects (.num (.float x)) (.num (.int i))
  /-- Arrays, item by item. -/
  | arr {vs ws : List Json} : List.Forall₂ (Respelt inObjects) vs ws →
      Respelt inObjects (.arr vs) (.arr ws)
  /-- Objects with the same names, value by value. -/
  | obj {vs ws : List (String × Json)} : inObjects = true → vs.map Prod.fst = ws.map Prod.fst →
      List.Forall₂ (Respelt inObjects) (vs.map Prod.snd) (ws.map Prod.snd) →
      Respelt inObjects (.obj vs) (.obj ws)

/-! ## Literal text, character by character -/

theorem literals_eq_map (items : List Json) : literals items = items.map literal := by
  induction items with
  | nil => rfl
  | cons j js ih => rw [literals, ih, List.map_cons]

/-- The literal text as characters. -/
def literalChars (j : Json) : List Char :=
  j.literal.toList

theorem literalChars_arr (items : List Json) :
    (Json.arr items).literalChars = '[' :: (commas (items.map literalChars) ++ [']']) := by
  rw [literalChars, literal, bracketed, literals_eq_map, String.toList_append,
    String.toList_append, String.toList_intercalate, List.map_map]
  rfl

theorem literalChars_obj (members : List (String × Json)) :
    (Json.obj members).literalChars = (Json.obj members).compactChars := by
  rw [literalChars, literal, compact, String.toList_ofList]

/-- The literal texts of related items with commas between them are cancelled
one by one. -/
theorem literals_append_cancel {R S : Json → Json → Prop} {vs ws : List Json}
    (hvw : List.Forall₂ R vs ws)
    (hitem : ∀ v ∈ vs, ∀ w, R v w → ∀ u u', StartsIn valueEnds u → StartsIn valueEnds u' →
      v.literalChars ++ u = w.literalChars ++ u' → S v w ∧ u = u') {r r' : List Char}
    (h : commas (vs.map literalChars) ++ ']' :: r = commas (ws.map literalChars) ++ ']' :: r') :
    List.Forall₂ S vs ws ∧ r = r' := by
  have hends : ∀ u, StartsIn valueEnds ([','] ++ u) := fun u => startsIn_cons.2 (by decide)
  have hclose : ∀ u, StartsIn valueEnds (']' :: u) := fun u => startsIn_cons.2 (by decide)
  cases hvw with
  | nil => exact ⟨.nil, (List.cons.inj h).2⟩
  | @cons v w vs ws hR hvw =>
    rw [List.map_cons, List.map_cons, commas, commas, intercalate_cons, intercalate_cons,
      List.append_assoc, List.append_assoc, List.flatMap_map, List.flatMap_map] at h
    obtain ⟨hS, hrest⟩ := hitem v List.mem_cons_self w hR _ _
      (ends_separated_append hends (hclose r)) (ends_separated_append hends (hclose r')) h
    obtain ⟨hSs, hrr⟩ := separated_append_cancel hends hvw
      (fun v hv => hitem v (List.mem_cons_of_mem _ hv)) (hclose r) (hclose r') hrest
    exact ⟨.cons hS hSs, (List.cons.inj hrr).2⟩

/-! ## Respelling -/

namespace Respelt

variable {v w : Json} {inObjects : Bool}

/-- Respelling keeps the kind of a value. -/
theorem kind_eq (h : Respelt inObjects v w) : w.kind = v.kind := by
  cases h <;> rfl

/-- **Outside objects, respelling does not change the literal text.** -/
theorem literal_eq (h : Respelt false v w) : w.literal = v.literal := by
  induction v using Json.ind generalizing w with
  | arr vs ih =>
    cases h with
    | same => rfl
    | arr hitems =>
      rw [literal, literal, literals_eq_map, literals_eq_map,
        map_eq_map_of_forall₂ hitems fun v hv w hvw => ih v hv hvw]
  | num n =>
    cases h with
    | same => rfl
    | @number x i hvalue => exact Number.plain_eq_of_value_eq (q := i) rfl hvalue
  | obj vs =>
    cases h with
    | same => rfl
    | obj hfalse => cases hfalse
  | _ => cases h; rfl

/-- **Literal texts that stay the same have nothing respelt inside an object.** -/
theorem literal_append_cancel (h : Respelt true v w) {r r' : List Char}
    (hr : StartsIn valueEnds r) (hr' : StartsIn valueEnds r')
    (heq : v.literalChars ++ r = w.literalChars ++ r') : Respelt false v w ∧ r = r' := by
  induction v using Json.ind generalizing w r r' with
  | arr vs ih =>
    cases h with
    | same => exact ⟨.same _, List.append_cancel_left heq⟩
    | @arr vs ws hitems =>
      simp only [literalChars_arr, List.cons_append, List.append_assoc, List.nil_append,
        List.cons.injEq, true_and] at heq
      obtain ⟨hitems', hrr⟩ := literals_append_cancel hitems
        (fun v hv w hvw u u' hu hu' huu => ih v hv hvw hu hu' huu) heq
      exact ⟨.arr hitems', hrr⟩
  | num n =>
    cases h with
    | same => exact ⟨.same _, List.append_cancel_left heq⟩
    | @number x i hvalue =>
      have hspelt : Respelt false (.num (.float x)) (.num (.int i)) := .number hvalue
      rw [literalChars, literalChars, hspelt.literal_eq] at heq
      exact ⟨hspelt, List.append_cancel_left heq⟩
  | obj vs =>
    cases h with
    | same => exact ⟨.same _, List.append_cancel_left heq⟩
    | @obj vs ws =>
      rw [literalChars_obj, literalChars_obj] at heq
      -- the compact text leaves no room for a replacement
      obtain ⟨hvw, hrr⟩ := compactChars_append_inj hr hr' heq
      rw [← hvw]
      exact ⟨.same _, hrr⟩
  | _ => cases h; exact ⟨.same _, List.append_cancel_left heq⟩

end Respelt

/-- An array or an object goes into running text as its literal text. -/
theorem interpolant_eq_text (strict : Bool) {j : Json} (h : j.kind = .array ∨ j.kind = .object) :
    j.interpolant strict = .text j.literal := by
  cases j with
  | arr items => rfl
  | obj members => rfl
  | _ => rcases h with h | h <;> cases h

/-- **A respelt value keeps its literal text exactly when nothing inside an
object is respelt**; and so does the form of an array or an object for running
text. -/
theorem literal_eq_iff_respelt {v w : Json} (h : Respelt true v w) :
    (v.literal = w.literal ↔ Respelt false v w) ∧
      (v.kind = .array ∨ v.kind = .object →
        ∀ strict, v.interpolant strict = w.interpolant strict ↔ Respelt false v w) := by
  have hliteral : v.literal = w.literal ↔ Respelt false v w := by
    refine ⟨fun heq => ?_, fun hspelt => hspelt.literal_eq.symm⟩
    have happend : v.literalChars ++ [] = w.literalChars ++ [] := by
      rw [literalChars, literalChars, heq]
    exact (h.literal_append_cancel startsIn_nil startsIn_nil happend).1
  refine ⟨hliteral, fun hkind strict => ?_⟩
  rw [interpolant_eq_text strict hkind, interpolant_eq_text strict (h.kind_eq ▸ hkind),
    Interpolant.text.injEq, hliteral]

/-- The binary64 number two. -/
def floatTwo : Binary64 :=
  .finite ⟨false, 4503599627370496, -51, by decide⟩

theorem value_floatTwo : floatTwo.value = .rational (2 : ℤ) := by
  refine congrArg Quantity.rational ?_
  norm_num [FiniteBinary64.value, FiniteBinary64.magnitude]

/-- Twos at three depths, the last of them inside an object. -/
def nestedTwos (first second : Number) : Json :=
  .arr [.num first, .arr [.num second], .obj [("a", .num (.float floatTwo))]]

/-- In nested arrays a replacement is not seen. -/
theorem literal_nestedTwos :
    Respelt true (nestedTwos (.float floatTwo) (.float floatTwo)) (nestedTwos (.int 2) (.int 2)) ∧
      (nestedTwos (.float floatTwo) (.float floatTwo)).literal = "[2,[2],\x7b\"a\":2.0\x7d]" ∧
      ((nestedTwos (.float floatTwo) (.float floatTwo)).literal =
          (nestedTwos (.int 2) (.int 2)).literal ↔
        Respelt false (nestedTwos (.float floatTwo) (.float floatTwo))
          (nestedTwos (.int 2) (.int 2))) ∧
      ((nestedTwos (.float floatTwo) (.float floatTwo)).interpolant true =
          (nestedTwos (.int 2) (.int 2)).interpolant true ↔
        Respelt false (nestedTwos (.float floatTwo) (.float floatTwo))
          (nestedTwos (.int 2) (.int 2))) := by
  have htwo : Respelt true (.num (.float floatTwo)) (.num (.int 2)) := .number value_floatTwo
  have hnested : Respelt true (nestedTwos (.float floatTwo) (.float floatTwo))
      (nestedTwos (.int 2) (.int 2)) :=
    .arr (.cons htwo (.cons (.arr (.cons htwo .nil)) (.cons (.same _) .nil)))
  obtain ⟨hliteral, hinterpolant⟩ := literal_eq_iff_respelt hnested
  exact ⟨hnested, by decide +kernel, hliteral, hinterpolant (.inl rfl) true⟩

/-- Inside an object it is. -/
theorem literal_ne_of_member :
    Respelt true (.obj [("a", .num (.float floatTwo))]) (.obj [("a", .num (.int 2))]) ∧
      (Json.obj [("a", .num (.float floatTwo))]).literal = "\x7b\"a\":2.0\x7d" ∧
      (Json.obj [("a", .num (.int 2))]).literal = "\x7b\"a\":2\x7d" ∧
      (Json.obj [("a", .num (.float floatTwo))]).interpolant true ≠
        (Json.obj [("a", .num (.int 2))]).interpolant true := by
  have hfloat : (Json.obj [("a", .num (.float floatTwo))]).literal = "\x7b\"a\":2.0\x7d" := by
    decide +kernel
  have hint : (Json.obj [("a", .num (.int 2))]).literal = "\x7b\"a\":2\x7d" := by decide +kernel
  refine ⟨.obj rfl rfl (.cons (.number value_floatTwo) .nil), hfloat, hint, fun h => ?_⟩
  rw [interpolant_eq_text _ (.inr rfl), interpolant_eq_text _ (.inr rfl), hfloat, hint] at h
  exact absurd (Interpolant.text.inj h) (by decide)

end Json

end SchemaProse
