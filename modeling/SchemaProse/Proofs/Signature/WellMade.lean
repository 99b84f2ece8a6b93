import SchemaProse.Proofs.Signature.Outline
import SchemaProse.Proofs.Text.Delimited
/-!
# Signature — well-made signatures and the form of their texts

A signature is *well made* when its members have the names of types and no
element inside an array or tuple is blank. The text of a well-made signature
opens with a word, which for a union is the word of its first member
(`chars_union_cons`) and stands alone otherwise (`singleWords`); its brackets
are balanced (`WellMade.balanced`).
-/

namespace SchemaProse

/-- The names of the types. -/
def typeNames : List String :=
  ["string", "number", "integer", "boolean", "array", "object", "null"]

/-- The signatures that stand in an array or tuple, the tail among them. -/
def Member.elements : Member → List Signature
  | .named _ => []
  | .array element => [element]
  | .tuple first others tail => first :: (others ++ tail.toList)

/-- The member has no name other than that of a type. -/
def Member.IsNamed (m : Member) : Prop :=
  ∀ name, m = .named name → name ∈ typeNames

namespace Signature

/-- A union has the names of types, and no element in it, at any depth, is
blank. -/
inductive WellMade : Signature → Prop
  | any : WellMade .any
  | never : WellMade .never
  | unknown : WellMade .unknown
  | union {ms : List Member} {c : Option Combinator} : (∀ m ∈ ms, m.IsNamed) →
      (∀ m ∈ ms, ∀ e ∈ m.elements, e.isBlank = false) →
      (∀ m ∈ ms, ∀ e ∈ m.elements, WellMade e) → WellMade (.union ms c)

/-- The signature is an element in another one, at some depth. -/
inductive HasElement : Signature → Signature → Prop
  /-- An element of a member. -/
  | here {ms : List Member} {c : Option Combinator} {m : Member} {e : Signature} :
      m ∈ ms → e ∈ m.elements → HasElement (.union ms c) e
  /-- An element of such an element. -/
  | inside {ms : List Member} {c : Option Combinator} {m : Member} {e e' : Signature} :
      m ∈ ms → e ∈ m.elements → HasElement e e' → HasElement (.union ms c) e'

/-- No element of a well-made signature is without a text. -/
theorem WellMade.text_ne_of_hasElement {s e : Signature} (hs : s.WellMade) (he : s.HasElement e) :
    e.text ≠ "" := by
  have hblank : e.isBlank = false := by
    induction hs with
    | union _ hblank _ ih =>
      cases he with
      | here hm he => exact hblank _ hm _ he
      | inside hm hinner he => exact ih _ hm _ hinner he
    | any => cases he
    | never => cases he
    | unknown => cases he
  intro htext
  rw [isBlank_iff_text_eq.2 htext] at hblank
  cases hblank

/-! ## The forms of texts -/

/-- The characters of the text. -/
def chars (s : Signature) : List Char :=
  s.text.toList

/-- What separates the elements of a tuple. -/
def comma : List Char :=
  [',', ' ']

/-- What separates the members of a union. -/
def bar : List Char :=
  [' ', '|', ' ']

/-- What opens the tail of a tuple. -/
def dots : List Char :=
  "...optional<".toList

theorem comma_append (u : List Char) : comma ++ u = ',' :: ' ' :: u :=
  rfl

theorem bar_append (u : List Char) : bar ++ u = ' ' :: '|' :: ' ' :: u :=
  rfl

theorem dots_eq_cons : dots = '.' :: "..optional<".toList := by
  decide +kernel

/-- The characters of the name that stands behind a union. -/
def combinatorChars : Option Combinator → List Char
  | none => []
  | some c => ' ' :: c.name.toList

/-- The characters of a tuple's tail. -/
def tailChars : Option Signature → List Char
  | none => []
  | some s => comma ++ (dots ++ (s.chars ++ ['>']))

theorem tailChars_some_append (s : Signature) (r : List Char) :
    tailChars (some s) ++ r = comma ++ (dots ++ (s.chars ++ '>' :: r)) := by
  simp [tailChars]

end Signature

namespace Member

/-- The word that a member begins with. -/
def word : Member → String
  | .named name => name
  | .array _ => "array"
  | .tuple _ _ _ => "tuple"

/-- What stands in brackets behind the word. -/
def brackets : Member → List Char
  | .named _ => []
  | .array element => '<' :: (element.chars ++ ['>'])
  | .tuple first others tail =>
    '<' :: (first.chars ++ ((others.flatMap fun s => Signature.comma ++ s.chars) ++
      (Signature.tailChars tail ++ ['>'])))

/-- A member's text is its word and its brackets. -/
theorem toList_text (m : Member) : m.text.toList = m.word.toList ++ m.brackets := by
  cases m with
  | named name => simp [text, word, brackets]
  | array element => simp [text, word, brackets, Signature.chars]
  | tuple first others tail =>
    have htail : ((Signature.tailTexts tail).flatMap fun t => ", ".toList ++ t.toList) =
        Signature.tailChars tail := by
      cases tail with
      | none => rfl
      | some s =>
        rw [Signature.tailTexts, List.flatMap_singleton, String.toList_append, String.toList_append,
          List.append_assoc]
        rfl
    have helements : (", ".intercalate (first.text ::
        (Signature.texts others ++ Signature.tailTexts tail))).toList =
        first.chars ++ ((others.flatMap fun s => Signature.comma ++ s.chars) ++
          Signature.tailChars tail) := by
      rw [toList_intercalate_cons, List.flatMap_append, htail, Signature.texts_eq_map,
        List.flatMap_map]
      rfl
    rw [text, String.toList_append, String.toList_append, helements]
    simp [word, brackets]

/-- The words that members begin with. -/
def words : List String :=
  "tuple" :: typeNames

theorem word_mem_words {m : Member} (h : m.IsNamed) : m.word ∈ words := by
  cases m with
  | named name => exact List.mem_cons_of_mem _ (h name rfl)
  | array element => simp [word, words, typeNames]
  | tuple first others tail => simp [word, words]

/-- The words are words. -/
theorem isAlpha_of_mem_words : ∀ w ∈ words, ∀ c ∈ w.toList, c.isAlpha = true := by
  have hall : ∀ w ∈ words, w.toList.all Char.isAlpha = true := by decide +kernel
  exact fun w hw => List.all_eq_true.1 (hall w hw)

theorem ne_nil_of_mem_words : ∀ w ∈ words, w.toList ≠ [] := by
  decide +kernel

/-- Behind the word of a member stands an opening bracket, or nothing. -/
theorem startsIn_brackets_append {m : Member} {r : List Char} (hr : StartsIn [',', '>', ' '] r) :
    StartsIn ['<', ',', '>', ' '] (m.brackets ++ r) := by
  cases m with
  | named name => exact hr.mono (by simp)
  | array element => simp [brackets]
  | tuple first others tail => simp [brackets]

end Member

namespace Signature

/-- The text of a union that has members. -/
theorem chars_union_cons {m : Member} {ms : List Member} (hm : m.IsNamed) (c : Option Combinator) :
    chars (.union (m :: ms) c) =
      m.text.toList ++ ((ms.flatMap fun m' => bar ++ m'.text.toList) ++
        combinatorChars c) := by
  have hbase : " | ".intercalate (Member.texts (m :: ms)) ≠ "" := by
    rw [Ne, intercalate_texts_eq_empty_iff]
    rintro (h | h)
    · cases h
    · have hname := hm "" (List.cons.inj h).1
      simp [typeNames] at hname
  have hmembers : (" | ".intercalate (Member.texts (m :: ms))).toList =
      m.text.toList ++ ms.flatMap fun m' => bar ++ m'.text.toList := by
    rw [Member.texts_eq_map, List.map_cons, toList_intercalate_cons, List.flatMap_map]
    rfl
  cases c with
  | none => rw [chars, text, withCombinator, hmembers, combinatorChars, List.append_nil]
  | some c =>
    rw [chars, text, withCombinator, if_neg hbase, String.toList_append, String.toList_append,
      hmembers, combinatorChars]
    simp

/-! ## Single words -/

/-- The signatures whose text is one word, and no member's. -/
def singleWords : List Signature :=
  [.any, .never, .unknown] ++ Combinator.all.map fun c => .union [] (some c)

/-- The word tells the signature. -/
theorem eq_of_mem_singleWords {s t : Signature} (hs : s ∈ singleWords) (ht : t ∈ singleWords)
    (h : s.text = t.text) : s = t := by
  have hnodup : (singleWords.map text).Nodup := by decide +kernel
  exact List.inj_on_of_nodup_map hnodup hs ht h

theorem isAlpha_of_mem_singleWords : ∀ s ∈ singleWords, ∀ c ∈ s.chars, c.isAlpha = true := by
  have hall : ∀ s ∈ singleWords, s.chars.all Char.isAlpha = true := by decide +kernel
  exact fun s hs => List.all_eq_true.1 (hall s hs)

theorem chars_ne_nil_of_mem_singleWords : ∀ s ∈ singleWords, s.chars ≠ [] := by
  decide +kernel

theorem text_notMem_words : ∀ s ∈ singleWords, s.text ∉ Member.words := by
  decide +kernel

/-- A signature with a text is a single word or a union with members. -/
theorem mem_singleWords_or_union {s : Signature} (h : s.isBlank = false) :
    s ∈ singleWords ∨ ∃ m ms c, s = .union (m :: ms) c := by
  match s, h with
  | .any, _ => exact .inl (by simp [singleWords])
  | .never, _ => exact .inl (by simp [singleWords])
  | .unknown, _ => exact .inl (by simp [singleWords])
  | .union [] (some c), _ => exact .inl (by cases c <;> simp [singleWords, Combinator.all])
  | .union (m :: ms) c, _ => exact .inr ⟨m, ms, c, rfl⟩

end Signature

/-- The member has the name of a type, or elements that are well made and not
blank. -/
structure Member.WellMade (m : Member) : Prop where
  isNamed : m.IsNamed
  elements : ∀ e ∈ m.elements, e.WellMade
  shown : ∀ e ∈ m.elements, e.isBlank = false

namespace Signature

theorem WellMade.members {ms : List Member} {c : Option Combinator}
    (h : WellMade (.union ms c)) : ∀ m ∈ ms, m.WellMade := by
  cases h with
  | union hnamed hshown helements =>
    intro m hm
    exact ⟨hnamed m hm, helements m hm, hshown m hm⟩

/-- The text of a well-made signature that is not blank begins with a letter. -/
theorem WellMade.exists_letter {s : Signature} (hs : s.WellMade) (hblank : s.isBlank = false) :
    ∃ c cs, s.chars = c :: cs ∧ c.isAlpha = true := by
  have hfirst : ∀ {w r : List Char}, w ≠ [] → (∀ c ∈ w, c.isAlpha = true) →
      ∃ c cs, w ++ r = c :: cs ∧ c.isAlpha = true := by
    intro w r hne hw
    obtain ⟨c, cs, rfl⟩ := List.exists_cons_of_ne_nil hne
    exact ⟨c, cs ++ r, rfl, hw c List.mem_cons_self⟩
  rcases mem_singleWords_or_union hblank with hword | ⟨m, ms, c, rfl⟩
  · rw [← List.append_nil s.chars]
    exact hfirst (chars_ne_nil_of_mem_singleWords s hword) (isAlpha_of_mem_singleWords s hword)
  · have hm := (hs.members m List.mem_cons_self).isNamed
    have hword := Member.word_mem_words hm
    rw [chars_union_cons hm, Member.toList_text, List.append_assoc]
    exact hfirst (Member.ne_nil_of_mem_words _ hword) (Member.isAlpha_of_mem_words _ hword)

/-- A blank signature that is well made is the union without members. -/
theorem WellMade.eq_of_isBlank {s : Signature} (hs : s.WellMade) (hblank : s.isBlank = true) :
    s = .union [] none := by
  match s, hblank with
  | .union [] none, _ => rfl
  | .union [.named name] none, hblank =>
    have hempty : name = "" := by simpa [isBlank] using hblank
    have hname := (hs.members (.named name) List.mem_cons_self).isNamed name rfl
    simp [hempty, typeNames] at hname

/-! ## Brackets -/

theorem balanced_of_isAlpha {cs : List Char} (h : ∀ c ∈ cs, c.isAlpha = true) : Balanced cs := by
  have hbracket : ∀ c, c.isAlpha = false → c ∉ cs := by
    intro c hc hmem
    rw [h c hmem] at hc
    cases hc
  exact .plain (hbracket '<' (by decide)) (hbracket '>' (by decide))

theorem balanced_comma : Balanced comma :=
  .plain (by simp [comma]) (by simp [comma])

theorem balanced_bar : Balanced bar :=
  .plain (by simp [bar]) (by simp [bar])

theorem balanced_tailChars {tail : Option Signature} (h : ∀ e ∈ tail, Balanced e.chars) :
    Balanced (tailChars tail) := by
  cases tail with
  | none => exact .plain (by simp [tailChars]) (by simp [tailChars])
  | some e =>
    have hdots : dots = "...optional".toList ++ ['<'] := by decide +kernel
    have hshape : tailChars (some e) =
        comma ++ ("...optional".toList ++ '<' :: (e.chars ++ ['>'])) := by
      rw [tailChars, hdots, List.append_assoc]
      rfl
    have hword : Balanced "...optional".toList := .plain (by decide +kernel) (by decide +kernel)
    rw [hshape]
    exact .append balanced_comma (.append hword (.bracketed (h e rfl)))

theorem balanced_combinatorChars (c : Option Combinator) : Balanced (combinatorChars c) := by
  cases c with
  | none => exact .plain (by simp [combinatorChars]) (by simp [combinatorChars])
  | some c => cases c <;> exact .plain (by decide +kernel) (by decide +kernel)

end Signature

/-- The brackets of a member are balanced when those of its elements are. -/
theorem Member.balanced {m : Member} (hm : m.IsNamed) (h : ∀ e ∈ m.elements, Balanced e.chars) :
    Balanced m.text.toList := by
  have hword : Balanced m.word.toList :=
    Signature.balanced_of_isAlpha (isAlpha_of_mem_words _ (word_mem_words hm))
  rw [toList_text]
  refine .append hword ?_
  cases m with
  | named name => exact .plain (by simp [brackets]) (by simp [brackets])
  | array e => exact .bracketed (h e (by simp [elements]))
  | tuple first others tail =>
    simp only [elements, List.forall_mem_cons, List.forall_mem_append] at h
    obtain ⟨hfirst, hothers, htail⟩ := h
    have hshape : (tuple first others tail).brackets =
        '<' :: ((first.chars ++ ((others.flatMap fun s => Signature.comma ++ s.chars) ++
          Signature.tailChars tail)) ++ ['>']) := by
      simp [brackets]
    rw [hshape]
    exact .bracketed (.append hfirst (.append
      (.flatMap fun e he => .append Signature.balanced_comma (hothers e he))
      (Signature.balanced_tailChars fun e he => htail e (by simpa using he))))

namespace Signature

/-- **The brackets in the text of a well-made signature are balanced.** -/
theorem WellMade.balanced {s : Signature} (hs : s.WellMade) : Balanced s.chars := by
  have hword : ∀ {s}, s ∈ singleWords → Balanced s.chars :=
    fun hs => balanced_of_isAlpha (isAlpha_of_mem_singleWords _ hs)
  induction hs with
  | any => exact hword (by simp [singleWords])
  | never => exact hword (by simp [singleWords])
  | unknown => exact hword (by simp [singleWords])
  | @union members combinator hnamed _ _ ih =>
    match members, combinator with
    | [], none => exact .plain (by decide +kernel) (by decide +kernel)
    | [], some c => exact hword (by cases c <;> simp [singleWords, Combinator.all])
    | m :: ms, c =>
      have hmember : ∀ x ∈ m :: ms, Balanced x.text.toList :=
        fun x hx => Member.balanced (hnamed x hx) (ih x hx)
      rw [chars_union_cons (hnamed m List.mem_cons_self)]
      exact .append (hmember m List.mem_cons_self) (.append
        (.flatMap fun x hx => .append balanced_bar (hmember x (List.mem_cons_of_mem _ hx)))
        (balanced_combinatorChars c))

end Signature

end SchemaProse
