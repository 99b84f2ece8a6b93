import SchemaProse.Proofs.Json.Compact
import SchemaProse.Text.Trim
/-!
# Json — the compact text has no blank outside its strings

A text is scanned character by character: a quote opens a string, and the next quote
closes it that no backslash stands before. What stands outside the strings is left
(`outsideStrings`). A compact text closes every string that it opens, since no escape
closes one (`inside_escape`), and leaves no blank outside of them
(`tight_compactChars`); and it determines its value (`compact_determines`).
-/

namespace SchemaProse

namespace Json

/-! ## Strings in a text -/

/-- Where a character of a text stands. -/
inductive Place where
  /-- Outside the strings. -/
  | outside
  /-- Inside a string. -/
  | inString
  /-- Inside a string, behind the backslash of an escape. -/
  | escaped
deriving DecidableEq

/-- Where the next character stands. -/
def Place.after : Place → Char → Place
  | outside, c => if c = '"' then inString else outside
  | inString, c => if c = '"' then outside else if c = '\\' then escaped else inString
  | escaped, _ => inString

/-- Where the character behind a text stands. -/
def Place.behind (place : Place) (cs : List Char) : Place :=
  cs.foldl Place.after place

/-- The characters outside the strings of a text, the quotes left out. -/
def outsideStrings : Place → List Char → List Char
  | _, [] => []
  | .outside, c :: cs =>
    if c = '"' then outsideStrings .inString cs else c :: outsideStrings .outside cs
  | .inString, c :: cs => outsideStrings (Place.inString.after c) cs
  | .escaped, _ :: cs => outsideStrings .inString cs

variable {place : Place} {c : Char} {cs ds : List Char}

@[simp] theorem behind_nil : place.behind [] = place :=
  rfl

@[simp] theorem behind_cons : place.behind (c :: cs) = (place.after c).behind cs :=
  rfl

theorem behind_append : place.behind (cs ++ ds) = (place.behind cs).behind ds :=
  List.foldl_append

theorem outsideStrings_append (place : Place) (cs ds : List Char) :
    outsideStrings place (cs ++ ds) =
      outsideStrings place cs ++ outsideStrings (place.behind cs) ds := by
  induction cs generalizing place with
  | nil => rfl
  | cons c cs ih =>
    rw [List.cons_append, behind_cons]
    cases place with
    | outside =>
      rw [outsideStrings, outsideStrings, Place.after]
      split
      · exact ih .inString
      · rw [ih, List.cons_append]
    | inString => exact ih _
    | escaped => exact ih _

/-! ## Tight texts -/

/-- A text that closes every string it opens and has no blank outside of them. -/
structure Tight (cs : List Char) : Prop where
  /-- What follows the text stands outside its strings. -/
  closed : Place.outside.behind cs = .outside
  /-- No blank stands there. -/
  unspaced : ∀ c ∈ outsideStrings .outside cs, Text.isBlank c = false

theorem Tight.append (h : Tight cs) (h' : Tight ds) : Tight (cs ++ ds) where
  closed := by rw [behind_append, h.closed, h'.closed]
  unspaced := by
    rw [outsideStrings_append, h.closed]
    exact List.forall_mem_append.2 ⟨h.unspaced, h'.unspaced⟩

/-- The character is neither a quote nor a blank. -/
def isBare (c : Char) : Bool :=
  c != '"' && !Text.isBlank c

theorem tight_of_all (h : cs.all isBare = true) : Tight cs := by
  induction cs with
  | nil => exact ⟨rfl, List.forall_mem_nil _⟩
  | cons c cs ih =>
    rw [List.all_cons, isBare, Bool.and_eq_true, Bool.and_eq_true, bne_iff_ne,
      Bool.not_eq_true'] at h
    obtain ⟨⟨hquote, hblank⟩, hcs⟩ := h
    obtain ⟨hclosed, hunspaced⟩ := ih hcs
    refine ⟨?_, ?_⟩
    · rw [behind_cons, Place.after, if_neg hquote, hclosed]
    · rw [outsideStrings, if_neg hquote]
      exact List.forall_mem_cons.2 ⟨hblank, hunspaced⟩

theorem tight_flatMap {α : Type} {f : α → List Char} {xs : List α} (h : ∀ x ∈ xs, Tight (f x)) :
    Tight (xs.flatMap f) := by
  induction xs with
  | nil => exact tight_of_all rfl
  | cons x xs ih =>
    rw [List.flatMap_cons]
    exact (h x List.mem_cons_self).append (ih fun y hy => h y (List.mem_cons_of_mem _ hy))

/-- Tight texts with commas between them are tight. -/
theorem tight_commas {texts : List (List Char)} (h : ∀ t ∈ texts, Tight t) :
    Tight (commas texts) := by
  have hcomma : Tight [','] := tight_of_all (by decide)
  cases texts with
  | nil => exact tight_of_all rfl
  | cons t texts =>
    obtain ⟨ht, htexts⟩ := List.forall_mem_cons.1 h
    rw [commas, intercalate_cons]
    exact ht.append (tight_flatMap fun u hu => hcomma.append (htexts u hu))

/-! ## Strings -/

/-- A part of a string that does not close it. -/
structure Inside (cs : List Char) : Prop where
  /-- What follows it still stands in the string. -/
  behind : Place.inString.behind cs = .inString
  /-- And nothing of it stands outside. -/
  outside : outsideStrings .inString cs = []

theorem Inside.append (h : Inside cs) (h' : Inside ds) : Inside (cs ++ ds) where
  behind := by rw [behind_append, h.behind, h'.behind]
  outside := by rw [outsideStrings_append, h.behind, h.outside, h'.outside, List.append_nil]

/-- A character that needs no escape. -/
theorem inside_singleton (hquote : c ≠ '"') (hbackslash : c ≠ '\\') : Inside [c] := by
  have hafter : Place.inString.after c = .inString := by
    rw [Place.after, if_neg hquote, if_neg hbackslash]
  exact ⟨by rw [behind_cons, hafter, behind_nil], by rw [outsideStrings, hafter, outsideStrings]⟩

/-- The escape of a control character by its code unit. -/
theorem inside_control {k : ℕ} (hk : k < 0x20) :
    Inside ['\\', 'u', '0', '0', hexDigit (k / 16), hexDigit (k % 16)] := by
  interval_cases k <;> exact ⟨rfl, rfl⟩

/-- **No escape closes the string that it stands in.** -/
theorem inside_escape (c : Char) : Inside (escape c) := by
  rcases escape_cases c with ⟨e, -, -, hescape⟩ | ⟨hcontrol, hescape⟩ |
    ⟨hquote, hbackslash, -, hescape⟩
  · rw [hescape]
    exact ⟨rfl, rfl⟩
  · rw [hescape]
    exact inside_control hcontrol
  · rw [hescape]
    exact inside_singleton hquote hbackslash

theorem inside_escapes (cs : List Char) : Inside (cs.flatMap escape) := by
  induction cs with
  | nil => exact ⟨rfl, rfl⟩
  | cons c cs ih =>
    rw [List.flatMap_cons]
    exact (inside_escape c).append ih

/-- A string in quotes leaves nothing outside. -/
theorem tight_quoted (s : String) : Tight (quoted s) := by
  have hinside := inside_escapes s.toList
  constructor
  · rw [quoted, behind_cons, behind_append]
    change ((Place.inString.behind _).behind _) = _
    rw [hinside.behind]
    rfl
  · have hnone : outsideStrings .outside (quoted s) = [] := by
      rw [quoted, outsideStrings, if_pos rfl, outsideStrings_append, hinside.outside,
        hinside.behind]
      rfl
    rw [hnone]
    exact List.forall_mem_nil _

/-! ## Values -/

/-- **The compact text of a value is tight.** -/
theorem tight_compactChars (j : Json) : Tight j.compactChars := by
  induction j using Json.ind with
  | null => exact tight_of_all (by decide)
  | bool b => cases b <;> exact tight_of_all (by decide)
  | num n =>
    have hall : Number.exactAlphabet.all isBare = true := by decide
    exact tight_of_all (List.all_eq_true.2 fun c hc =>
      List.all_eq_true.1 hall c (Number.mem_exactAlphabet hc))
  | str s => exact tight_quoted s
  | arr items ih =>
    have hopen : Tight ['['] := tight_of_all (by decide)
    have hclose : Tight [']'] := tight_of_all (by decide)
    rw [compactChars, compactItems_eq_map]
    exact hopen.append ((tight_commas (List.forall_mem_map.2 ih)).append hclose)
  | obj members ih =>
    have hopen : Tight ['{'] := tight_of_all (by decide)
    have hclose : Tight ['}'] := tight_of_all (by decide)
    have hcolon : Tight [':'] := tight_of_all (by decide)
    have hmembers : ∀ m ∈ members, Tight (memberChars m) := fun m hm =>
      (tight_quoted m.1).append (hcolon.append (ih m hm))
    rw [compactChars, compactMembers_eq_map]
    exact hopen.append ((tight_commas (List.forall_mem_map.2 hmembers)).append hclose)

/-- **The compact text determines the value**, with the order of members and the
kinds of numbers, and has no blank outside its strings. -/
theorem compact_determines (v w : Json) :
    (v.compact = w.compact ↔ v = w) ∧ Tight v.compact.toList := by
  refine ⟨⟨fun h => ?_, fun h => congrArg compact h⟩, ?_⟩
  · have hchars : v.compactChars ++ [] = w.compactChars ++ [] := by
      rw [List.append_nil, List.append_nil]
      exact String.ofList_injective h
    exact (compactChars_append_inj startsIn_nil startsIn_nil hchars).1
  · rw [compact, String.toList_ofList]
    exact tight_compactChars v

/-- Blanks, brackets and quotes of a string are not outside of it. -/
example : outsideStrings .outside
    (compact (.obj [("a \"b", .arr [.str "\\", .str " ] "]), ("", .null)])).toList =
      "{:[,],:null}".toList := by decide +kernel

end Json

end SchemaProse
