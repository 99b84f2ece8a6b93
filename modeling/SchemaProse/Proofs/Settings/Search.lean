import SchemaProse.Proofs.Number.Value
import SchemaProse.Proofs.Settings.FilePath
import SchemaProse.Settings.Source
/-!
# Settings — the search for files

What a file offers is described here by how its path is spelt and by what stands
in its table (`Offers`), of whatever shapes that is: a project file offers the
section of this tool, and any other file its table of helpers, or all of it. A
file is *usable* when it is parsed and offers something. A search through some
files finds what the first usable one offers; it passes over every file that is
missing, invalid or of no use, and a file that cannot be read stops it. A file
that is asked for is the only one that is looked at, and the only one that can
be to blame (`readsInOrder`).
-/

namespace SchemaProse

namespace Settings

/-! ## What is selected -/

/-- There is nothing in the value: it is none, `false`, zero or an empty text,
list or table. -/
inductive Hollow : Json → Prop
  | null : Hollow .null
  | no : Hollow (.bool false)
  | zero {n : Number} : n.value = .rational 0 → Hollow (.num n)
  | text : Hollow (.str "")
  | items : Hollow (.arr [])
  | members : Hollow (.obj [])

/-- The path leads to a project file, in whatever folder and however it is
spelt. -/
def LeadsToProject (path : String) : Prop :=
  FilePath.EndsIn "pyproject.toml".toList path.toList

/-- The value that a file with these members offers. -/
inductive Offers (path : String) (members : List (String × Json)) : Json → Prop
  /-- A project file has a section for this tool among its tools. -/
  | tool {tools : List (String × Json)} {value : Json} : LeadsToProject path →
      members.lookup "tool" = some (.obj tools) → tools.lookup "schemadoc" = some value →
      Offers path members value
  /-- Any other file has a table of helpers. -/
  | helpers {helpers : List (String × Json)} : ¬ LeadsToProject path →
      members.lookup "helpers" = some (.obj helpers) → Offers path members (.obj helpers)
  /-- It has none, and offers all of its members. -/
  | whole : ¬ LeadsToProject path →
      (∀ helpers, members.lookup "helpers" ≠ some (.obj helpers)) →
      Offers path members (.obj members)

/-- The file is parsed and offers the value, in which there is something. -/
inductive Usable (documents : FilePath → Document) (path : String) (value : Json) : Prop
  | intro {members : List (String × Json)} : documents (.ofText path) = .table members →
      Offers path members value → ¬ Hollow value → Usable documents path value

/-- The file cannot be read, which is neither to be missing nor to be
invalid. -/
def Unreadable (documents : FilePath → Document) (path : String) (failure : String) : Prop :=
  documents (.ofText path) = .unreadable failure

/-- The file can be read if it is there, and is of no use. -/
structure PassedOver (documents : FilePath → Document) (path : String) : Prop where
  readable : ∀ failure, ¬ Unreadable documents path failure
  useless : ∀ value, ¬ Usable documents path value

/-- What is found in the first usable one of some files. -/
inductive Finds (documents : FilePath → Document) : List String → Json → Prop
  /-- The next file is usable. -/
  | here {path : String} {paths : List String} {value : Json} : Usable documents path value →
      Finds documents (path :: paths) value
  /-- It is passed over. -/
  | next {path : String} {paths : List String} {value : Json} : PassedOver documents path →
      Finds documents paths value → Finds documents (path :: paths) value
  /-- There is no file left. -/
  | nowhere : Finds documents [] .null

/-- The failure of the first one of some files that is not passed over. -/
inductive Stops (documents : FilePath → Document) : List String → String → Prop
  /-- The next file cannot be read. -/
  | here {path : String} {paths : List String} {failure : String} :
      Unreadable documents path failure → Stops documents (path :: paths) failure
  /-- It is passed over. -/
  | next {path : String} {paths : List String} {failure : String} : PassedOver documents path →
      Stops documents paths failure → Stops documents (path :: paths) failure

/-- The files that are searched when none is asked for. -/
def usualFiles : List String :=
  ["schemadoc.toml", "pyproject.toml"]

/-- The configuration that settings are read from, `null` when there is none. -/
inductive Selects (documents : FilePath → Document) : Option String → Json → Prop
  /-- The file asked for offers it. -/
  | offered {path : String} {members : List (String × Json)} {value : Json} :
      documents (.ofText path) = .table members → Offers path members value →
      Selects documents (some path) value
  /-- The file asked for offers none. -/
  | nothing {path : String} {members : List (String × Json)} :
      documents (.ofText path) = .table members → (∀ value, ¬ Offers path members value) →
      Selects documents (some path) .null
  /-- No file is asked for, and the search finds it. -/
  | found {value : Json} : Finds documents usualFiles value → Selects documents none value

/-- The failure that is passed on. -/
inductive Fails (documents : FilePath → Document) : Option String → String → Prop
  /-- The file asked for cannot be read. -/
  | asked {path failure : String} : Unreadable documents path failure →
      Fails documents (some path) failure
  /-- No file is asked for, and the search stops. -/
  | searched {failure : String} : Stops documents usualFiles failure →
      Fails documents none failure

/-- Settings are read from the file that is asked for, or from the first usable
one. -/
structure ReadsInOrder (documents : FilePath → Document) : Prop where
  /-- Settings are read exactly when a configuration is selected, and are the
  initial ones under it. -/
  ok_iff : ∀ path s, fromFiles documents path = .ok s ↔
    ∃ value, Selects documents path value ∧ s = layer {} value
  /-- A file that is asked for is to blame when it is missing or invalid, and
  only then. -/
  blamed_iff : ∀ path e, fromFiles documents (some path) = .error (.config e) ↔
    (documents (.ofText path) = .absent ∧ e = .notFound (.ofText path)) ∨
      ∃ reason, documents (.ofText path) = .invalid reason ∧ e = .invalid (.ofText path) reason
  /-- No other file matters to it. -/
  alone : ∀ (others : FilePath → Document) (path : String),
    others (.ofText path) = documents (.ofText path) →
      fromFiles others (some path) = fromFiles documents (some path)
  /-- When no file is asked for, none is to blame. -/
  blameless : ∀ e, fromFiles documents none ≠ .error (.config e)
  /-- And settings are read whenever both files are missing, invalid or
  parsed. -/
  total : (∀ path ∈ usualFiles, ∀ failure, ¬ Unreadable documents path failure) →
    ∃ s, fromFiles documents none = .ok s
  /-- What else can fail is a file that cannot be read, when it is asked for or
  the search comes to it, and its failure is passed on. -/
  failed_iff : ∀ path failure, fromFiles documents path = .error (.unreadable failure) ↔
    Fails documents path failure
  /-- A settings file that is passed over does not hide a usable project
  file. -/
  not_hidden : ∀ value, PassedOver documents "schemadoc.toml" →
    Usable documents "pyproject.toml" value →
      fromFiles documents none = .ok (layer {} value) ∧
        fromFiles documents (some "pyproject.toml") = .ok (layer {} value)
  /-- When both files are passed over, the settings stay as they are
  initially. -/
  initial : (∀ path ∈ usualFiles, PassedOver documents path) → fromFiles documents none = .ok {}

variable {documents : FilePath → Document} {path : String} {paths : List String}
variable {members : List (String × Json)} {value : Json} {failure : String} {s : Settings}

/-! ## What a file offers -/

theorem name_eq_projectName_iff : (FilePath.ofText path).name = projectName ↔ LeadsToProject path :=
  FilePath.name_ofText_iff (p := ⟨"pyproject.toml".toList, by decide⟩)

theorem offered_of_leadsToProject (h : LeadsToProject path) :
    offered (.ofText path) members =
      ((members.lookup "tool").bind (·.member? "schemadoc")).getD .null :=
  if_pos (name_eq_projectName_iff.2 h)

theorem offered_of_not_leadsToProject (h : ¬ LeadsToProject path) :
    offered (.ofText path) members =
      match members.lookup "helpers" with
      | some (.obj helpers) => .obj helpers
      | _ => .obj members :=
  if_neg (name_eq_projectName_iff.not.2 h)

/-- A file offers at most one value. -/
theorem offered_eq_of_offers (h : Offers path members value) :
    offered (.ofText path) members = value := by
  cases h with
  | tool hproject htool hsection =>
    rw [offered_of_leadsToProject hproject, htool, Option.bind_some, Json.member?, Json.obj?,
      Option.bind_some, hsection, Option.getD_some]
  | helpers hproject hhelpers => rw [offered_of_not_leadsToProject hproject, hhelpers]
  | whole hproject hhelpers =>
    rw [offered_of_not_leadsToProject hproject]
    split
    next helpers h => exact absurd h (hhelpers helpers)
    next => rfl

/-- What a file offers is offered, or else there is nothing. -/
theorem offers_offered_or (path : String) (members : List (String × Json)) :
    Offers path members (offered (.ofText path) members) ∨
      (∀ value, ¬ Offers path members value) ∧ offered (.ofText path) members = .null := by
  by_cases hproject : LeadsToProject path
  · rw [offered_of_leadsToProject hproject]
    cases hsection : (members.lookup "tool").bind (·.member? "schemadoc") with
    | some value =>
      obtain ⟨tool, htool, hvalue⟩ := Option.bind_eq_some_iff.1 hsection
      rw [Option.getD_some]
      cases tool with
      | obj tools => exact .inl (.tool hproject htool hvalue)
      | _ => cases hvalue
    | none =>
      refine .inr ⟨?_, rfl⟩
      rintro value (⟨-, htool, hvalue⟩ | ⟨hnot, -⟩ | ⟨hnot, -⟩)
      · rw [htool] at hsection
        cases hsection.symm.trans hvalue
      · exact hnot hproject
      · exact hnot hproject
  · left
    rw [offered_of_not_leadsToProject hproject]
    split
    next helpers hhelpers => exact .helpers hproject hhelpers
    next hhelpers => exact .whole hproject hhelpers

/-- **What is taken from a file is what it offers**, or nothing. -/
theorem offered_eq_iff :
    offered (.ofText path) members = value ↔
      Offers path members value ∨ (∀ other, ¬ Offers path members other) ∧ value = .null := by
  constructor
  · rintro rfl
    exact offers_offered_or path members
  · rintro (hoffers | ⟨hnone, rfl⟩)
    · exact offered_eq_of_offers hoffers
    · rcases offers_offered_or path members with hoffers | ⟨-, hnull⟩
      · exact absurd hoffers (hnone _)
      · exact hnull

theorem hollow_iff : Hollow value ↔ isFilled value = false := by
  have hzero : ∀ n : Number, n.toInt? = some 0 ↔ n.value = .rational 0 := by
    intro n
    rw [Number.toInt?_eq_some_iff, Int.cast_zero]
  constructor
  · rintro (_ | _ | hvalue | _ | _ | _)
    case zero => simp [isFilled, (hzero _).2 hvalue]
    all_goals rfl
  · intro h
    cases value with
    | null => exact .null
    | bool b =>
      obtain rfl : b = false := h
      exact .no
    | num n => exact .zero ((hzero n).1 (by simpa [isFilled] using h))
    | str s =>
      obtain rfl : s = "" := by simpa [isFilled] using h
      exact .text
    | arr items =>
      obtain rfl : items = [] := by simpa [isFilled] using h
      exact .items
    | obj members =>
      obtain rfl : members = [] := by simpa [isFilled] using h
      exact .members

/-! ## The search -/

/-- A file is usable with one value. -/
theorem Usable.eq {other : Json} (h : Usable documents path value)
    (h' : Usable documents path other) : value = other := by
  obtain ⟨htable, hoffers, -⟩ := h
  obtain ⟨htable', hoffers', -⟩ := h'
  obtain rfl := Document.table.inj (htable.symm.trans htable')
  exact (offered_eq_of_offers hoffers).symm.trans (offered_eq_of_offers hoffers')

/-- A file that cannot be read is not usable. -/
theorem Unreadable.not_usable (h : Unreadable documents path failure) :
    ¬ Usable documents path value := by
  rintro ⟨htable, -, -⟩
  cases h.symm.trans htable

/-- A file without a table that can be read is passed over. -/
theorem passedOver_of_ne (hreadable : ∀ failure, documents (.ofText path) ≠ .unreadable failure)
    (htable : ∀ members, documents (.ofText path) ≠ .table members) :
    PassedOver documents path where
  readable := hreadable
  useless _ husable := by
    obtain ⟨htable', -, -⟩ := husable
    exact htable _ htable'

/-- A file with a table is usable or passed over, as what it offers is. -/
theorem usable_or_passedOver (htable : documents (.ofText path) = .table members) :
    isFilled (offered (.ofText path) members) = true ∧
        Usable documents path (offered (.ofText path) members) ∨
      isFilled (offered (.ofText path) members) = false ∧ PassedOver documents path := by
  cases hfilled : isFilled (offered (.ofText path) members) with
  | true =>
    have hhollow : ¬ Hollow (offered (.ofText path) members) := by
      rw [hollow_iff, hfilled]
      exact Bool.noConfusion
    rcases offers_offered_or path members with hoffers | ⟨-, hnull⟩
    · exact .inl ⟨rfl, .intro htable hoffers hhollow⟩
    · rw [hnull] at hhollow
      exact absurd .null hhollow
  | false =>
    refine .inr ⟨rfl, fun failure hfailure => ?_, ?_⟩
    · cases htable.symm.trans hfailure
    · rintro value ⟨htable', hoffers, hhollow⟩
      obtain rfl := Document.table.inj (htable.symm.trans htable')
      rw [offered_eq_of_offers hoffers] at hfilled
      exact hhollow (hollow_iff.2 hfilled)

/-- **A step of the search** finds what a usable file offers, stops at a file
that cannot be read, and leaves every other file for the next. -/
theorem search_cons_cases (documents : FilePath → Document) (path : String)
    (paths : List FilePath) :
    (∃ value, Usable documents path value ∧
        search documents (.ofText path :: paths) = .ok value) ∨
      (∃ failure, Unreadable documents path failure ∧
        search documents (.ofText path :: paths) = .error (.unreadable failure)) ∨
      PassedOver documents path ∧
        search documents (.ofText path :: paths) = search documents paths := by
  rw [search]
  cases hdocument : documents (.ofText path) with
  | absent => exact .inr (.inr ⟨passedOver_of_ne (by simp [hdocument]) (by simp [hdocument]), rfl⟩)
  | invalid reason =>
    exact .inr (.inr ⟨passedOver_of_ne (by simp [hdocument]) (by simp [hdocument]), rfl⟩)
  | unreadable failure => exact .inr (.inl ⟨failure, hdocument, rfl⟩)
  | table members =>
    rcases usable_or_passedOver hdocument with ⟨hfilled, husable⟩ | ⟨hfilled, hpassed⟩
    · exact .inl ⟨_, husable, if_pos hfilled⟩
    · exact .inr (.inr ⟨hpassed, if_neg (Bool.eq_false_iff.1 hfilled)⟩)

/-- **A search comes out with what is found.** -/
theorem search_eq_ok_iff :
    search documents (paths.map .ofText) = .ok value ↔ Finds documents paths value := by
  induction paths with
  | nil =>
    constructor
    · intro h
      obtain rfl := Except.ok.inj h
      exact .nowhere
    · rintro ⟨⟩
      rfl
  | cons path paths ih =>
    rw [List.map_cons]
    rcases search_cons_cases documents path (paths.map .ofText) with
      ⟨found, husable, hsearch⟩ | ⟨failure, hfailure, hsearch⟩ | ⟨hpassed, hsearch⟩
    · rw [hsearch, Except.ok.injEq]
      constructor
      · rintro rfl
        exact .here husable
      · rintro (husable' | ⟨hpassed, -⟩)
        · exact husable.eq husable'
        · exact absurd husable (hpassed.useless _)
    · rw [hsearch]
      refine iff_of_false (by rintro ⟨⟩) ?_
      rintro (husable | ⟨hpassed, -⟩)
      · exact hfailure.not_usable husable
      · exact hpassed.readable _ hfailure
    · rw [hsearch, ih]
      constructor
      · exact .next hpassed
      · rintro (husable | ⟨-, hfinds⟩)
        · exact absurd husable (hpassed.useless _)
        · exact hfinds

/-- **And fails with what stops it.** -/
theorem search_eq_error_iff {e : LoadError} :
    search documents (paths.map .ofText) = .error e ↔
      ∃ failure, Stops documents paths failure ∧ e = .unreadable failure := by
  induction paths with
  | nil =>
    refine iff_of_false (by rintro ⟨⟩) ?_
    rintro ⟨failure, ⟨⟩, -⟩
  | cons path paths ih =>
    rw [List.map_cons]
    rcases search_cons_cases documents path (paths.map .ofText) with
      ⟨found, husable, hsearch⟩ | ⟨failure, hfailure, hsearch⟩ | ⟨hpassed, hsearch⟩
    · rw [hsearch]
      refine iff_of_false (by rintro ⟨⟩) ?_
      rintro ⟨failure, hfailure | ⟨hpassed, -⟩, -⟩
      · exact hfailure.not_usable husable
      · exact hpassed.useless _ husable
    · rw [hsearch, Except.error.injEq]
      constructor
      · rintro rfl
        exact ⟨failure, .here hfailure, rfl⟩
      · rintro ⟨failure', hfailure' | ⟨hpassed, -⟩, rfl⟩
        · obtain rfl := Document.unreadable.inj (hfailure.symm.trans hfailure')
          rfl
        · exact absurd hfailure (hpassed.readable _)
    · rw [hsearch, ih]
      refine exists_congr fun failure => and_congr_left fun _ => ?_
      constructor
      · exact .next hpassed
      · rintro (hfailure | ⟨-, hstops⟩)
        · exact absurd hfailure (hpassed.readable _)
        · exact hstops

/-- Only a file that cannot be read stops a search. -/
theorem Stops.exists_unreadable (h : Stops documents paths failure) :
    ∃ path ∈ paths, Unreadable documents path failure := by
  induction h with
  | here hfailure => exact ⟨_, List.mem_cons_self, hfailure⟩
  | next _ _ ih =>
    obtain ⟨path, hpath, hfailure⟩ := ih
    exact ⟨path, List.mem_cons_of_mem _ hpath, hfailure⟩

/-! ## The file that is asked for -/

theorem asked_eq_ok_iff :
    asked documents (.ofText path) = .ok value ↔
      ∃ members, documents (.ofText path) = .table members ∧
        offered (.ofText path) members = value := by
  rw [asked]
  cases documents (.ofText path) <;> simp

theorem asked_eq_error_iff {path : FilePath} {e : LoadError} :
    asked documents path = .error e ↔
      documents path = .absent ∧ e = .config (.notFound path) ∨
        (∃ reason, documents path = .invalid reason ∧ e = .config (.invalid path reason)) ∨
          ∃ failure, documents path = .unreadable failure ∧ e = .unreadable failure := by
  rw [asked]
  cases documents path <;> simp [eq_comm]

/-! ## Settings from files -/

theorem selected_none : selected documents none = search documents (usualFiles.map .ofText) :=
  rfl

theorem selected_some : selected documents (some path) = asked documents (.ofText path) :=
  rfl

/-- **The configuration that is read is the one that is selected.** -/
theorem selected_eq_ok_iff {path : Option String} :
    selected documents path = .ok value ↔ Selects documents path value := by
  cases path with
  | none =>
    rw [selected_none, search_eq_ok_iff]
    constructor
    · exact .found
    · rintro (_ | _ | hfinds)
      exact hfinds
  | some path =>
    rw [selected_some, asked_eq_ok_iff]
    constructor
    · rintro ⟨members, htable, hoffered⟩
      rcases offered_eq_iff.1 hoffered with hoffers | ⟨hnone, rfl⟩
      · exact .offered htable hoffers
      · exact .nothing htable hnone
    · rintro (⟨htable, hoffers⟩ | ⟨htable, hnone⟩ | _)
      · exact ⟨_, htable, offered_eq_iff.2 (.inl hoffers)⟩
      · exact ⟨_, htable, offered_eq_iff.2 (.inr ⟨hnone, rfl⟩)⟩

theorem selected_eq_unreadable_iff {path : Option String} :
    selected documents path = .error (.unreadable failure) ↔ Fails documents path failure := by
  cases path with
  | none =>
    rw [selected_none, search_eq_error_iff]
    constructor
    · rintro ⟨failure', hstops, hfailure⟩
      obtain rfl := LoadError.unreadable.inj hfailure
      exact .searched hstops
    · rintro (_ | hstops)
      exact ⟨failure, hstops, rfl⟩
  | some path =>
    rw [selected_some, asked_eq_error_iff]
    constructor
    · rintro (⟨-, ⟨⟩⟩ | ⟨reason, -, ⟨⟩⟩ | ⟨failure', hfailure', hfailure⟩)
      obtain rfl := LoadError.unreadable.inj hfailure
      exact .asked hfailure'
    · rintro (hfailure | _)
      exact .inr (.inr ⟨failure, hfailure, rfl⟩)

/-- **Settings come from files exactly when a configuration is selected**, and
are the initial ones under it. -/
theorem fromFiles_eq_ok_iff {path : Option String} :
    fromFiles documents path = .ok s ↔
      ∃ value, Selects documents path value ∧ s = layer {} value := by
  simp only [← selected_eq_ok_iff]
  rw [fromFiles]
  cases selected documents path <;> simp [Except.map, eq_comm]

theorem fromFiles_eq_error_iff {path : Option String} {e : LoadError} :
    fromFiles documents path = .error e ↔ selected documents path = .error e := by
  rw [fromFiles]
  cases selected documents path <;> simp [Except.map]

/-- A file can be asked for by the path that a message shows. -/
theorem fromFiles_text (documents : FilePath → Document) (path : String) :
    fromFiles documents (some (FilePath.ofText path).text) = fromFiles documents (some path) := by
  rw [fromFiles, fromFiles, selected_some, selected_some, FilePath.ofText_text]

/-- **Settings are read from the file that is asked for, or from the first
usable one**, whatever the files hold. -/
theorem readsInOrder (documents : FilePath → Document) : ReadsInOrder documents where
  ok_iff _ _ := fromFiles_eq_ok_iff
  blamed_iff path e := by
    rw [fromFiles_eq_error_iff, selected_some, asked_eq_error_iff]
    simp
  alone others path h := by
    rw [fromFiles, fromFiles, selected_some, selected_some, asked, asked, h]
  blameless e h := by
    rw [fromFiles_eq_error_iff, selected_none, search_eq_error_iff] at h
    obtain ⟨failure, -, he⟩ := h
    cases he
  total hreadable := by
    cases hselected : selected documents none with
    | ok value => exact ⟨_, fromFiles_eq_ok_iff.2 ⟨value, selected_eq_ok_iff.1 hselected, rfl⟩⟩
    | error e =>
      rw [selected_none, search_eq_error_iff] at hselected
      obtain ⟨failure, hstops, -⟩ := hselected
      obtain ⟨path, hpath, hfailure⟩ := hstops.exists_unreadable
      exact absurd hfailure (hreadable path hpath failure)
  failed_iff _ _ := fromFiles_eq_error_iff.trans selected_eq_unreadable_iff
  not_hidden value hpassed husable := by
    obtain ⟨htable, hoffers, -⟩ := id husable
    refine ⟨fromFiles_eq_ok_iff.2 ⟨value, .found (.next hpassed (.here husable)), rfl⟩, ?_⟩
    exact fromFiles_eq_ok_iff.2 ⟨value, .offered htable hoffers, rfl⟩
  initial hpassed := by
    have hfinds : Finds documents usualFiles .null :=
      .next (hpassed _ List.mem_cons_self)
        (.next (hpassed _ (List.mem_cons_of_mem _ List.mem_cons_self)) .nowhere)
    exact fromFiles_eq_ok_iff.2 ⟨.null, .found hfinds, rfl⟩

/-- What the settings file holds: an empty table of helpers beside a literal. -/
def oddSettings : List (String × Json) :=
  [("helpers", .obj []), ("null_literal", .str "none")]

/-- What the project file holds: a section for this tool, and helpers that are no
table. -/
def oddProject : List (String × Json) :=
  [("helpers", .num (.int 0)),
    ("tool", .obj [("schemadoc", .obj [("null_literal", .str "nil")])])]

/-- The two files, and bytes that are no text in every other one. -/
def oddDocuments (path : FilePath) : Document :=
  if path = .ofText "schemadoc.toml" then .table oddSettings
  else if path = .ofText "pyproject.toml" then .table oddProject
  else .unreadable "invalid start byte"

/-- The empty table of helpers is all that the settings file offers, so it does
not hide the project file, which is the same however its path is spelt. -/
theorem readsInOrder_oddDocuments :
    fromFiles oddDocuments none = .ok ⟨"nil", "", []⟩ ∧
      fromFiles oddDocuments (some "schemadoc.toml") = .ok {} ∧
      fromFiles oddDocuments (some ".//pyproject.toml/.") = .ok ⟨"nil", "", []⟩ ∧
      fromFiles oddDocuments (some "notes/pyproject.toml") =
        .error (.unreadable "invalid start byte") := by
  have hsettings : oddDocuments (.ofText "schemadoc.toml") = .table oddSettings := if_pos rfl
  have hproject : oddDocuments (.ofText "pyproject.toml") = .table oddProject := by
    rw [oddDocuments, if_neg (by decide +kernel), if_pos rfl]
  have hspelt : FilePath.ofText ".//pyproject.toml/." = .ofText "pyproject.toml" := by
    decide +kernel
  have hrespelt : oddDocuments (.ofText ".//pyproject.toml/.") = .table oddProject := by
    rw [hspelt, hproject]
  have hnotes : Unreadable oddDocuments "notes/pyproject.toml" "invalid start byte" := by
    rw [Unreadable, oddDocuments, if_neg (by decide +kernel), if_neg (by decide +kernel)]
  have hhelpers : Offers "schemadoc.toml" oddSettings (.obj []) :=
    .helpers (name_eq_projectName_iff.not.1 (by decide +kernel)) rfl
  have hpassed : PassedOver oddDocuments "schemadoc.toml" := by
    refine ⟨fun failure hfailure => ?_, ?_⟩
    · cases hsettings.symm.trans hfailure
    · rintro value ⟨htable, hoffers, hhollow⟩
      obtain rfl := Document.table.inj (hsettings.symm.trans htable)
      obtain rfl := (offered_eq_of_offers hhelpers).symm.trans (offered_eq_of_offers hoffers)
      exact hhollow .members
  have husable : Usable oddDocuments "pyproject.toml" (.obj [("null_literal", .str "nil")]) :=
    .intro hproject (.tool .alone rfl rfl) (by rintro ⟨⟩)
  have hreads := readsInOrder oddDocuments
  refine ⟨(hreads.not_hidden _ hpassed husable).1, ?_, ?_, ?_⟩
  · exact (hreads.ok_iff _ _).2 ⟨_, .offered hsettings hhelpers, rfl⟩
  · have hoffers : Offers ".//pyproject.toml/." oddProject (.obj [("null_literal", .str "nil")]) :=
      .tool (.dot (.inside ['.', '/'])) rfl rfl
    exact (hreads.ok_iff _ _).2 ⟨_, .offered hrespelt hoffers, rfl⟩
  · exact (hreads.failed_iff _ _).2 (.asked hnotes)

end Settings

end SchemaProse
