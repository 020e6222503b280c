import ExprFront.Program.Options
import ExprFront.Proofs.OperatorSpecs

/-!
# Operators from the environment

A table can be handed on through the environment: written with commas between its entries it comes
back as it was, on top of the default table, whatever entries that are no specifications stand
between its own.
-/

namespace ExprFront
set_option autoImplicit false

namespace Text

theorem isSpace_of_isDigitOrUnderscore {c : Char} (h : isDigitOrUnderscore c = true) :
    isSpace c = false := by
  rw [Bool.eq_false_iff]
  intro hc
  have hne : c ≠ '_' := by
    rintro rfl
    exact absurd hc (by decide)
  rw [isDigitOrUnderscore, decide_eq_false hne, digitValue?_of_isSpace hc] at h
  simp at h

/-- The text of an integer has digits, and a minus perhaps. -/
theorem mem_repr (n : Int) : ∀ c ∈ n.repr.toList, isDigitOrUnderscore c = true ∨ c = '-' := by
  obtain ⟨ds, hds, -⟩ := spellsDigits_toDigits n.natAbs
  cases n with
  | ofNat m =>
    rw [Int.repr, Nat.toList_repr]
    exact fun c hc => .inl (hds.all c hc)
  | negSucc m =>
    rw [Int.repr, String.toList_append, Nat.toList_repr]
    intro c hc
    obtain hminus | hdigit := List.mem_append.mp hc
    · exact .inr (List.mem_singleton.mp hminus)
    · exact .inl (hds.all c hdigit)

theorem notMem_repr (n : Int) {c : Char} (hc : isDigitOrUnderscore c = false) (hne : c ≠ '-') :
    c ∉ n.repr.toList := by
  intro hmem
  obtain hdigit | hminus := mem_repr n c hmem
  · rw [hc] at hdigit
    simp at hdigit
  · exact hne hminus

theorem isSpace_of_mem_repr {n : Int} : ∀ c ∈ n.repr.toList, isSpace c = false := by
  intro c hc
  obtain hdigit | rfl := mem_repr n c hc
  · exact isSpace_of_isDigitOrUnderscore hdigit
  · decide

end Text

/-! ## Entries as texts -/

/-- The specification of an operator. -/
def specText (c : Char) (n : Int) : String :=
  String.singleton c ++ "=" ++ n.repr

theorem toList_specText (c : Char) (n : Int) :
    (specText c n).toList = c :: '=' :: n.repr.toList := by
  simp [specText]

/-- The entry can be written into a list with commas and read back: its operator is no comma and not
blank, and its precedence has not too many digits. -/
structure IsWritable (c : Char) (n : Int) : Prop where
  ne_comma : c ≠ ','
  notSpace : Text.isSpace c = false
  short : (Nat.toDigits 10 n.natAbs).length ≤ Text.digitLimit

section
variable {c : Char} {n : Int}

theorem IsWritable.isSpec (h : IsWritable c n) : IsSpec (specText c n).toList c n := by
  have hlast : ∀ d, (c :: '=' :: n.repr.toList).getLast? = some d → Text.isSpace d = false := by
    intro d hd
    have hmem := List.mem_of_getLast? hd
    obtain rfl | rfl | hmem := (List.mem_cons.mp hmem).imp_right List.mem_cons.mp
    · exact h.notSpace
    · decide
    · exact Text.isSpace_of_mem_repr d hmem
  refine ⟨n.repr.toList, ⟨?_, Text.notMem_repr n (by decide) (by decide)⟩,
    Text.spellsInteger_repr h.short⟩
  rw [toList_specText]
  refine ⟨⟨[], [], by simp, by simp, by simp⟩, ?_, hlast⟩
  rintro d ⟨⟩
  exact h.notSpace

theorem IsWritable.comma_notMem (h : IsWritable c n) : ',' ∉ (specText c n).toList := by
  rw [toList_specText]
  have hrepr := Text.notMem_repr n (c := ',') (by decide) (by decide)
  simp [h.ne_comma.symm, hrepr]

end

/-- The entries of a table, with entries that are blank or no specifications anywhere between. -/
inductive ListsEntries : List (Char × Int) → List String → Prop
  | nil : ListsEntries [] []
  | entry {c : Char} {n : Int} {es : List (Char × Int)} {texts : List String}
      (h : ListsEntries es texts) : ListsEntries ((c, n) :: es) (specText c n :: texts)
  | other {s : String} {es : List (Char × Int)} {texts : List String} (hcomma : ',' ∉ s.toList)
      (hs : Options.isBlankEntry s = true ∨ ∃ fault, readSpec s = .error fault)
      (h : ListsEntries es texts) : ListsEntries es (s :: texts)

namespace Options

/-! ## Setting that may fail -/

/-- Takes in an entry. To set its operator may fail, which nothing catches. -/
def setEntry (table : OperatorTable) (entry : String) :
    Except InstallFault (OperatorTable × List LogRecord) :=
  if isBlankEntry entry then .ok (table, [])
  else
    match readSpec entry with
    | .ok (c, n) => (table.install (String.singleton c) (.integer n)).map fun t => (t, [])
    | .error fault => .ok (table, [leftOut fault])

def setEntries (table : OperatorTable) :
    List String → Except InstallFault (OperatorTable × List LogRecord)
  | [] => .ok (table, [])
  | entry :: rest => do
    let (t, first) ← setEntry table entry
    let (u, records) ← setEntries t rest
    return (u, first ++ records)

/-- The entries in the environment. -/
def entriesOf (environment : String → Option String) : List String :=
  ((setting? environment "KSCOPE_BINOPS").map splitCommas).getD []

/-- The options that the environment sets, if every operator can be set. -/
def load (environment : String → Option String) :
    Except InstallFault (Options × List LogRecord) := do
  let (table, records) ← setEntries .default (entriesOf environment)
  return ({ default with
      table := table
      anonymous := (setting? environment "KSCOPE_ANON_NAME").getD default.anonymous
      limit := (setting? environment "KSCOPE_MAX_ERRORS").bind limitOf },
    records)

theorem setEntry_eq_ok (table : OperatorTable) (entry : String) :
    setEntry table entry = .ok (addEntry table entry) := by
  by_cases hblank : isBlankEntry entry
  · simp only [setEntry, addEntry, if_pos hblank]
  · cases hread : readSpec entry with
    | ok p =>
      simp only [setEntry, addEntry, if_neg hblank, hread, table.install_singleton p.1 p.2]
      rfl
    | error fault => simp only [setEntry, addEntry, if_neg hblank, hread]

theorem setEntries_eq_ok (table : OperatorTable) (entries : List String) :
    setEntries table entries = .ok (addEntries table entries) := by
  induction entries generalizing table with
  | nil => rfl
  | cons entry rest ih =>
    rw [setEntries, setEntry_eq_ok, addEntries]
    show (do let (u, records) ← setEntries (addEntry table entry).1 rest; _) = _
    rw [ih]
    rfl

theorem load_eq_ok (environment : String → Option String) :
    load environment = .ok (ofEnvironment environment) := by
  rw [load, setEntries_eq_ok]
  rfl

/-! ## Entries that are read -/

theorem addEntry_of_error {s : String}
    (h : isBlankEntry s = true ∨ ∃ fault, readSpec s = .error fault) (table : OperatorTable) :
    (addEntry table s).1 = table := by
  unfold addEntry
  split
  · rfl
  · next hblank =>
    obtain ⟨fault, hf⟩ := h.resolve_left hblank
    rw [hf]

theorem addEntry_specText {c : Char} {n : Int} (h : IsWritable c n) (table : OperatorTable) :
    (addEntry table (specText c n)).1 = table.insert c n := by
  have hspec := h.isSpec
  have hblank : isBlankEntry (specText c n) = false := by
    obtain ⟨digits, hparts, -⟩ := hspec
    rw [isBlankEntry, hparts.1.trim_eq]
    rfl
  rw [addEntry, hblank, readSpec_of_isSpec hspec]
  rfl

/-- What is read of a listed table is the table. -/
theorem addEntries_of_listsEntries {es : List (Char × Int)} {texts : List String}
    (h : ListsEntries es texts) (hes : ∀ e ∈ es, IsWritable e.1 e.2) (table : OperatorTable) :
    (addEntries table texts).1 = es.foldl (fun t e => t.insert e.1 e.2) table := by
  induction h generalizing table with
  | nil => rfl
  | entry h ih =>
    obtain ⟨he, hes⟩ := List.forall_mem_cons.mp hes
    rw [addEntries, List.foldl_cons]
    exact (ih hes _).trans (by rw [addEntry_specText he])
  | other hcomma hs h ih =>
    rw [addEntries]
    exact (ih hes _).trans (by rw [addEntry_of_error hs])

/-! ## The listed table -/

theorem isBlankEntry_empty : isBlankEntry "" = true := by decide

theorem splitCommas_intercalate {texts : List String} (h : ∀ s ∈ texts, ',' ∉ s.toList)
    (hne : texts ≠ []) : splitCommas (String.intercalate "," texts) = texts := by
  have hchars : ∀ l ∈ texts.map String.toList, ',' ∉ l := by
    intro l hl
    obtain ⟨s, hs, rfl⟩ := List.mem_map.mp hl
    exact h s hs
  have hsplit := List.splitOn_intercalate ',' hchars (mt List.map_eq_nil_iff.mp hne)
  rw [splitCommas, String.toList_intercalate]
  change (([','].intercalate (texts.map String.toList)).splitOn ',').map String.ofList = texts
  rw [hsplit, List.map_map]
  exact (List.map_congr_left fun s _ => String.ofList_toList).trans (List.map_id texts)

/-- A text of entries gives the table of its entries, also if it is empty and so not there. -/
theorem addEntries_entriesOf {environment : String → Option String} {texts : List String}
    (h : ∀ s ∈ texts, ',' ∉ s.toList)
    (henv : environment "KSCOPE_BINOPS" = some (String.intercalate "," texts))
    (table : OperatorTable) :
    (addEntries table (entriesOf environment)).1 = (addEntries table texts).1 := by
  by_cases hne : texts = []
  · subst hne
    rw [entriesOf, setting?, henv]
    rfl
  · have hsplit := splitCommas_intercalate h hne
    by_cases hempty : String.intercalate "," texts = ""
    · -- The one entry is empty, so that none is read in either way.
      have hnone : entriesOf environment = [] := by
        rw [entriesOf, setting?, henv, hempty]
        rfl
      have hone : texts = [""] := by
        rw [← hsplit, hempty]
        rfl
      rw [hnone, hone]
      exact (addEntry_of_error (.inl isBlankEntry_empty) table).symm
    · have hentries : entriesOf environment = texts := by
        rw [entriesOf, setting?, henv, Option.filter_some_pos (by simpa using hempty)]
        exact hsplit
      rw [hentries]

theorem comma_notMem_of_listsEntries {es : List (Char × Int)} {texts : List String}
    (h : ListsEntries es texts) (hes : ∀ e ∈ es, IsWritable e.1 e.2) :
    ∀ s ∈ texts, ',' ∉ s.toList := by
  induction h with
  | nil => simp
  | entry h ih =>
    obtain ⟨he, hes⟩ := List.forall_mem_cons.mp hes
    exact List.forall_mem_cons.mpr ⟨he.comma_notMem, ih hes⟩
  | other hcomma hs h ih => exact List.forall_mem_cons.mpr ⟨hcomma, ih hes⟩

end Options

/-- The entries of a table as they are given to an update. -/
def OperatorTable.toData (T : OperatorTable) : List (String × Datum) :=
  T.entries.map fun e => (String.singleton e.1, .integer e.2)

theorem OperatorTable.installAll_toData (t T : OperatorTable) :
    t.installAll T.toData = (T.entries.foldl (fun t e => t.insert e.1 e.2) t, none) := by
  obtain ⟨es⟩ := T
  simp only [toData]
  induction es generalizing t with
  | nil => rfl
  | cons e es ih =>
    rw [List.map_cons, installAll, t.install_singleton]
    exact ih (t.insert e.1 e.2)

/-- To read the environment never fails. A table that is listed in it comes back: the default table
updated with it is what is read, whatever blank or wrong entries stand between. -/
theorem Options.ofEnvironment_settings (environment : String → Option String) :
    load environment = .ok (ofEnvironment environment) ∧
      ∀ (T : OperatorTable) (texts : List String), (∀ e ∈ T.entries, IsWritable e.1 e.2) →
        ListsEntries T.entries texts →
        environment "KSCOPE_BINOPS" = some (String.intercalate "," texts) →
        OperatorTable.default.installAll T.toData = ((ofEnvironment environment).1.table, none) := by
  refine ⟨load_eq_ok environment, ?_⟩
  intro T texts hT hlists henv
  have htable : (ofEnvironment environment).1.table = (addEntries .default texts).1 :=
    addEntries_entriesOf (comma_notMem_of_listsEntries hlists hT) henv .default
  rw [OperatorTable.installAll_toData, htable, addEntries_of_listsEntries hlists hT]

/-- Three operators, with a blank entry and a wrong one between them. -/
theorem Options.ofEnvironment_settings_three :
    let environment := fun name =>
      if name = "KSCOPE_BINOPS" then some "==-5, ,+=7,^=x,é=12" else none
    let T : OperatorTable := ⟨[('=', -5), ('+', 7), ('é', 12)]⟩
    let texts := [specText '=' (-5), " ", specText '+' 7, "^=x", specText 'é' 12]
    (∀ e ∈ T.entries, IsWritable e.1 e.2) ∧ ListsEntries T.entries texts ∧
      environment "KSCOPE_BINOPS" = some (String.intercalate "," texts) ∧
      OperatorTable.default.installAll T.toData = ((ofEnvironment environment).1.table, none) := by
  intro environment T texts
  have hT : ∀ e ∈ T.entries, IsWritable e.1 e.2 := by
    simp only [T, List.forall_mem_cons, List.not_mem_nil, false_implies, implies_true, and_true]
    exact ⟨⟨by decide, by decide, by decide⟩, ⟨by decide, by decide, by decide⟩,
      ⟨by decide, by decide, by decide⟩⟩
  have hlists : ListsEntries T.entries texts :=
    .entry (.other (by decide) (.inl (by decide)) (.entry
      (.other (by decide) (.inr ⟨_, rfl⟩) (.entry .nil))))
  have henv : environment "KSCOPE_BINOPS" = some (String.intercalate "," texts) := by decide
  exact ⟨hT, hlists, henv, (ofEnvironment_settings environment).2 T texts hT hlists henv⟩

end ExprFront
