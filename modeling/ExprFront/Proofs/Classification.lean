import ExprFront.Proofs.Occurrences
import ExprFront.Proofs.ReportContent

/-!
# Kinds of written names

A text that is one lexeme has the kind that the scanner gives to it, and a text that starts with a
letter has the kind of the word that is left when all marks are taken out. No keyword gets into a
signature, so that reports show identifiers only.
-/

namespace ExprFront
set_option autoImplicit false
open Grammar

/-! ## Single lexemes -/

/-- The scanner takes the whole text as the token, and then finds the end of the input. -/
structure IsSingle (filename text : String) (t : Token) : Prop where
  tokens : ∃ e : Token, e.isEnd = true ∧
    (Scanner.ofSource text.toList filename).tokens.map Prod.fst = [t, e]
  location : t.location = Position.start.within filename
  whole : (Scanner.ofSource text.toList filename).next.2.remaining = 0

variable {filename text : String}

theorem IsSingle.next_eq {t : Token} (h : IsSingle filename text t) :
    (Scanner.ofSource text.toList filename).next.1 = t ∧ t.isEnd = false := by
  obtain ⟨e, -, htokens⟩ := h.tokens
  have hend : ¬ (Scanner.ofSource text.toList filename).next.1.isEnd = true := by
    intro hend
    rw [Scanner.tokens_of_isEnd hend] at htokens
    simp at htokens
  rw [Scanner.tokens_of_not_isEnd hend, List.map_cons, List.cons.injEq] at htokens
  exact ⟨htokens.1, by simpa [htokens.1] using hend⟩

/-- Nothing stands in front of the token, and nothing behind it. -/
theorem IsSingle.isLexeme {t : Token} (h : IsSingle filename text t) :
    IsLexeme [] text.toList ∧ t.lexeme = (lexemeAt text.toList).1 := by
  obtain ⟨hnext, hend⟩ := h.next_eq
  obtain ⟨g, rest, hsource, hg, hr⟩ := (exists_isGap text.toList).1
  have hstands := Scanner.stands_ofSource filename hg hr
  rw [← hsource] at hstands
  have htoken : t = ⟨(lexemeAt rest).1, (Position.after g).within filename⟩ :=
    hnext.symm.trans hstands.token
  have hpending : rest.drop (lexemeAt rest).2 = [] := by
    rw [← hstands.scanner.pending]
    exact List.eq_nil_of_length_eq_zero h.whole
  -- No other place has the position of the start.
  have hgap : g = [] := by
    have hstart : (Position.after g).within filename = (Position.after []).within filename :=
      (congrArg Token.location htoken).symm.trans h.location
    have hsplit : g ++ rest = [] ++ (g ++ rest) := rfl
    exact Position.after_inj hsplit (Position.within_inj hstart)
  subst hgap
  obtain rfl : text.toList = rest := hsource
  have hne : text.toList ≠ [] := by
    intro hnil
    rw [Token.isEnd, htoken, hnil] at hend
    simp [lexemeAt] at hend
  obtain ⟨l, rest, hsplit, hl⟩ := exists_isLexeme hne hr
  rw [hsplit, hl.length_eq, List.drop_left] at hpending
  rw [hpending, List.append_nil] at hsplit
  rw [hpending] at hl
  rw [htoken, hsplit]
  exact ⟨hl, rfl⟩

theorem isSingle_of_isLexeme (filename : String) (h : IsLexeme [] text.toList) :
    IsSingle filename text ⟨(lexemeAt text.toList).1, Position.start.within filename⟩ := by
  have hnoGap : NoGap text.toList := by simpa using h.noGap
  have hlength : (lexemeAt text.toList).2 = text.toList.length := by simpa using h.length_eq
  have hstands := Scanner.stands_ofSource filename IsGap.nil hnoGap
  have hscanner := hstands.scanner
  rw [hlength, List.drop_length, List.take_length] at hscanner
  let s := Scanner.ofSource text.toList filename
  have hnext : s.next.1 = ⟨(lexemeAt text.toList).1, Position.start.within filename⟩ := hstands.token
  have hpending : s.next.2.reader.pending = [] := hscanner.pending
  have hend : ¬ s.next.1.isEnd = true := by
    rw [hnext, Token.isEnd, beq_iff_eq, lexemeAt_eq_end_iff]
    exact h.ne_nil
  have hnextEnd : s.next.2.next.1.isEnd = true := by
    rw [Scanner.next_isEnd_iff, Scanner.lexemeText, hpending]
    rfl
  constructor
  · refine ⟨s.next.2.next.1, hnextEnd, ?_⟩
    rw [Scanner.tokens_of_not_isEnd hend, Scanner.tokens_of_isEnd hnextEnd, List.map_cons, hnext]
    rfl
  · rfl
  · rw [Scanner.remaining, hpending]
    rfl

/-! ## Kinds -/

theorem Lexeme.kind_ofWord_ne_char (word : String) : (ofWord word).kind ≠ .char := by
  intro h
  cases hw : ofWord word with
  | char c => exact ofWord_ne_char word c hw
  | endOfInput | define | external | name | number => simp [hw, kind] at h

theorem filter_isWordChar {c : Char} {cs : List Char} (hc : isLetter c = true)
    (hcs : ∀ d ∈ cs, isWordChar d = true) : (c :: cs).filter isWordChar = c :: cs := by
  rw [List.filter_eq_self, List.forall_mem_cons]
  exact ⟨by rw [isWordChar, hc, Bool.true_or], hcs⟩

/-- A word has the kind of its lexeme, and so has a numeral; a mark has none. -/
theorem classify_of_isLexeme (h : IsLexeme [] text.toList) :
    classify text = if (lexemeAt text.toList).1.kind = .char then none
      else some (lexemeAt text.toList).1.kind := by
  unfold classify
  generalize text.toList = cs at h
  cases h with
  | word hl hr =>
    obtain ⟨c, cs, rfl, hc, hcs⟩ := hl
    have hat := lexemeAt_word hc hcs hr
    rw [List.append_nil] at hat
    simp only [hat, hc, filter_isWordChar hc hcs, Lexeme.kind_ofWord_ne_char, if_true, if_false]
  | numeral hl hr =>
    obtain ⟨c, cs, rfl⟩ := List.exists_cons_of_ne_nil hl.1
    have hat := lexemeAt_number hl.2 hr
    have hc := hl.2 c List.mem_cons_self
    rw [List.append_nil] at hat
    simp [hat, hc, not_isLetter_of_isNumberChar hc, Lexeme.kind]
  | @mark c hc =>
    have hletter : isLetter c = false := by
      rw [← isWordChar_of_not_isNumberChar hc.2.1]
      exact hc.1
    simp [lexemeAt_mark hc, hc.2.1, hletter, Lexeme.kind]

theorem isLexeme_filter {c : Char} {cs : List Char} (hc : isLetter c = true) :
    IsLexeme [] ((c :: cs).filter isWordChar) := by
  have hword : isWordChar c = true := by rw [isWordChar, hc, Bool.true_or]
  rw [List.filter_cons_of_pos hword]
  exact .word ⟨c, _, rfl, hc, fun d hd => (List.mem_filter.mp hd).2⟩ (by simp)

/-- Marks in a name that starts with a letter do not count. -/
theorem classify_filter {c : Char} {cs : List Char} (htext : text.toList = c :: cs)
    (hc : isLetter c = true) :
    classify text = some (lexemeAt (text.toList.filter isWordChar)).1.kind := by
  have hword : isWordChar c = true := by rw [isWordChar, hc, Bool.true_or]
  have hwords : ∀ d ∈ cs.filter isWordChar, isWordChar d = true :=
    fun d hd => (List.mem_filter.mp hd).2
  have hnil : ∀ d, ([] : List Char).head? = some d → isWordChar d = false := by simp
  have hat := lexemeAt_word hc hwords hnil
  rw [List.append_nil, ← List.filter_cons_of_pos hword] at hat
  rw [htext, hat]
  simp only [classify, htext, hc, if_true]

/-! ## Names in signatures -/

/-- The names of a signature are no keywords. -/
def Prototype.IsNamed (p : Prototype) : Prop :=
  ∀ name ∈ p.name :: p.params, classify name = some .name

theorem Spells.classify_eq {l : List Char} {name : String} (h : Spells l (.name name)) :
    classify name = some .name := by
  cases h with
  | name hl hd hx =>
    obtain ⟨c, cs, rfl, hc, hcs⟩ := hl
    have hword : Lexeme.ofWord (String.ofList (c :: cs)) = .name (String.ofList (c :: cs)) :=
      Lexeme.ofWord_of_ne (fun h => hd (by rw [← h, String.toList_ofList]))
        (fun h => hx (by rw [← h, String.toList_ofList]))
    simp only [classify, String.toList_ofList, hc, filter_isWordChar hc hcs, hword, if_true]
    rfl

theorem Grammar.Signature.isNamed {ts : List Token} {p : Prototype} (h : Signature ts p)
    (hts : ∀ t ∈ ts, ∀ name, t.lexeme = .name name → classify name = some .name) : p.IsNamed := by
  cases h with
  | @mk n o c ps name params hn ho hp hc =>
    rw [Prototype.IsNamed, List.forall_mem_cons]
    refine ⟨hts n List.mem_cons_self name hn, fun q hq => ?_⟩
    have hmem : Lexeme.name q ∈ ps.map Token.lexeme := hp ▸ List.mem_map_of_mem hq
    obtain ⟨t, ht, hlexeme⟩ := List.mem_map.mp hmem
    exact hts t (by simp [ht]) q hlexeme

/-- The signature of a definition or a declaration, which is in the source. -/
def SourceUnit.signature? : SourceUnit → Option Prototype
  | .definition f => some f.signature
  | .declaration p => some p
  | _ => none

theorem Grammar.UnitOf.isNamed {table : OperatorTable} {anonymous : String} {ts : List Token}
    {u : SourceUnit} (h : UnitOf table anonymous ts u)
    (hts : ∀ t ∈ ts, ∀ name, t.lexeme = .name name → classify name = some .name) :
    ∀ p ∈ u.signature?, p.IsNamed := by
  cases h with
  | definition hd hs he =>
    rintro p ⟨⟩
    exact hs.isNamed fun t ht => hts t (by simp [ht])
  | declaration hx hs =>
    rintro p ⟨⟩
    exact hs.isNamed fun t ht => hts t (by simp [ht])
  | expression he => simp [SourceUnit.signature?]

/-- Every name that gets into a signature was read from the source as a name. -/
theorem Session.Live.isNamed {source : List Char} {s : Session} (h : s.Live)
    (hs : StandsIn filename source s.lookahead) :
    ∀ u ∈ unitsOf s.beats, ∀ p ∈ u.signature?, p.IsNamed := by
  intro u hu p hp
  obtain ⟨b, hb, hunit⟩ := List.mem_filterMap.mp hu
  have hturn : b.turn = .unit u := Turn.eq_unit_of_unit? hunit
  obtain ⟨hlive, hbeat, -, -⟩ := h.forall_beats b hb
  have hstands := (h.keeps (fun l hl => hl.advance) hs b hb).1
  have hkind : u.kind ≠ .failure := by
    intro hkind
    cases u <;> simp [SourceUnit.signature?, SourceUnit.kind] at hp hkind
  rw [hturn] at hbeat
  obtain ⟨ts, hr, hunit⟩ := hlive.derived_of_unit hbeat hkind
  refine hunit.isNamed (fun t ht name hlexeme => ?_) p hp
  obtain ⟨-, text, -, -, -, hspells⟩ := hstands.occurs_of_reads hr t ht
  rw [hlexeme] at hspells
  exact hspells.classify_eq

/-! ## Names in reports -/

/-- The entry of a name as an identifier. -/
def identifierEntry (name : String) : Json :=
  .object [("type", .text "tok_identifier"), ("value", .text name)]

namespace Json

def member? (key : String) : Json → Option Json
  | .object members => members.lookup key
  | _ => none

/-- The entry is that of a definition or of a declaration. -/
def Declares (j : Json) : Prop :=
  j.member? "type" = some (.text "tok_def") ∨ j.member? "type" = some (.text "tok_extern")

/-- The entry has a signature, of which the name and the parameters are identifiers. -/
def NamesIdentifiers (j : Json) : Prop :=
  ∃ (name : String) (params : List String), j.member? "prototype" = some (.object
    [("name", identifierEntry name), ("args", .array (params.map identifierEntry))])

end Json

theorem Prototype.IsNamed.entry_eq {p : Prototype} (h : p.IsNamed) :
    p.entry = .object
      [("name", identifierEntry p.name), ("args", .array (p.params.map identifierEntry))] := by
  have hentry : ∀ name ∈ p.name :: p.params, nameEntry name = identifierEntry name := by
    intro name hname
    rw [nameEntry, classifyCode_ofString, h name hname]
    rfl
  rw [List.forall_mem_cons] at hentry
  rw [entry, signatureEntry, hentry.1, List.map_congr_left hentry.2]

/-- Entries of bare expressions and of failures declare nothing. -/
theorem SourceUnit.namesIdentifiers {u : SourceUnit} (hu : ∀ p ∈ u.signature?, p.IsNamed) {j : Json}
    (hj : u.entry? = .ok (some j)) (hdeclares : j.Declares) : j.NamesIdentifiers := by
  cases u with
  | definition f =>
    obtain ⟨b, -, -, -, rfl⟩ := functionEntry_told hj
    exact ⟨_, _, congrArg some (hu f.signature rfl).entry_eq⟩
  | declaration p =>
    obtain rfl := Option.some.inj (Except.ok.inj hj)
    exact ⟨_, _, congrArg some (hu p rfl).entry_eq⟩
  | expression f =>
    obtain ⟨b, -, -, -, rfl⟩ := functionEntry_told hj
    rcases hdeclares with htype | htype <;>
      exact absurd (Json.text.inj (Option.some.inj htype)) (by decide)
  | failure d =>
    obtain ⟨d, -, rfl⟩ := Option.map_eq_some_iff.mp (Except.ok.inj hj)
    rcases hdeclares with htype | htype <;>
      exact absurd (Json.text.inj (Option.some.inj htype)) (by decide)

theorem namesIdentifiers_of_entries {units : List SourceUnit} {entries : List Json}
    (h : List.Forall₂ (fun u j => u.entry? = .ok (some j)) units entries)
    (hunits : ∀ u ∈ units, ∀ p ∈ u.signature?, p.IsNamed) :
    ∀ j ∈ entries, j.Declares → j.NamesIdentifiers := by
  induction h with
  | nil => simp
  | cons hj _ ih =>
    obtain ⟨hu, hunits⟩ := List.forall_mem_cons.mp hunits
    exact List.forall_mem_cons.mpr ⟨SourceUnit.namesIdentifiers hu hj, ih hunits⟩

/-- The entries of a run name identifiers. -/
theorem Options.entries_namesIdentifiers (o : Options) (source : List Char) (name : Option String) :
    ∃ entries, reportEntries (o.run source name).units = .ok entries ∧
      ∀ j ∈ entries, j.Declares → j.NamesIdentifiers := by
  have hlive := o.live_session source name
  have hnamed : ∀ u ∈ (o.run source name).units, ∀ p ∈ u.signature?, p.IsNamed :=
    hlive.isNamed (standsIn_ofSource (o.nameOf name) source)
  obtain ⟨entries, hentries, hall⟩ := reportEntries_ok hlive.units_shown
  exact ⟨entries, hentries, namesIdentifiers_of_entries hall hnamed⟩

/-- Reclassification agrees with the scanner on all texts that are one lexeme, and on all texts that
start with a letter, of which it takes the letters and digits. So the names of all definitions and
declarations in the report of a run are identifiers. -/
theorem classify_agrees :
    (∀ (filename text : String) (t : Token), IsSingle filename text t →
      classify text = if t.kind = .char then none else some t.kind) ∧
    (∀ (filename text : String) (c : Char) (cs : List Char), text.toList = c :: cs →
      isLetter c = true →
      ∃ t, IsSingle filename (String.ofList (text.toList.filter isWordChar)) t ∧
        classify text = some t.kind) ∧
    ∀ (o : Options) (source : List Char) (name : Option String),
      ∃ entries, reportEntries (o.run source name).units = .ok entries ∧
        ∀ j ∈ entries, j.Declares → j.NamesIdentifiers := by
  refine ⟨?_, ?_, Options.entries_namesIdentifiers⟩
  · intro filename text t h
    obtain ⟨hlexeme, ht⟩ := h.isLexeme
    rw [classify_of_isLexeme hlexeme, Token.kind, ht]
  · intro filename text c cs htext hc
    have hlexeme : IsLexeme [] (String.ofList (text.toList.filter isWordChar)).toList := by
      rw [String.toList_ofList, htext]
      exact isLexeme_filter hc
    refine ⟨_, isSingle_of_isLexeme filename hlexeme, ?_⟩
    rw [classify_filter htext hc, String.toList_ofList]
    rfl

/-- A keyword, and a name that hides one behind a mark. -/
theorem classify_agrees_keywords :
    let start := Position.start.within ""
    IsSingle "" "def" ⟨.define, start⟩ ∧ classify "def" = some .define ∧
    isLetter 'e' = true ∧
    (∃ t, IsSingle "" (String.ofList ("ex_tern".toList.filter isWordChar)) t ∧
      classify "ex_tern" = some t.kind) ∧
    classify "ex_tern" = some .external := by
  intro start
  have hsingle : IsSingle "" "def" ⟨.define, start⟩ :=
    ⟨⟨⟨.endOfInput, ⟨"", 1, 4⟩⟩, by decide +kernel, by decide +kernel⟩, rfl, by decide +kernel⟩
  exact ⟨hsingle, classify_agrees.1 "" "def" _ hsingle, by decide,
    classify_agrees.2.1 "" "ex_tern" 'e' _ rfl (by decide), by decide +kernel⟩

end ExprFront
