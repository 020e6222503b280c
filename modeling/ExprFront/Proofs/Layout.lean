import ExprFront.Proofs.Reports
import ExprFront.Proofs.Simulation
import ExprFront.Proofs.Standing

/-!
# Layout

Blanks and comments in front of a token change no token of a source: none is made, split or joined
with another one. A session that sees the same lexemes does the same, so that layout changes nothing
of a run but the places.
-/

namespace ExprFront
set_option autoImplicit false

/-- Blanks, and comments with the line end that closes them. -/
inductive IsLayout : List Char → Prop
  | nil : IsLayout []
  | blank {c : Char} {w : List Char} (hc : isBlank c = true) (hw : IsLayout w) : IsLayout (c :: w)
  | comment {body w : List Char} {e : Char} (hbody : ∀ c ∈ body, endsComment c = false)
      (he : endsComment e = true) (hw : IsLayout w) : IsLayout ('#' :: (body ++ e :: w))

/-! ## Gaps that grow -/

theorem IsLayout.isGap {w : List Char} (hw : IsLayout w) (rest : List Char) : IsGap rest w := by
  induction hw with
  | nil => exact .nil
  | blank hc hw ih => exact .blank hc ih
  | comment hbody he hw ih =>
    refine .comment hbody ?_ (.blank (isBlank_of_endsComment he) ih)
    rintro c ⟨⟩
    exact he

/-- What follows an open comment at the end of a source goes on with it up to its line end. -/
theorem IsLayout.isGap_comment {w : List Char} (hw : IsLayout w) {body : List Char}
    (hbody : ∀ c ∈ body, endsComment c = false) : IsGap [] ('#' :: (body ++ w)) := by
  induction hw generalizing body with
  | nil => exact .comment hbody (by simp) .nil
  | @blank c w hc hw ih =>
    cases he : endsComment c with
    | true =>
      refine .comment hbody ?_ (.blank hc (hw.isGap []))
      rintro d ⟨⟩
      exact he
    | false =>
      have hlonger : ∀ d ∈ body ++ [c], endsComment d = false := by
        simpa only [List.forall_mem_append, List.forall_mem_singleton] using ⟨hbody, he⟩
      have hgap := ih hlonger
      rwa [List.append_assoc, List.singleton_append] at hgap
  | @comment body' w e hbody' he hw ih =>
    have hlonger : ∀ d ∈ body ++ '#' :: body', endsComment d = false := by
      rw [List.forall_mem_append, List.forall_mem_cons]
      exact ⟨hbody, by decide, hbody'⟩
    have hgap : IsGap [] ('#' :: ((body ++ '#' :: body') ++ e :: w)) := by
      refine .comment hlonger ?_ (.blank (isBlank_of_endsComment he) (hw.isGap []))
      rintro d ⟨⟩
      exact he
    rwa [List.append_assoc, List.cons_append] at hgap

theorem IsGap.append_layout {g rest w : List Char} (hg : IsGap rest g) (hr : NoGap rest)
    (hw : IsLayout w) : IsGap rest (g ++ w) := by
  induction hg with
  | nil => exact hw.isGap rest
  | blank hc hg ih => exact .blank hc ih
  | @comment body g hbody hend hg ih =>
    rw [List.cons_append, List.append_assoc]
    cases g with
    | cons d g => exact .comment hbody (fun c hc => hend c hc) ih
    | nil =>
      cases rest with
      | nil => exact hw.isGap_comment hbody
      | cons c rest =>
        -- The comment would have to end at a token.
        have hblank := isBlank_of_endsComment (hend c rfl)
        rw [(hr c rfl).1] at hblank
        exact absurd hblank Bool.false_ne_true

/-! ## Lexemes in front of other texts -/

theorem IsGap.congr {g rest rest' : List Char} (hg : IsGap rest g) (h : rest'.head? = rest.head?) :
    IsGap rest' g := by
  induction hg with
  | nil => exact .nil
  | blank hc hg ih => exact .blank hc ih
  | comment hbody hend hg ih =>
    refine .comment hbody ?_ ih
    rw [List.head?_append] at hend ⊢
    rwa [h]

/-- A lexeme stays what it is in front of a text that starts alike or could not go on with it. -/
theorem IsLexeme.congr {l rest rest' : List Char} (hl : IsLexeme rest l)
    (h : rest'.head? = rest.head? ∨ Apart rest') :
    IsLexeme rest' l ∧ lexemeAt (l ++ rest') = lexemeAt (l ++ rest) := by
  cases hl with
  | word hl hr =>
    have hr' : ∀ c, rest'.head? = some c → isWordChar c = false := by
      intro c hc
      obtain h | h := h
      · exact hr c (h ▸ hc)
      · exact (h c hc).1
    refine ⟨.word hl hr', ?_⟩
    obtain ⟨c, cs, rfl, hc, hcs⟩ := hl
    rw [lexemeAt_word hc hcs hr', lexemeAt_word hc hcs hr]
  | numeral hl hr =>
    have hr' : ∀ c, rest'.head? = some c → isNumberChar c = false := by
      intro c hc
      obtain h | h := h
      · exact hr c (h ▸ hc)
      · exact (h c hc).2
    refine ⟨.numeral hl hr', ?_⟩
    obtain ⟨c, cs, rfl⟩ := List.exists_cons_of_ne_nil hl.1
    rw [lexemeAt_number hl.2 hr', lexemeAt_number hl.2 hr]
  | mark hc =>
    refine ⟨.mark hc, ?_⟩
    rw [List.singleton_append, List.singleton_append, lexemeAt_mark hc, lexemeAt_mark hc]

theorem apart_of_isBlank {c : Char} (h : isBlank c = true) :
    isWordChar c = false ∧ isNumberChar c = false := by
  rw [isBlank_iff] at h
  rw [isWordChar, Bool.or_eq_false_iff, Bool.eq_false_iff, Bool.eq_false_iff, Bool.eq_false_iff,
    ne_eq, ne_eq, ne_eq, isLetter_iff, isAsciiDigit_iff, isNumberChar_iff]
  omega

theorem IsLayout.apart {w : List Char} (hw : IsLayout w) (hne : w ≠ []) (rest : List Char) :
    Apart (w ++ rest) := by
  cases hw with
  | nil => exact absurd rfl hne
  | blank hc hw =>
    rintro c ⟨⟩
    exact apart_of_isBlank hc
  | comment hbody he hw =>
    rintro c ⟨⟩
    decide

theorem lexemesOf_gap {g rest : List Char} (hg : IsGap rest g) (hr : NoGap rest) :
    lexemesOf (g ++ rest) = lexemesOf rest := by
  have hgap : afterGap (g ++ rest) = rest := by
    rw [afterGap, hg.gapLength_eq hr, List.drop_left]
  exact lexemesOf_congr (hgap.trans (afterGap_of_noGap hr).symm)

theorem lexemesOf_lexeme {l rest : List Char} (hl : IsLexeme rest l) :
    lexemesOf (l ++ rest) = (lexemeAt (l ++ rest)).1 :: lexemesOf rest := by
  have hrest := afterGap_of_noGap hl.noGap
  have hne : afterGap (l ++ rest) ≠ [] := by
    rw [hrest]
    exact List.append_ne_nil_of_left_ne_nil hl.ne_nil rest
  rw [lexemesOf_eq_cons hne, hrest, hl.length_eq, List.drop_left]

/-! ## Places of tokens -/

/-- A token starts between the two texts, or the source ends there. -/
inductive TokenAt : List Char → List Char → Prop
  | gap {g rest : List Char} (hg : IsGap rest g) (hr : NoGap rest) : TokenAt g rest
  | behind {g l before rest : List Char} (hg : IsGap (l ++ (before ++ rest)) g)
      (hl : IsLexeme (before ++ rest) l) (h : TokenAt before rest) :
      TokenAt (g ++ (l ++ before)) rest

/-- Layout in front of a token leaves the lexemes as they are. -/
theorem TokenAt.lexemesOf_insert {before rest w : List Char} (h : TokenAt before rest)
    (hw : IsLayout w) : lexemesOf (before ++ (w ++ rest)) = lexemesOf (before ++ rest) := by
  induction h with
  | gap hg hr =>
    rw [← List.append_assoc, lexemesOf_gap (hg.append_layout hr hw) hr, lexemesOf_gap hg hr]
  | @behind g l before rest hg hl h ih =>
    have hhead : (before ++ (w ++ rest)).head? = (before ++ rest).head? ∨
        Apart (before ++ (w ++ rest)) := by
      cases before with
      | cons c before => exact .inl rfl
      | nil =>
        by_cases hnil : w = []
        · exact .inl (by rw [hnil]; rfl)
        · exact .inr (hw.apart hnil rest)
    obtain ⟨hl', hlexeme⟩ := hl.congr hhead
    obtain ⟨c, cs, rfl⟩ := List.exists_cons_of_ne_nil hl.ne_nil
    have hg' : IsGap (c :: cs ++ (before ++ (w ++ rest))) g := hg.congr rfl
    simp only [List.append_assoc]
    rw [lexemesOf_gap hg' hl'.noGap, lexemesOf_lexeme hl', hlexeme, ih, lexemesOf_gap hg hl.noGap,
      lexemesOf_lexeme hl]

namespace Scanner

theorem Between.exists_tokenAt {source : List Char} {s : Scanner} {pre : List Char}
    (hs : s.Between pre source) : ∀ r ∈ s.tokens, ∃ before rest, source = before ++ rest ∧
      TokenAt before rest ∧ r.1.location = (Position.after (pre ++ before)).within s.filename := by
  obtain ⟨ks, last, h⟩ := exists_munches source
  -- On the cut, as the tokens are found. What the scanner has passed grows by every chunk.
  induction h generalizing s pre with
  | @last g hg =>
    have hs : s.Between pre (g ++ []) := by rwa [List.append_nil]
    have hend : s.next.1.isEnd = true := s.next_isEnd_iff.mpr (hs.lexemeText_eq hg noGap_nil)
    rw [tokens_of_isEnd hend, List.forall_mem_singleton]
    exact ⟨g, [], (List.append_nil g).symm, .gap hg noGap_nil, hs.location_eq hg noGap_nil⟩
  | @chunk g l rest last ks hg hl h ih =>
    have hend : ¬ s.next.1.isEnd = true := by
      rw [next_isEnd_iff, hs.lexemeText_eq hg hl.noGap]
      exact List.append_ne_nil_of_left_ne_nil hl.ne_nil rest
    rw [tokens_of_not_isEnd hend, List.forall_mem_cons]
    refine ⟨⟨g, l ++ rest, rfl, .gap hg hl.noGap, hs.location_eq hg hl.noGap⟩, ?_⟩
    intro r hr
    obtain ⟨before, rest', rfl, htoken, hlocation⟩ := ih (hs.next hg hl).2 r hr
    refine ⟨g ++ (l ++ before), rest', by simp only [List.append_assoc], .behind hg hl htoken, ?_⟩
    rw [hlocation, next_filename]
    simp only [List.append_assoc]

theorem tokenAt_ofSource {before rest : List Char} {filename : String} {t : Token}
    (ht : t ∈ (ofSource (before ++ rest) filename).tokens.map Prod.fst)
    (hlocation : t.location = (Position.after before).within filename) : TokenAt before rest := by
  obtain ⟨s, hs, rfl, htokens⟩ := exists_between (before ++ rest) filename
  obtain ⟨r, hr, rfl⟩ := List.mem_map.mp ht
  rw [htokens] at hr
  obtain ⟨before', rest', hsource, htoken, hlocation'⟩ := hs.exists_tokenAt r hr
  have hposition := Position.within_inj (hlocation.symm.trans hlocation')
  obtain rfl := Position.after_inj hsource hposition
  obtain rfl := List.append_cancel_left hsource
  exact htoken

end Scanner

/-! ## Lookaheads on the same lexemes -/

/-- Both stand at the same lexeme in front of the same lexemes. -/
structure SameLexemes (l m : Lookahead) : Prop where
  lexeme : l.token.lexeme = m.token.lexeme
  rest : lexemesOf l.scanner.reader.pending = lexemesOf m.scanner.reader.pending
  count : l.scanner.count = m.scanner.count

theorem Scanner.next_lexemesOf (s : Scanner) :
    s.next.1.lexeme = (lexemesOf s.reader.pending).headD .endOfInput ∧
      lexemesOf s.next.2.reader.pending = (lexemesOf s.reader.pending).tail := by
  rw [next_lexeme, next_pending, lexemeText]
  by_cases hnil : afterGap s.reader.pending = []
  · rw [lexemesOf_eq_nil hnil, hnil, List.drop_nil, lexemesOf_nil]
    exact ⟨rfl, rfl⟩
  · rw [lexemesOf_eq_cons hnil]
    exact ⟨rfl, rfl⟩

theorem SameLexemes.ofScanner {s s' : Scanner}
    (h : lexemesOf s.reader.pending = lexemesOf s'.reader.pending) (hcount : s.count = s'.count) :
    SameLexemes (.ofScanner s) (.ofScanner s') := by
  obtain ⟨hlexeme, hrest⟩ := s.next_lexemesOf
  obtain ⟨hlexeme', hrest'⟩ := s'.next_lexemesOf
  constructor
  · exact hlexeme.trans (h ▸ hlexeme'.symm)
  · exact hrest.trans (h ▸ hrest'.symm)
  · exact congrArg (· + 1) hcount

/-- Where no location can be told from another. -/
def nowhere (_ : Location) : Location := ⟨"", 0, 0⟩

theorem simulation_sameLexemes :
    Simulation nowhere nowhere SameLexemes SameCounts where
  token := fun h => congrArg (Token.mk · (nowhere ⟨"", 0, 0⟩)) h.lexeme
  advance := fun h => .ofScanner h.rest h.count
  add := fun d d' h => h.add d d'
  full := SameCounts.isFull_eq

/-! ## Runs -/

theorem map_kind_relocate (f : Location → Location) (us : List SourceUnit) :
    (us.map (SourceUnit.relocate f)).map SourceUnit.kind = us.map SourceUnit.kind := by
  simp [Function.comp_def]

theorem map_detail_relocate (f : Location → Location) (us : List SourceUnit) :
    ((us.map (SourceUnit.relocate f)).filterMap SourceUnit.diagnostic?).map Diagnostic.detail =
      (us.filterMap SourceUnit.diagnostic?).map Diagnostic.detail := by
  simp [List.filterMap_map, List.map_filterMap, Function.comp_def]

namespace Options

/-- Layout in front of a token, or at the end, changes neither the units of a run nor what is said
of failures nor the number of tokens, but only places. -/
theorem run_layout (o : Options) (name : Option String) (before w rest : List Char)
    (hw : IsLayout w) (t : Token)
    (ht : t ∈ (Scanner.ofSource (before ++ rest) (o.nameOf name)).tokens.map Prod.fst)
    (hlocation : t.location = (Position.after before).within (o.nameOf name)) :
    let r := o.run (before ++ rest) name
    let r' := o.run (before ++ (w ++ rest)) name
    r'.units.map (SourceUnit.relocate nowhere) = r.units.map (SourceUnit.relocate nowhere) ∧
      r'.units.map SourceUnit.kind = r.units.map SourceUnit.kind ∧
      r'.diagnostics.map Diagnostic.detail = r.diagnostics.map Diagnostic.detail ∧
      r'.tokenCount = r.tokenCount ∧ r'.aborted = r.aborted := by
  intro r r'
  let s := o.session (before ++ rest) name
  let s' := o.session (before ++ (w ++ rest)) name
  have hlexemes : lexemesOf (' ' :: (before ++ (w ++ rest))) =
      lexemesOf (' ' :: (before ++ rest)) := by
    have htoken := Scanner.tokenAt_ofSource ht hlocation
    rw [lexemesOf_isBlank rfl, lexemesOf_isBlank rfl, htoken.lexemesOf_insert hw]
  have hrelated : s'.Related SameLexemes SameCounts s :=
    ⟨⟨.ofScanner hlexemes rfl, rfl, rfl, rfl, rfl⟩, rfl, rfl⟩
  obtain ⟨hunits, hfinal⟩ := simulation_sameLexemes.beats hrelated
  have hunits : r'.units.map (SourceUnit.relocate nowhere) =
      r.units.map (SourceUnit.relocate nowhere) := hunits
  have hlive := o.live_session (before ++ rest) name
  have hlive' := o.live_session (before ++ (w ++ rest)) name
  have hdiagnostics : r.diagnostics = r.units.filterMap SourceUnit.diagnostic? :=
    hlive.final_diagnostics
  have hdiagnostics' : r'.diagnostics = r'.units.filterMap SourceUnit.diagnostic? :=
    hlive'.final_diagnostics
  have hcount := hfinal.parser.lookahead.count
  refine ⟨hunits, ?_, ?_, ?_, hfinal.aborted⟩
  · rw [← map_kind_relocate nowhere, hunits, map_kind_relocate]
  · rw [hdiagnostics, hdiagnostics', ← map_detail_relocate nowhere, hunits, map_detail_relocate]
  · show s'.final.parser.scanner.count = s.final.parser.scanner.count
    rw [← Session.lookahead_scanner (hlive.final_current (.inl rfl)),
      ← Session.lookahead_scanner (hlive'.final_current (.inl rfl))]
    exact hcount

/-- A comment with a semicolon between two tokens that touch, in a call that breaks off. -/
theorem run_layout_comment :
    let r := Options.default.run "f(x;y".toList none
    let r' := Options.default.run "f(#a;b\n\tx;y".toList none
    r.units.map SourceUnit.kind = [.failure, .expression] ∧
      r'.units.map (SourceUnit.relocate nowhere) = r.units.map (SourceUnit.relocate nowhere) ∧
      r'.diagnostics.map Diagnostic.detail = r.diagnostics.map Diagnostic.detail ∧
      r'.tokenCount = r.tokenCount := by
  intro r r'
  have hbody : ∀ c ∈ ['a', ';', 'b'], endsComment c = false := by simp [endsComment]
  have hw : IsLayout "#a;b\n\t".toList := .comment hbody rfl (.blank rfl .nil)
  have ht : (⟨.name "x", ⟨"<stdin>", 1, 3⟩⟩ : Token) ∈
      (Scanner.ofSource ("f(".toList ++ "x;y".toList) "<stdin>").tokens.map Prod.fst := by
    decide +kernel
  have hkinds : r.units.map SourceUnit.kind = [.failure, .expression] := by decide +kernel
  obtain ⟨hunits, -, hdetails, hcount, -⟩ :=
    run_layout .default none "f(".toList "#a;b\n\t".toList "x;y".toList hw _ ht rfl
  exact ⟨hkinds, hunits, hdetails, hcount⟩

end Options
end ExprFront
