import ExprFront.Proofs.Occurrences
import ExprFront.Proofs.Reports

/-!
# Source lines of diagnostics

A reader keeps what it has read of its line, and it is one character ahead of the scanner. So the
source line of a diagnostic is the line of the offending token up to one character behind that. When
this character is a line feed the line has been dropped already, and the diagnostic shows an empty
one.
-/

namespace ExprFront
set_option autoImplicit false

/-! ## Lines of a text -/

theorem head?_splitOn (b : List Char) :
    (b.splitOn '\n').head? = some (b.takeWhile (· ≠ '\n')) := by
  induction b with
  | nil => rfl
  | cons c b ih =>
    rw [List.splitOn_cons_eq_if_modifyHead]
    by_cases hc : c = '\n'
    · simp [hc]
    · simp [hc, List.head?_modifyHead, ih]

theorem length_splitOn (a : List Char) : (a.splitOn '\n').length = a.count '\n' + 1 := by
  induction a with
  | nil => rfl
  | cons c a ih =>
    rw [List.splitOn_cons_eq_if_modifyHead]
    by_cases hc : c = '\n'
    · simp [hc, ih]
    · simp [hc, List.length_modifyHead, ih]

/-- The line in which one text ends and another one goes on. -/
theorem getElem?_splitOn_append (a b : List Char) :
    ((a ++ b).splitOn '\n')[(Position.after a).line - 1]? =
      some (lastLine a ++ b.takeWhile (· ≠ '\n')) := by
  have hline : (Position.after a).line - 1 = a.count '\n' := Nat.add_sub_cancel_left 1 _
  have hnot := notMem_lastLine a
  have hlast : ((lastLine a ++ b).splitOn '\n')[0]? =
      some (lastLine a ++ b.takeWhile (· ≠ '\n')) := by
    have hall : ∀ c ∈ lastLine a, decide (c ≠ '\n') = true := by
      intro c hc
      simpa using fun he : c = '\n' => hnot (he ▸ hc)
    rw [← List.head?_eq_getElem?, head?_splitOn, List.takeWhile_append_of_pos hall]
  rw [hline]
  obtain ha | ⟨q, ha⟩ := exists_lastLine a
  · have hcount : a.count '\n' = 0 := by
      rw [ha]
      exact List.count_eq_zero.mpr hnot
    rw [hcount, ← hlast, ← ha]
  · have hcount : a.count '\n' = (q.splitOn '\n').length := by
      rw [ha, List.count_append, List.count_cons_self, List.count_eq_zero.mpr hnot, length_splitOn]
    have happend : a ++ b = q ++ '\n' :: (lastLine a ++ b) := by
      nth_rewrite 1 [ha]
      rw [List.append_assoc, List.cons_append]
    rw [happend, List.splitOn_append_cons_self, hcount, List.getElem?_append_right (Nat.le_refl _),
      Nat.sub_self, hlast]

/-! ## What a reader keeps -/

namespace Reader

/-- The reader has read the source up to and with its lookahead, and keeps the last line of that. -/
def Tracks (source : List Char) (r : Reader) : Prop :=
  ∃ before, source = before ++ r.pending ∧
    r.lineReversed.reverse = lastLine (before ++ r.pending.take 1)

theorem Tracks.advance {source : List Char} {r : Reader} (h : r.Tracks source) :
    r.advance.Tracks source := by
  obtain ⟨before, hsource, hline⟩ := h
  cases r with
  | mk pending position line =>
    match pending with
    | [] => exact ⟨before, hsource, hline⟩
    | [c] =>
      refine ⟨before ++ [c], hsource.trans (List.append_nil _).symm, hline.trans ?_⟩
      exact congrArg lastLine (List.append_nil _).symm
    | c :: d :: rest =>
      refine ⟨before ++ [c], hsource.trans (List.append_assoc before [c] (d :: rest)).symm, ?_⟩
      show (extendLine line d).reverse = lastLine (before ++ [c] ++ [d])
      by_cases hd : d = '\n'
      · subst hd
        rw [lastLine_append_of_mem _ (List.mem_singleton_self _)]
        rfl
      · have hnot : '\n' ∉ [d] := by simpa using fun he => hd he.symm
        have hline : line.reverse = lastLine (before ++ [c]) := hline
        rw [extendLine, if_neg hd, List.reverse_cons, hline, lastLine_append_of_notMem _ hnot]

theorem Tracks.skip {source : List Char} {r : Reader} (h : r.Tracks source) (n : Nat) :
    (r.skip n).Tracks source := by
  induction n generalizing r with
  | zero => exact h
  | succ n ih => exact ih h.advance

theorem tracks_ofSource (source : List Char) : (ofSource source).advance.Tracks source := by
  refine ⟨[], by rw [Reader.advance_pending]; rfl, ?_⟩
  cases source with
  | nil => rfl
  | cons d rest =>
    show (extendLine [] d).reverse = lastLine [d]
    by_cases hd : d = '\n'
    · subst hd
      rfl
    · rw [extendLine, if_neg hd, lastLine_of_notMem (by simpa using fun he => hd he.symm)]
      rfl

end Reader

/-- The scanner behind the lookahead keeps the last line of what it has read of the source. -/
def Lookahead.Tracks (source : List Char) (l : Lookahead) : Prop :=
  l.scanner.reader.Tracks source

theorem Lookahead.Tracks.advance {source : List Char} {l : Lookahead} (h : l.Tracks source) :
    l.advance.Tracks source := by
  show l.scanner.next.2.reader.Tracks source
  rw [Scanner.next_reader]
  exact (h.skip _).skip _

theorem tracks_ofSource (filename : String) (source : List Char) :
    (Lookahead.ofScanner (.ofSource source filename)).Tracks source := by
  let s := Scanner.ofSource source filename
  have hnext : s.next = { s with reader := s.reader.advance }.next := Scanner.next_of_isBlank rfl rfl
  show s.next.2.reader.Tracks source
  rw [hnext, Scanner.next_reader]
  exact ((Reader.tracks_ofSource source).skip _).skip _

/-! ## The line of a diagnostic -/

/-- The line up to one character behind the token, unless that is a line feed. -/
def shownLine (before text rest : List Char) : List Char :=
  if rest.head? = some '\n' then [] else lastLine before ++ text ++ rest.take 1

theorem lastLine_shown {before text rest : List Char} (h : '\n' ∉ text) :
    lastLine (before ++ text ++ rest.take 1) = shownLine before text rest := by
  rw [shownLine]
  cases rest with
  | nil =>
    simp only [List.take_nil, List.append_nil, List.head?_nil, reduceCtorEq, if_false]
    exact lastLine_append_of_notMem before h
  | cons c rest =>
    simp only [List.head?_cons, Option.some.injEq, List.take_succ_cons, List.take_zero]
    by_cases hc : c = '\n'
    · subst hc
      rw [if_pos rfl, lastLine_append_of_mem _ (List.mem_singleton_self _)]
      rfl
    · have hnot : '\n' ∉ [c] := by simpa using fun he => hc he.symm
      rw [if_neg hc, lastLine_append_of_notMem _ hnot, lastLine_append_of_notMem _ h]

theorem shownLine_begins {before text rest : List Char} (h : '\n' ∉ text) :
    shownLine before text rest <+: lastLine before ++ (text ++ rest).takeWhile (· ≠ '\n') := by
  have hall : ∀ c ∈ text, decide (c ≠ '\n') = true := by
    intro c hc
    simpa using fun he : c = '\n' => h (he ▸ hc)
  rw [shownLine, List.takeWhile_append_of_pos hall]
  split
  · exact List.nil_prefix
  · next hfeed =>
    rw [List.append_assoc, List.prefix_append_right_inj, List.prefix_append_right_inj]
    cases rest with
    | nil => exact List.nil_prefix
    | cons c rest =>
      have hc : decide (c ≠ '\n') = true := by simpa using hfeed
      have htake : (c :: rest).takeWhile (· ≠ '\n') = c :: rest.takeWhile (· ≠ '\n') :=
        List.takeWhile_cons_of_pos hc
      rw [htake]
      exact List.prefix_append [c] _

theorem text_begins_shownLine {before text rest : List Char} (h : rest.head? ≠ some '\n') :
    text <+: (shownLine before text rest).drop ((Position.after before).column - 1) := by
  rw [shownLine, if_neg h, Position.after_column, Nat.add_sub_cancel_left, List.append_assoc,
    List.drop_left]
  exact List.prefix_append _ _

/-- No token spans lines, so that the scanner behind it is still on its line. -/
theorem StandsIn.line_eq {filename : String} {source : List Char} {l : Lookahead}
    (h : StandsIn filename source l) : l.token.location.line = l.scanner.line := by
  obtain ⟨before, text, rest, hoccurs, hbetween⟩ := h.occurs
  have hafter := Position.after_append_line before text
  have hone := (Position.after_line_eq_one_iff text).mpr hoccurs.notMem
  rw [hoccurs.location_eq, Scanner.line, hbetween.position]
  show ((Position.after before).line : Int) = ((Position.after (before ++ text)).line : Int)
  omega

/-- At its own token a lookahead still stands on the line of that, so that a diagnostic has a source
line. -/
theorem Lookahead.diagnostic_eq {filename : String} {source : List Char} {l : Lookahead}
    (h : StandsIn filename source l) (ht : l.Tracks source) (cause : Refusal) :
    ∃ before text rest, Occurs filename source before text rest l.token ∧
      l.diagnostic cause = ⟨cause.detail l.token.lexeme, some l.token.location,
        some (String.ofList (shownLine before text rest))⟩ := by
  obtain ⟨before, text, rest, hoccurs, hbetween⟩ := h.occurs
  refine ⟨before, text, rest, hoccurs, ?_⟩
  have htext : l.scanner.reader.lineText = String.ofList (shownLine before text rest) := by
    obtain ⟨read, hsource, hread⟩ := ht
    have hread_eq : read = before ++ text := by
      rw [hbetween.pending, hoccurs.source_eq, ← List.append_assoc] at hsource
      exact (List.append_cancel_right hsource).symm
    rw [Reader.lineText, hread, hread_eq, hbetween.pending, lastLine_shown hoccurs.notMem]
  rw [Lookahead.diagnostic, if_pos h.line_eq, htext]

/-- Every diagnostic is made at a lookahead for which what advances keep holds. -/
theorem Session.Live.diagnostic_at {P : Lookahead → Prop} (hadvance : ∀ l, P l → P l.advance)
    {s : Session} (h : s.Live) (hs : P s.lookahead) :
    ∀ d ∈ (unitsOf s.beats).filterMap SourceUnit.diagnostic?,
      ∃ m cause, P m ∧ d = m.diagnostic cause := by
  induction s, h using Live.induction with
  | aborted s h ht =>
    rw [unitsOf_of_last_turn ht rfl]
    simp
  | endOfInput s h he ht =>
    rw [unitsOf_of_last_turn ht rfl]
    simp
  | separator s h hsep ht h' ih =>
    rw [unitsOf_of_turn ht rfl]
    exact ih (hadvance _ hs)
  | derived s h ts m u hr hu ht h' ih =>
    have hnone : u.diagnostic? = none := by cases hu <;> rfl
    rw [unitsOf_of_turn ht rfl, Turn.unit?, Option.toList_some, List.singleton_append,
      List.filterMap_cons_none hnone]
    exact ih (hr.keeps hadvance hs)
  | failed s h ts m cause he hr hf ht h' ih =>
    have hm := hr.keeps hadvance hs
    have hsome : (SourceUnit.failure (some (m.diagnostic cause))).diagnostic? =
        some (m.diagnostic cause) := rfl
    rw [unitsOf_of_turn ht rfl, Turn.unit?, Option.toList_some, List.singleton_append,
      List.filterMap_cons_some hsome, List.forall_mem_cons]
    exact ⟨⟨m, cause, hm, rfl⟩, ih (hadvance m hm)⟩

/-! ## Carets -/

namespace Diagnostic

/-- In the text of the diagnostic the caret stands under the first character of `text`. -/
def CaretUnder (text : List Char) (d : Diagnostic) : Prop :=
  ∃ shown pointer k, d.excerpt = [shown, pointer] ∧
    pointer.toList = List.replicate k ' ' ++ ['^'] ∧ text <+: shown.toList.drop k

theorem caretUnder_of_begins {detail : DiagnosticDetail} {filename line : String} {p : Position}
    {text : List Char} (hp : 0 < p.column) (h : text <+: line.toList.drop (p.column - 1)) :
    CaretUnder text ⟨detail, some (p.within filename), some line⟩ := by
  let blanks (n : Nat) := List.replicate n ' '
  have hcaret : caret (p.within filename).column =
      [String.ofList (blanks (margin + (p.column - 1))) ++ "^"] := by
    have hcolumn : (0 : Int) < (p.column : Int) := by omega
    have hwidth : margin + (p.column : Int).toNat - 1 = margin + (p.column - 1) := by
      rw [Int.toNat_natCast]
      omega
    rw [caret, Position.within, if_pos hcolumn, hwidth]
  refine ⟨String.ofList (blanks margin) ++ line,
    String.ofList (blanks (margin + (p.column - 1))) ++ "^", margin + (p.column - 1), ?_, ?_, ?_⟩
  · exact congrArg (_ :: ·) hcaret
  · rw [String.toList_append, String.toList_ofList]
    rfl
  · have hlength : (blanks margin).length = margin := List.length_replicate
    rw [String.toList_append, String.toList_ofList, ← List.drop_drop, List.drop_left' hlength]
    exact h

end Diagnostic

/-! ## Runs -/

/-- Every diagnostic of a run stands at a token and shows a beginning of the line of that, at the end
of the source the whole line. The line goes on through the token, under which the caret stands, unless
a line feed follows directly: then nothing is shown. -/
theorem Options.run_sourceLines (o : Options) (source : List Char) (name : Option String) :
    ∀ d ∈ (o.run source name).diagnostics,
      ∃ (t : Token) (before text rest full : List Char) (cause : Refusal) (line : String),
      Occurs (o.nameOf name) source before text rest t ∧
      d = ⟨cause.detail t.lexeme, some t.location, some line⟩ ∧
      (source.splitOn '\n')[(Position.after before).line - 1]? = some full ∧
      line.toList <+: full ∧
      (t.isEnd = true → line.toList = full ∧ full.length = (Position.after before).column - 1) ∧
      (rest.head? = some '\n' → line = "") ∧
      (rest.head? ≠ some '\n' →
        text <+: line.toList.drop ((Position.after before).column - 1) ∧ d.CaretUnder text) := by
  intro d hd
  have hlive := o.live_session source name
  have hdiagnostics : (o.run source name).diagnostics =
      (unitsOf (o.session source name).beats).filterMap SourceUnit.diagnostic? :=
    hlive.final_diagnostics
  rw [hdiagnostics] at hd
  let P (l : Lookahead) : Prop := StandsIn (o.nameOf name) source l ∧ l.Tracks source
  have hadvance : ∀ l, P l → P l.advance := fun l h => ⟨h.1.advance, h.2.advance⟩
  have hstart : P (o.session source name).lookahead :=
    ⟨standsIn_ofSource (o.nameOf name) source, tracks_ofSource (o.nameOf name) source⟩
  obtain ⟨m, cause, ⟨hstands, htracks⟩, rfl⟩ := hlive.diagnostic_at hadvance hstart d hd
  obtain ⟨before, text, rest, hoccurs, heq⟩ := Lookahead.diagnostic_eq hstands htracks cause
  have hfull := getElem?_splitOn_append before (text ++ rest)
  rw [← hoccurs.source_eq] at hfull
  refine ⟨m.token, before, text, rest, _, cause, _, hoccurs, heq, hfull, ?_, ?_, ?_, ?_⟩
  · rw [String.toList_ofList]
    exact shownLine_begins hoccurs.notMem
  · intro he
    obtain ⟨-, rfl, rfl⟩ := hoccurs.before_eq he
    have hnil : lastLine before ++ ([] ++ []).takeWhile (· ≠ '\n') = lastLine before :=
      List.append_nil _
    have hshown : shownLine before [] [] = lastLine before := by simp [shownLine]
    rw [String.toList_ofList, hnil, hshown, Position.after_column, Nat.add_sub_cancel_left]
    exact ⟨rfl, rfl⟩
  · intro hfeed
    rw [shownLine, if_pos hfeed]
  · intro hfeed
    have hpos : 0 < (Position.after before).column := by
      rw [Position.after_column]
      omega
    have hbegin : text <+:
        (String.ofList (shownLine before text rest)).toList.drop
          ((Position.after before).column - 1) := by
      rw [String.toList_ofList]
      exact text_begins_shownLine hfeed
    refine ⟨hbegin, ?_⟩
    rw [heq, hoccurs.location_eq]
    exact Diagnostic.caretUnder_of_begins hpos hbegin

/-- In a group that breaks off, the line goes on to the character behind the offending token. -/
theorem Options.run_sourceLines_default :
    let source := "x\n  (1 2);".toList
    ∃ d t before text rest, d ∈ (Options.default.run source none).diagnostics ∧
      Occurs "<stdin>" source before text rest t ∧ d.location = some t.location ∧
      t.location = ⟨"<stdin>", 2, 6⟩ ∧ d.sourceLine = some "  (1 2)" ∧ d.CaretUnder text := by
  intro source
  have hfirst : (Options.default.run source none).diagnostics.head?.map
      (fun d => (d.location, d.sourceLine)) = some (some ⟨"<stdin>", 2, 6⟩, some "  (1 2)") := by
    decide +kernel
  obtain ⟨d, hd, hplace⟩ := Option.map_eq_some_iff.mp hfirst
  have hmem := List.mem_of_head? hd
  have hlocation : d.location = some ⟨"<stdin>", 2, 6⟩ := congrArg Prod.fst hplace
  have hline : d.sourceLine = some "  (1 2)" := congrArg Prod.snd hplace
  obtain ⟨t, before, text, rest, full, cause, line, hoccurs, rfl, -, -, -, hfeed, hshown⟩ :=
    Options.run_sourceLines .default source none d hmem
  have hrest : rest.head? ≠ some '\n' := by
    intro h
    rw [hfeed h] at hline
    simp at hline
  exact ⟨_, t, before, text, rest, hmem, hoccurs, rfl, Option.some.inj hlocation, hline,
    (hshown hrest).2⟩

/-- A token at the end of its line, of which the diagnostic shows nothing. -/
theorem Options.run_sourceLines_lineFeed :
    let source := ")\n".toList
    let r := Options.default.run source none
    r.diagnostics.map (fun d => (d.location, d.sourceLine)) =
        [(some ⟨"<stdin>", 1, 1⟩, some "")] ∧
      source.splitOn '\n' = [")".toList, []] := by
  decide +kernel

end ExprFront
