import ExprFront.Proofs.TokenPlaces

/-!
# Where a lookahead stands

The position behind two texts is that behind the second one, counted from the end of the first. A
lookahead stands behind a text and in front of another: its token is the first lexeme of what is in
front, and its scanner has passed that lexeme and nothing else.
-/

namespace ExprFront
set_option autoImplicit false

/-! ## Last lines -/

/-- What stands behind the last line feed. -/
def lastLine (cs : List Char) : List Char := (cs.reverse.takeWhile (· ≠ '\n')).reverse

theorem lastLine_append_of_notMem (a : List Char) {b : List Char} (h : '\n' ∉ b) :
    lastLine (a ++ b) = lastLine a ++ b := by
  have hall : ∀ c ∈ b.reverse, decide (c ≠ '\n') = true := by
    intro c hc
    simpa using fun he : c = '\n' => h (he ▸ List.mem_reverse.mp hc)
  rw [lastLine, List.reverse_append, List.takeWhile_append_of_pos hall, List.reverse_append,
    List.reverse_reverse, lastLine]

theorem lastLine_of_notMem {b : List Char} (h : '\n' ∉ b) : lastLine b = b :=
  lastLine_append_of_notMem [] h

theorem lastLine_append_of_mem (a : List Char) {b : List Char} (h : '\n' ∈ b) :
    lastLine (a ++ b) = lastLine b := by
  have hmem : '\n' ∈ b.reverse := List.mem_reverse.mpr h
  rw [lastLine, List.reverse_append, List.takeWhile_append, if_neg, lastLine]
  intro hlength
  have hself := List.takeWhile_eq_self_iff.mp
    ((List.takeWhile_prefix (· ≠ '\n')).eq_of_length hlength)
  simpa using hself _ hmem

/-- A text is its last line and what ends in a line feed before that. -/
theorem exists_lastLine (a : List Char) :
    a = lastLine a ∨ ∃ q, a = q ++ '\n' :: lastLine a := by
  have hsplit := List.takeWhile_append_dropWhile (p := (· ≠ '\n')) (l := a.reverse)
  have hfeed := List.head?_dropWhile_not (· ≠ '\n') a.reverse
  have ha : a = (a.reverse.dropWhile (· ≠ '\n')).reverse ++ lastLine a := by
    rw [lastLine, ← List.reverse_append, hsplit, List.reverse_reverse]
  cases hdrop : a.reverse.dropWhile (· ≠ '\n') with
  | nil =>
    rw [hdrop] at ha
    exact .inl ha
  | cons c cs =>
    rw [hdrop] at ha hfeed
    obtain rfl : c = '\n' := by simpa using hfeed
    rw [List.reverse_cons, List.append_assoc] at ha
    exact .inr ⟨cs.reverse, ha⟩

theorem notMem_lastLine (a : List Char) : '\n' ∉ lastLine a := by
  intro hmem
  have hne := List.mem_takeWhile_imp (List.mem_reverse.mp hmem)
  simp at hne

/-! ## Positions behind texts -/

namespace Position
variable (a b : List Char)

theorem after_append_line : (after (a ++ b)).line + 1 = (after a).line + (after b).line := by
  simp only [after, List.count_append]
  omega

theorem after_line_eq_one_iff : (after b).line = 1 ↔ '\n' ∉ b := by
  rw [← List.count_eq_zero]
  simp only [after]
  omega

theorem after_column : (after a).column = 1 + (lastLine a).length := by
  rw [lastLine, List.length_reverse, after]

theorem after_column_of_notMem {b : List Char} (h : '\n' ∉ b) :
    (after b).column = 1 + b.length := by
  rw [after_column, lastLine_of_notMem h]

theorem after_append_column_of_notMem {b : List Char} (h : '\n' ∉ b) :
    (after (a ++ b)).column = (after a).column + b.length := by
  rw [after_column, after_column, lastLine_append_of_notMem a h, List.length_append, Nat.add_assoc]

theorem after_append_column_of_mem {b : List Char} (h : '\n' ∈ b) :
    (after (a ++ b)).column = (after b).column := by
  rw [after_column, after_column, lastLine_append_of_mem a h]

/-- No two places in a text have the same position. -/
theorem after_inj {a b r r' : List Char} (h : a ++ r = b ++ r') (hp : after a = after b) :
    a = b := by
  have hnil : ∀ c d : List Char, after (c ++ d) = after c → d = [] := by
    intro c d he
    have hline := after_append_line c d
    have hcolumn := after_append_column_of_notMem c (b := d)
    rw [he] at hline hcolumn
    have hnot : '\n' ∉ d := (after_line_eq_one_iff d).mp (by omega)
    exact List.eq_nil_of_length_eq_zero (by have := hcolumn hnot; omega)
  obtain ⟨d, rfl, -⟩ | ⟨d, rfl, -⟩ := List.append_eq_append_iff.mp h
  · rw [hnil a d hp.symm, List.append_nil]
  · rw [hnil b d hp, List.append_nil]

theorem within_inj {p q : Position} {filename : String}
    (h : p.within filename = q.within filename) : p = q := by
  simp only [within, Location.mk.injEq, true_and, Int.natCast_inj] at h
  rw [Position.mk.injEq]
  exact h

end Position

/-- A location in a text that starts at another one. -/
def Location.offset (base l : Location) : Location :=
  ⟨l.filename, l.line + (base.line - 1),
    if l.line = 1 then l.column + (base.column - 1) else l.column⟩

theorem Position.within_append (a b : List Char) (filename : String) :
    (after (a ++ b)).within filename =
      ((after a).within filename).offset ((after b).within filename) := by
  have hline := after_append_line a b
  have hone : ((after b).within filename).line = 1 ↔ '\n' ∉ b := by
    rw [← after_line_eq_one_iff]
    show ((after b).line : Int) = 1 ↔ _
    omega
  by_cases hmem : '\n' ∈ b
  · rw [Location.offset, if_neg (by simpa [hone] using hmem)]
    simp only [within, Location.mk.injEq, after_append_column_of_mem a hmem, true_and, and_true]
    omega
  · rw [Location.offset, if_pos (hone.mpr hmem)]
    simp only [within, Location.mk.injEq, after_append_column_of_notMem a hmem,
      after_column_of_notMem hmem, true_and]
    omega

/-! ## Standing lookaheads -/

theorem lexemeAt_length_le (cs : List Char) : (lexemeAt cs).2 ≤ cs.length := by
  cases cs with
  | nil => exact Nat.le_refl 0
  | cons c cs =>
    have hword := (List.takeWhile_sublist isWordChar (l := cs)).length_le
    have hnumber := (List.takeWhile_sublist isNumberChar (l := cs)).length_le
    simp only [lexemeAt]
    split
    · simpa using hword
    · split
      · simpa using hnumber
      · simp

namespace Lookahead

structure Stands (filename : String) (before rest : List Char) (l : Lookahead) : Prop where
  noGap : NoGap rest
  token : l.token = ⟨(lexemeAt rest).1, (Position.after before).within filename⟩
  scanner : l.scanner.Between (before ++ rest.take (lexemeAt rest).2)
    (rest.drop (lexemeAt rest).2)
  filename_eq : l.scanner.filename = filename

end Lookahead

/-- A scanner passes the gap in front of it and the lexeme behind that. -/
theorem Scanner.Between.stands {s : Scanner} {before g rest : List Char}
    (h : s.Between before (g ++ rest)) (hg : IsGap rest g) (hr : NoGap rest) :
    (Lookahead.ofScanner s).Stands s.filename (before ++ g) rest := by
  have htext := h.lexemeText_eq hg hr
  have hlength : (rest.take (lexemeAt rest).2).length = (lexemeAt rest).2 :=
    List.length_take_of_le (lexemeAt_length_le rest)
  constructor
  · exact hr
  · have hlexeme : s.next.1.lexeme = (lexemeAt rest).1 := by rw [s.next_lexeme, htext]
    have hlocation := h.location_eq hg hr
    show s.next.1 = _
    rw [← hlexeme, ← hlocation]
  · have hgap : (s.reader.skip g.length).pending = rest := by
      rw [Reader.skip_pending, h.pending, List.drop_left]
    have hposition := Reader.skip_position h.pending h.position
    have hskip : (s.reader.skip g.length).pending =
        rest.take (lexemeAt rest).2 ++ rest.drop (lexemeAt rest).2 := by
      rw [hgap, List.take_append_drop]
    constructor
    · exact s.next_pending.trans (by rw [htext])
    · show s.next.2.reader.position = _
      rw [s.next_reader, h.pending, hg.gapLength_eq hr, htext,
        ← Reader.skip_position hskip hposition, hlength]
  · rfl

namespace Lookahead

theorem Stands.advance {filename : String} {before rest g rest' : List Char} {l : Lookahead}
    (h : l.Stands filename before rest) (hrest : rest.drop (lexemeAt rest).2 = g ++ rest')
    (hg : IsGap rest' g) (hr : NoGap rest') :
    l.advance.Stands filename (before ++ rest.take (lexemeAt rest).2 ++ g) rest' := by
  have hscanner := h.scanner
  rw [hrest] at hscanner
  rw [← h.filename_eq]
  exact hscanner.stands hg hr

end Lookahead

/-- The first lookahead on a source stands behind its first gap. -/
theorem Scanner.stands_ofSource {g rest : List Char} (filename : String) (hg : IsGap rest g)
    (hr : NoGap rest) :
    (Lookahead.ofScanner (.ofSource (g ++ rest) filename)).Stands filename g rest := by
  obtain ⟨s, hs, rfl, hnext⟩ := exists_next (g ++ rest) filename
  have hlookahead : Lookahead.ofScanner (.ofSource (g ++ rest) s.filename) = .ofScanner s := by
    rw [Lookahead.ofScanner, hnext]
    rfl
  rw [hlookahead]
  exact hs.stands hg hr

/-! ## Lookaheads in a source -/

/-- The lookahead stands somewhere in the source. -/
def StandsIn (filename : String) (source : List Char) (l : Lookahead) : Prop :=
  ∃ before rest, source = before ++ rest ∧ l.Stands filename before rest

theorem StandsIn.advance {filename : String} {source : List Char} {l : Lookahead}
    (h : StandsIn filename source l) : StandsIn filename source l.advance := by
  obtain ⟨before, rest, rfl, hl⟩ := h
  obtain ⟨g, rest', hrest, hg, hr⟩ := (exists_isGap (rest.drop (lexemeAt rest).2)).1
  refine ⟨_, rest', ?_, hl.advance hrest hg hr⟩
  rw [List.append_assoc, List.append_assoc, ← hrest, List.take_append_drop]

theorem standsIn_ofSource (filename : String) (source : List Char) :
    StandsIn filename source (.ofScanner (.ofSource source filename)) := by
  obtain ⟨g, rest, rfl, hg, hr⟩ := (exists_isGap source).1
  exact ⟨g, rest, rfl, Scanner.stands_ofSource filename hg hr⟩

end ExprFront
