import ExprFront.Proofs.Standing

/-!
# Where tokens occur

The token of a lookahead occurs in its source: its text stands at its location, as long as it can
be. What is read later occurs further on.
-/

namespace ExprFront
set_option autoImplicit false

/-! ## The order of places -/

def Location.Before (l m : Location) : Prop :=
  l.line < m.line ∨ l.line = m.line ∧ l.column < m.column

instance (l m : Location) : Decidable (l.Before m) :=
  inferInstanceAs (Decidable (l.line < m.line ∨ l.line = m.line ∧ l.column < m.column))

/-- The place of a token comes before that of another. -/
def Token.Before (t u : Token) : Prop := t.location.Before u.location

instance (t u : Token) : Decidable (t.Before u) :=
  inferInstanceAs (Decidable (t.location.Before u.location))

instance : IsTrans Token Token.Before where
  trans := by
    simp only [Token.Before, Location.Before]
    omega

theorem Position.after_before (a : List Char) {d : List Char} (hd : d ≠ []) (filename : String) :
    ((after a).within filename).Before ((after (a ++ d)).within filename) := by
  have hline := after_append_line a d
  have hpos := List.length_pos_iff.mpr hd
  by_cases hmem : '\n' ∈ d
  · have hne : (after d).line ≠ 1 := fun h => (after_line_eq_one_iff d).mp h hmem
    have hle : 1 ≤ (after d).line := by simp [after]
    left
    simp only [within]
    omega
  · have hone := (after_line_eq_one_iff d).mpr hmem
    have hcolumn := after_append_column_of_notMem a hmem
    right
    simp only [within]
    omega

/-! ## Texts of lexemes -/

inductive Spells : List Char → Lexeme → Prop
  | define : Spells "def".toList .define
  | external : Spells "extern".toList .external
  | name {l : List Char} (hl : IsWord l) (hd : l ≠ "def".toList) (hx : l ≠ "extern".toList) :
      Spells l (.name (String.ofList l))
  | numeral {l : List Char} (hl : IsNumeral l) : Spells l (.number (Numeral.value l))
  | mark {c : Char} (hc : IsMark c) : Spells [c] (.char c)

theorem Yields.spells {l : List Char} {lexeme : Lexeme} {s : Scanner} (h : Yields l lexeme s) :
    Spells l lexeme := by
  cases h with
  | define => exact .define
  | external => exact .external
  | name hl hd hx => exact .name hl hd hx
  | numeral hl => exact .numeral hl
  | mark hc => exact .mark hc

theorem IsLexeme.spells {l rest : List Char} (h : IsLexeme rest l) :
    Spells l (lexemeAt (l ++ rest)).1 := by
  let s := Scanner.ofSource [] ""
  let lexeme := (lexemeAt (l ++ rest)).1
  have hyields : Yields l lexeme
      { s with word := s.wordAfter lexeme, number := s.numberAfter lexeme } := h.yields rfl rfl
  exact hyields.spells

theorem IsLexeme.notMem {l rest : List Char} (h : IsLexeme rest l) : '\n' ∉ l := by
  intro hmem
  cases h with
  | word hl hr =>
    obtain ⟨c, cs, rfl, hc, hcs⟩ := hl
    obtain rfl | hmem := List.mem_cons.mp hmem
    · exact absurd hc (by decide)
    · exact absurd (hcs _ hmem) (by decide)
  | numeral hl hr => exact absurd (hl.2 _ hmem) (by decide)
  | mark hc =>
    obtain rfl := List.mem_singleton.mp hmem
    exact absurd hc.2.2.1 (by decide)

/-! ## Occurrences -/

/-- The token stands in the source behind `before` and takes up `text`, as far as that can go. The
end of the input takes up nothing. -/
structure Occurs (filename : String) (source before text rest : List Char) (t : Token) : Prop where
  source_eq : source = before ++ (text ++ rest)
  location_eq : t.location = (Position.after before).within filename
  reads : t.isEnd = true ∧ text = [] ∧ rest = [] ∨ IsLexeme rest text ∧ Spells text t.lexeme

section
variable {filename : String} {source before text rest : List Char} {t : Token}

theorem Occurs.notMem (h : Occurs filename source before text rest t) : '\n' ∉ text := by
  obtain ⟨-, rfl, -⟩ | ⟨hl, -⟩ := h.reads
  · simp
  · exact hl.notMem

theorem Occurs.length_eq (h : Occurs filename source before text rest t) :
    (lexemeAt (text ++ rest)).2 = text.length := by
  obtain ⟨-, rfl, rfl⟩ | ⟨hl, -⟩ := h.reads
  · rfl
  · exact hl.length_eq

/-- What occurs at a location is told by the source. -/
theorem Occurs.unique {before' text' rest' : List Char} {t' : Token}
    (h : Occurs filename source before text rest t)
    (h' : Occurs filename source before' text' rest' t') (hl : t.location = t'.location) :
    before = before' ∧ text = text' ∧ rest = rest' := by
  have hsource := h.source_eq.symm.trans h'.source_eq
  have hposition : Position.after before = Position.after before' :=
    Position.within_inj (h.location_eq.symm.trans (hl.trans h'.location_eq))
  obtain rfl := Position.after_inj hsource hposition
  have hahead := List.append_cancel_left hsource
  have hlength : text.length = text'.length := by rw [← h.length_eq, hahead, h'.length_eq]
  obtain ⟨htext, hrest⟩ := List.append_inj hahead hlength
  exact ⟨rfl, htext, hrest⟩

theorem Occurs.spells (h : Occurs filename source before text rest t) (he : t.isEnd = false) :
    IsLexeme rest text ∧ Spells text t.lexeme := by
  obtain ⟨hend, -⟩ | hreads := h.reads
  · rw [he] at hend
    simp at hend
  · exact hreads

theorem Occurs.before_eq (h : Occurs filename source before text rest t) (he : t.isEnd = true) :
    before = source ∧ text = [] ∧ rest = [] := by
  obtain ⟨-, rfl, rfl⟩ | ⟨-, hspells⟩ := h.reads
  · exact ⟨by simpa using h.source_eq.symm, rfl, rfl⟩
  · rw [Token.lexeme_of_isEnd he] at hspells
    cases hspells

end

namespace Lookahead
variable {filename : String} {source before rest : List Char} {l : Lookahead}

/-- The token of a standing lookahead is the first text of what is in front, and its scanner stands
behind that text. -/
theorem Stands.occurs (h : l.Stands filename before rest) :
    ∃ text rest', rest = text ++ rest' ∧ Occurs filename (before ++ rest) before text rest' l.token ∧
      l.scanner.Between (before ++ text) rest' := by
  have hlocation : l.token.location = (Position.after before).within filename :=
    congrArg Token.location h.token
  by_cases hnil : rest = []
  · subst hnil
    have hend : l.token.isEnd = true := by rw [h.token]; rfl
    exact ⟨[], [], rfl, ⟨rfl, hlocation, .inl ⟨hend, rfl, rfl⟩⟩, h.scanner⟩
  · obtain ⟨text, rest', rfl, hl⟩ := exists_isLexeme hnil h.noGap
    have hspells : Spells text l.token.lexeme := by
      rw [h.token]
      exact hl.spells
    have hscanner := h.scanner
    rw [hl.length_eq, List.take_left, List.drop_left] at hscanner
    exact ⟨text, rest', rfl, ⟨rfl, hlocation, .inr ⟨hl, hspells⟩⟩, hscanner⟩

end Lookahead

section
variable {filename : String} {source : List Char} {l m : Lookahead}

theorem StandsIn.occurs (h : StandsIn filename source l) :
    ∃ before text rest, Occurs filename source before text rest l.token ∧
      l.scanner.Between (before ++ text) rest := by
  obtain ⟨before, rest, rfl, hl⟩ := h
  obtain ⟨text, rest', rfl, hoccurs, hscanner⟩ := hl.occurs
  exact ⟨before, text, rest', hoccurs, hscanner⟩

/-! ## The order of tokens -/

theorem StandsIn.before_advance (h : StandsIn filename source l) (he : l.token.isEnd = false) :
    l.token.Before l.advance.token := by
  obtain ⟨before, rest, rfl, hl⟩ := h
  obtain ⟨g, rest', hrest, hg, hr⟩ := (exists_isGap (rest.drop (lexemeAt rest).2)).1
  have hadvance := hl.advance hrest hg hr
  have hne : rest ≠ [] := by
    rintro rfl
    rw [Token.isEnd, hl.token] at he
    simp [lexemeAt] at he
  have hpos := lexemeAt_pos hne
  have htake : rest.take (lexemeAt rest).2 ++ g ≠ [] := by
    simp only [ne_eq, List.append_eq_nil_iff, List.take_eq_nil_iff, hne, or_false, not_and]
    omega
  rw [Token.Before, hl.token, hadvance.token, List.append_assoc]
  exact Position.after_before before htake filename

/-- Tokens that are read one after the other stand one behind the other, and so does the token at
which the reading stops. -/
theorem StandsIn.ascend (h : StandsIn filename source l) {ts : List Token} (hr : l.Reads ts m) :
    (ts ++ [m.token]).Pairwise Token.Before := by
  rw [← List.isChain_iff_pairwise]
  induction ts generalizing l with
  | nil => exact .singleton _
  | cons t ts ih =>
    obtain ⟨rfl, he, hr⟩ := hr
    have hchain := ih h.advance hr
    have hhead := h.before_advance he
    cases ts with
    | nil =>
      obtain rfl : l.advance = m := hr
      exact hchain.cons_cons hhead
    | cons u us =>
      obtain ⟨rfl, -, -⟩ := hr
      exact hchain.cons_cons hhead

theorem StandsIn.occurs_of_reads (h : StandsIn filename source l) {ts : List Token}
    (hr : l.Reads ts m) : ∀ t ∈ ts, ∃ before text rest, Occurs filename source before text rest t ∧
      IsLexeme rest text ∧ Spells text t.lexeme := by
  induction ts generalizing l with
  | nil => simp
  | cons t ts ih =>
    obtain ⟨rfl, he, hr⟩ := hr
    rw [List.forall_mem_cons]
    obtain ⟨before, text, rest, hoccurs, -⟩ := h.occurs
    exact ⟨⟨before, text, rest, hoccurs, hoccurs.spells he⟩, ih h.advance hr⟩

theorem StandsIn.pairwise_upcoming (h : StandsIn filename source l) :
    l.upcoming.Pairwise Token.Before := by
  obtain ⟨m, hr, -⟩ := Lookahead.reads_of_upcoming (List.append_nil l.upcoming).symm
  exact (List.pairwise_append.mp (h.ascend hr)).1

end

end ExprFront
