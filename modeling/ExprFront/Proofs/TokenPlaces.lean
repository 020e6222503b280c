import Mathlib.Data.List.Forall2
import ExprFront.Proofs.Munch

/-!
# Where tokens stand

The scanner finds the maximal munch of its source with one character of lookahead: there is a token
for each lexeme, which stands where the lexeme does and leaves its text or value behind.
-/

namespace ExprFront
set_option autoImplicit false

/-! ## Positions -/

namespace Position

/-- The position behind a text. Only line feeds end a line. -/
def after (cs : List Char) : Position :=
  ⟨1 + cs.count '\n', 1 + (cs.reverse.takeWhile (· ≠ '\n')).length⟩

theorem after_concat (cs : List Char) (c : Char) : after (cs ++ [c]) = (after cs).next c := by
  by_cases hc : c = '\n'
  · subst hc
    have hline : (cs ++ ['\n']).count '\n' = cs.count '\n' + 1 := by simp
    have hcolumn : ((cs ++ ['\n']).reverse.takeWhile (· ≠ '\n')).length = 0 := by simp
    simp only [after, next, hline, hcolumn, if_true, Nat.add_assoc]
  · have hline : (cs ++ [c]).count '\n' = cs.count '\n' := by simp [hc]
    have hcolumn : ((cs ++ [c]).reverse.takeWhile (· ≠ '\n')).length =
        (cs.reverse.takeWhile (· ≠ '\n')).length + 1 := by simp [hc]
    simp only [after, next, hline, hcolumn, hc, if_false, Nat.add_assoc]

end Position

namespace Reader

theorem advance_position {r : Reader} {c : Char} {cs : List Char} (h : r.pending = c :: cs) :
    r.advance.position = r.position.next c := by
  rcases r with ⟨pending, position, line⟩
  obtain rfl : pending = c :: cs := h
  cases cs <;> rfl

theorem skip_position {cs rest before : List Char} {r : Reader} (hp : r.pending = cs ++ rest)
    (hr : r.position = .after before) : (r.skip cs.length).position = .after (before ++ cs) := by
  induction cs generalizing before r with
  | nil => rwa [List.append_nil]
  | cons c cs ih =>
    have hpending : r.advance.pending = cs ++ rest := by
      rw [r.advance_pending, hp]
      rfl
    have hposition : r.advance.position = .after (before ++ [c]) := by
      rw [advance_position hp, hr, Position.after_concat]
    have h := ih hpending hposition
    rwa [List.append_assoc] at h

end Reader

/-! ## Tokens of lexemes -/

/-- What the token of a lexeme is, and what the scanner carries right after it. -/
inductive Yields : List Char → Lexeme → Scanner → Prop
  | define {s : Scanner} (h : s.word = "def") : Yields "def".toList .define s
  | external {s : Scanner} (h : s.word = "extern") : Yields "extern".toList .external s
  | name {l : List Char} {s : Scanner} (hl : IsWord l) (hd : l ≠ "def".toList)
      (hx : l ≠ "extern".toList) (h : s.word = String.ofList l) :
      Yields l (.name (String.ofList l)) s
  | numeral {l : List Char} {s : Scanner} (hl : IsNumeral l) (h : s.number = Numeral.value l) :
      Yields l (.number (Numeral.value l)) s
  | mark {c : Char} {s : Scanner} (hc : IsMark c) : Yields [c] (.char c) s

section Lexemes
variable {l rest : List Char}

theorem IsWord.yields {s s' : Scanner} (hl : IsWord l)
    (hs : s'.word = s.wordAfter (.ofWord (String.ofList l))) :
    Yields l (.ofWord (String.ofList l)) s' := by
  by_cases hd : l = "def".toList
  · subst hd
    exact .define hs
  · by_cases hx : l = "extern".toList
    · subst hx
      exact .external hs
    · have hne : ∀ w : String, l ≠ w.toList → String.ofList l ≠ w := by
        rintro w hw rfl
        exact hw String.toList_ofList.symm
      rw [Lexeme.ofWord_of_ne (hne _ hd) (hne _ hx)] at hs ⊢
      exact .name hl hd hx hs

theorem IsLexeme.yields {s s' : Scanner} (h : IsLexeme rest l)
    (hw : s'.word = s.wordAfter (lexemeAt (l ++ rest)).1)
    (hn : s'.number = s.numberAfter (lexemeAt (l ++ rest)).1) :
    Yields l (lexemeAt (l ++ rest)).1 s' := by
  cases h with
  | word hl hr =>
    have hat : (lexemeAt (l ++ rest)).1 = .ofWord (String.ofList l) := by
      obtain ⟨c, cs, rfl, hc, hcs⟩ := hl
      rw [lexemeAt_word hc hcs hr]
    rw [hat] at hw ⊢
    exact hl.yields hw
  | numeral hl hr =>
    have hat : (lexemeAt (l ++ rest)).1 = .number (Numeral.value l) := by
      obtain ⟨c, cs, rfl⟩ := List.exists_cons_of_ne_nil hl.1
      rw [lexemeAt_number hl.2 hr]
    rw [hat] at hn ⊢
    exact .numeral hl hn
  | mark hc =>
    rw [List.singleton_append, lexemeAt_mark hc]
    exact .mark hc

end Lexemes

/-! ## The tokens of a source -/

/-- The lexemes of the chunks, each with the text of the source in front of it. -/
def placed : List Char → List Chunk → List (List Char × List Char)
  | _, [] => []
  | before, k :: ks =>
    (before ++ k.gap, k.lexeme) :: placed (before ++ k.gap ++ k.lexeme) ks

theorem length_placed (before : List Char) (ks : List Chunk) :
    (placed before ks).length = ks.length := by
  induction ks generalizing before with
  | nil => rfl
  | cons k ks ih => exact congrArg (· + 1) (ih _)

/-- What is placed stands in the source, as a lexeme in front of what follows it. -/
theorem Munches.exists_of_mem_placed {source last : List Char} {ks : List Chunk}
    (h : Munches source ks last) {before : List Char} {p : List Char × List Char}
    (hp : p ∈ placed before ks) :
    ∃ rest, before ++ source = p.1 ++ (p.2 ++ rest) ∧ IsLexeme rest p.2 := by
  induction h generalizing before with
  | last hg => simp [placed] at hp
  | @chunk g l rest last ks hg hl h ih =>
    obtain rfl | hp := List.mem_cons.mp hp
    · exact ⟨rest, (List.append_assoc _ _ _).symm, hl⟩
    · obtain ⟨rest', heq, hl'⟩ := ih hp
      exact ⟨rest', by simpa using heq, hl'⟩

/-- The token is that of a lexeme, stands where the lexeme does and leaves its text or value behind. -/
def TokenOf (filename : String) (p : List Char × List Char) (r : Token × Scanner) : Prop :=
  Yields p.2 r.1.lexeme r.2 ∧ r.1.location = (Position.after p.1).within filename

namespace Scanner

/-- The scanner stands between two texts, of which the second one is pending. -/
structure Between (s : Scanner) (before rest : List Char) : Prop where
  pending : s.reader.pending = rest
  position : s.reader.position = .after before

theorem next_reader (s : Scanner) :
    s.next.2.reader =
      (s.reader.skip (gapLength false s.reader.pending)).skip (lexemeAt s.lexemeText).2 := by
  simp only [next, Reader.skip_pending, lexemeText, afterGap]

theorem next_location (s : Scanner) :
    s.next.1.location =
      (s.reader.skip (gapLength false s.reader.pending)).position.within s.filename := rfl

theorem next_word (s : Scanner) : s.next.2.word = s.wordAfter s.next.1.lexeme := rfl

theorem next_number (s : Scanner) : s.next.2.number = s.numberAfter s.next.1.lexeme := rfl

theorem next_filename (s : Scanner) : s.next.2.filename = s.filename := rfl

section Next
variable {s : Scanner} {before g rest : List Char}

theorem Between.lexemeText_eq (h : s.Between before (g ++ rest)) (hg : IsGap rest g)
    (hr : NoGap rest) : s.lexemeText = rest := by
  rw [lexemeText, h.pending, afterGap, hg.gapLength_eq hr, List.drop_left]

theorem Between.location_eq (h : s.Between before (g ++ rest)) (hg : IsGap rest g)
    (hr : NoGap rest) :
    s.next.1.location = (Position.after (before ++ g)).within s.filename := by
  have hposition := Reader.skip_position h.pending h.position
  rw [next_location, h.pending, hg.gapLength_eq hr, hposition]

/-- The scanner passes a gap and a lexeme and stands behind them. -/
theorem Between.next {l : List Char} (h : s.Between before (g ++ (l ++ rest)))
    (hg : IsGap (l ++ rest) g) (hl : IsLexeme rest l) :
    TokenOf s.filename (before ++ g, l) s.next ∧ s.next.2.Between (before ++ g ++ l) rest := by
  have htext := h.lexemeText_eq hg hl.noGap
  have hlexeme : s.next.1.lexeme = (lexemeAt (l ++ rest)).1 := by rw [next_lexeme, htext]
  constructor
  · refine ⟨?_, h.location_eq hg hl.noGap⟩
    rw [hlexeme]
    have hword := s.next_word
    have hnumber := s.next_number
    rw [hlexeme] at hword hnumber
    exact hl.yields hword hnumber
  · have hgap : (s.reader.skip g.length).pending = l ++ rest := by
      rw [Reader.skip_pending, h.pending, List.drop_left]
    have hposition := Reader.skip_position hgap (Reader.skip_position h.pending h.position)
    constructor
    · rw [next_pending, htext, hl.length_eq, List.drop_left]
    · rw [next_reader, h.pending, hg.gapLength_eq hl.noGap, htext, hl.length_eq, hposition]

end Next

theorem tokens_of_munches {source last : List Char} {ks : List Chunk}
    (h : Munches source ks last) {s : Scanner} {before : List Char}
    (hs : s.Between before source) :
    ∃ body e, s.tokens = body ++ [e] ∧
      List.Forall₂ (TokenOf s.filename) (placed before ks) body ∧
      e.1 = ⟨.endOfInput, (Position.after (before ++ source)).within s.filename⟩ := by
  -- On the cut. The text before the scanner grows by every chunk, so it has to stay general.
  induction h generalizing s before with
  | @last g hg =>
    have hs : s.Between before (g ++ []) := by rwa [List.append_nil]
    have hend : s.next.1.isEnd = true := s.next_isEnd_iff.mpr (hs.lexemeText_eq hg noGap_nil)
    refine ⟨[], s.next, ?_, .nil, ?_⟩
    · rw [tokens_of_isEnd hend]
      rfl
    · have hlexeme := Token.lexeme_of_isEnd hend
      have hlocation := hs.location_eq hg noGap_nil
      rw [← hlexeme, ← hlocation]
  | @chunk g l rest last ks hg hl h ih =>
    obtain ⟨htoken, hnext⟩ := hs.next hg hl
    obtain ⟨body, e, htokens, hbody, he⟩ := ih hnext
    have hend : ¬ s.next.1.isEnd = true := by
      rw [next_isEnd_iff, hs.lexemeText_eq hg hl.noGap]
      simp [hl.ne_nil]
    refine ⟨s.next :: body, e, ?_, .cons htoken hbody, ?_⟩
    · rw [tokens_of_not_isEnd hend, htokens]
      rfl
    · rw [he, next_filename]
      simp only [List.append_assoc]

/-- A scanner passes a blank in front of it before it does anything else. -/
theorem next_of_isBlank {s : Scanner} {c : Char} {cs : List Char} (h : s.reader.pending = c :: cs)
    (hc : isBlank c = true) : s.next = { s with reader := s.reader.advance }.next := by
  have hpending : s.reader.advance.pending = cs := by rw [Reader.advance_pending, h]; rfl
  simp only [next, h, hpending, gapLength, hc, if_true, Reader.skip]
  rfl

/-- The blank in column 0 makes no difference. -/
theorem exists_next (source : List Char) (filename : String) :
    ∃ s : Scanner, s.Between [] source ∧ s.filename = filename ∧
      (ofSource source filename).next = s.next := by
  let s := ofSource source filename
  have hposition : s.reader.advance.position = s.reader.position.next ' ' :=
    Reader.advance_position (r := s.reader) rfl
  exact ⟨{ s with reader := s.reader.advance }, ⟨Reader.advance_pending _, hposition⟩, rfl,
    next_of_isBlank rfl rfl⟩

theorem exists_between (source : List Char) (filename : String) :
    ∃ s : Scanner, s.Between [] source ∧ s.filename = filename ∧
      (ofSource source filename).tokens = s.tokens := by
  obtain ⟨s, hs, hname, hnext⟩ := exists_next source filename
  have htokens : ∀ s : Scanner,
      s.tokens = if s.next.1.isEnd then [s.next] else s.next :: s.next.2.tokens := by
    intro s
    rw [tokens]
    rfl
  exact ⟨s, hs, hname, by rw [htokens, hnext, ← htokens]⟩

/-- A token of a source is that of a lexeme in the source, unless it is the end. -/
theorem exists_of_mem_tokens {source : List Char} {filename : String} {r : Token × Scanner}
    (hr : r ∈ (ofSource source filename).tokens) (hend : r.1.isEnd = false) :
    ∃ before l rest, source = before ++ (l ++ rest) ∧ IsLexeme rest l ∧
      TokenOf filename (before, l) r := by
  obtain ⟨ks, last, h⟩ := exists_munches source
  obtain ⟨s, hs, rfl, htokens⟩ := exists_between source filename
  obtain ⟨body, e, hbody, hall, he⟩ := tokens_of_munches h hs
  rw [htokens, hbody, List.mem_append, List.mem_singleton] at hr
  obtain hr | rfl := hr
  · obtain ⟨i, hi, rfl⟩ := List.mem_iff_getElem.mp hr
    obtain ⟨hlength, hget⟩ := List.forall₂_iff_get.mp hall
    have hp := (placed [] ks).get_mem ⟨i, hlength ▸ hi⟩
    obtain ⟨rest, hsource, hl⟩ := h.exists_of_mem_placed hp
    exact ⟨_, _, rest, hsource, hl, hget i (hlength ▸ hi) hi⟩
  · rw [he] at hend
    simp [Token.isEnd] at hend

/-- A source is cut into lexemes in exactly one way, and its tokens are one for each lexeme, where the
lexeme stands, and the end behind the source. -/
theorem tokens_munch (source : List Char) (filename : String) :
    ∃ ks last, Munches source ks last ∧
      (∀ ks' last', Munches source ks' last' → ks' = ks ∧ last' = last) ∧
      ∃ body e, (ofSource source filename).tokens = body ++ [e] ∧ body.length = ks.length ∧
        List.Forall₂ (TokenOf filename) (placed [] ks) body ∧
        e.1 = ⟨.endOfInput, (Position.after source).within filename⟩ := by
  obtain ⟨ks, last, h⟩ := exists_munches source
  obtain ⟨s, hs, rfl, htokens⟩ := exists_between source filename
  obtain ⟨body, e, hbody, hall, he⟩ := tokens_of_munches h hs
  have hlength : body.length = ks.length := by rw [← hall.length_eq, length_placed]
  exact ⟨ks, last, h, fun _ _ h' => h.unique h', body, e, htokens.trans hbody, hlength, hall, he⟩

/-- A comment between two lexemes, the second one a numeral that ends in a point. -/
theorem tokens_munch_comment :
    let source := ['f', ' ', '#', 'g', '\n', '1', '.']
    let ks : List Chunk := [⟨[], ['f']⟩, ⟨[' ', '#', 'g', '\n'], ['1', '.']⟩]
    Munches source ks [] ∧ ∃ body e, (ofSource source "").tokens = body ++ [e] ∧
      body.length = 2 ∧ List.Forall₂ (TokenOf "") (placed [] ks) body := by
  intro source ks
  have hword : IsLexeme [' ', '#', 'g', '\n', '1', '.'] ['f'] :=
    .word ⟨'f', [], rfl, by decide, by simp⟩ (by rintro c ⟨⟩; decide)
  have hbody : ∀ c ∈ ['g'], endsComment c = false := by simp [endsComment]
  have hgap : IsGap ['1', '.'] [' ', '#', 'g', '\n'] :=
    .blank (by decide) (.comment hbody (by rintro c ⟨⟩; decide) (.blank (by decide) .nil))
  have hnumeral : IsLexeme [] ['1', '.'] :=
    .numeral ⟨by simp, by simp [isNumberChar, Text.isAsciiDigit]⟩ (by simp)
  have h : Munches source ks [] := .chunk .nil hword (.chunk hgap hnumeral (.last .nil))
  obtain ⟨ks', last', -, hunique, body, e, htokens, hlength, hall, -⟩ := tokens_munch source ""
  obtain ⟨rfl, rfl⟩ := hunique ks [] h
  exact ⟨h, body, e, htokens, hlength, hall⟩

end Scanner

end ExprFront
