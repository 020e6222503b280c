import ExprFront.Proofs.Reading

/-!
# Lexemes of a text

The lexemes of a text do not depend on where the text stands. A word or a number is taken whole
if what follows it could not go on with it, and symbols are taken one by one.
-/

namespace ExprFront
set_option autoImplicit false

/-- The lexemes of a text, without the end. -/
def lexemesOf (cs : List Char) : List Lexeme :=
  if _h : afterGap cs = [] then []
  else (lexemeAt (afterGap cs)).1 :: lexemesOf ((afterGap cs).drop (lexemeAt (afterGap cs)).2)
termination_by cs.length
decreasing_by
  have hpos := lexemeAt_pos _h
  have hlength := List.length_pos_iff.mpr _h
  have hle : (afterGap cs).length ≤ cs.length := by
    rw [afterGap, List.length_drop]
    omega
  rw [List.length_drop]
  omega

theorem lexemesOf_eq_nil {cs : List Char} (h : afterGap cs = []) : lexemesOf cs = [] := by
  rw [lexemesOf, dif_pos h]

theorem lexemesOf_eq_cons {cs : List Char} (h : afterGap cs ≠ []) :
    lexemesOf cs = (lexemeAt (afterGap cs)).1 ::
      lexemesOf ((afterGap cs).drop (lexemeAt (afterGap cs)).2) := by
  rw [lexemesOf, dif_neg h]

theorem lexemesOf_congr {cs ds : List Char} (h : afterGap cs = afterGap ds) :
    lexemesOf cs = lexemesOf ds := by
  by_cases hnil : afterGap ds = []
  · rw [lexemesOf_eq_nil hnil, lexemesOf_eq_nil (h.trans hnil)]
  · rw [lexemesOf_eq_cons hnil, lexemesOf_eq_cons (by rw [h]; exact hnil), h]

theorem Scanner.map_lexeme_upcoming (s : Scanner) :
    (Lookahead.ofScanner s).upcoming.map Token.lexeme = lexemesOf s.reader.pending := by
  fun_induction tokens s with
  | case1 s h =>
    rw [Lookahead.upcoming_of_isEnd h, lexemesOf_eq_nil ((s.next_isEnd_iff).mp h), List.map_nil]
  | case2 s h ih =>
    have he : (Lookahead.ofScanner s).token.isEnd = false := by
      rw [Bool.eq_false_iff]
      exact h
    have hne : s.lexemeText ≠ [] := fun hnil => h ((s.next_isEnd_iff).mpr hnil)
    have hhead : (Lookahead.ofScanner s).token.lexeme = (lexemeAt s.lexemeText).1 := s.next_lexeme
    rw [Lookahead.upcoming_of_not_isEnd he, List.map_cons, lexemesOf_eq_cons hne, hhead]
    exact congrArg _ (ih.trans (congrArg lexemesOf s.next_pending))

/-! ## Words -/

theorem Lexeme.ofWord_define : ofWord "def" = .define := by decide

theorem Lexeme.ofWord_external : ofWord "extern" = .external := by decide

theorem Lexeme.ofWord_of_ne {word : String} (hd : word ≠ "def") (hx : word ≠ "extern") :
    ofWord word = .name word := by
  have hd : (word == "def") = false := by simpa using hd
  have hx : (word == "extern") = false := by simpa using hx
  simp only [ofWord, keywords, List.lookup_cons, List.lookup_nil, hd, hx, Option.getD_none]

theorem Lexeme.ofWord_ne_char (word : String) (c : Char) : ofWord word ≠ .char c := by
  by_cases hd : word = "def"
  · rw [hd, ofWord_define]
    simp
  · by_cases hx : word = "extern"
    · rw [hx, ofWord_external]
      simp
    · rw [ofWord_of_ne hd hx]
      simp

/-! ## Character classes -/

theorem char_le_iff (c d : Char) : c ≤ d ↔ c.toNat ≤ d.toNat := Iff.rfl

theorem isLetter_iff (c : Char) :
    isLetter c = true ↔ 97 ≤ c.toNat ∧ c.toNat ≤ 122 ∨ 65 ≤ c.toNat ∧ c.toNat ≤ 90 := by
  simp only [isLetter, Bool.or_eq_true, Bool.and_eq_true, decide_eq_true_eq, char_le_iff]
  rfl

theorem isAsciiDigit_iff (c : Char) :
    Text.isAsciiDigit c = true ↔ 48 ≤ c.toNat ∧ c.toNat ≤ 57 := by
  simp only [Text.isAsciiDigit, Bool.and_eq_true, decide_eq_true_eq, char_le_iff]
  rfl

theorem isNumberChar_iff (c : Char) :
    isNumberChar c = true ↔ 48 ≤ c.toNat ∧ c.toNat ≤ 57 ∨ c.toNat = 46 := by
  rw [isNumberChar, Bool.or_eq_true, isAsciiDigit_iff, decide_eq_true_eq, ← Char.toNat_inj]
  rfl

theorem isBlank_iff (c : Char) : isBlank c = true ↔ c.toNat = 32 ∨ 9 ≤ c.toNat ∧ c.toNat ≤ 13 := by
  simp only [isBlank, Bool.or_eq_true, decide_eq_true_eq, ← Char.toNat_inj, Char.reduceToNat]
  omega

theorem not_isLetter_of_isNumberChar {c : Char} (h : isNumberChar c = true) :
    isLetter c = false := by
  rw [isNumberChar_iff] at h
  rw [Bool.eq_false_iff, ne_eq, isLetter_iff]
  omega

/-! ## Gaps -/

theorem afterGap_of_isBlank {c : Char} (h : isBlank c = true) (cs : List Char) :
    afterGap (c :: cs) = afterGap cs := by
  rw [afterGap, gapLength, if_pos h, List.drop_succ_cons, afterGap]

/-- No gap starts here. -/
def NoGap (cs : List Char) : Prop := ∀ c, cs.head? = some c → isBlank c = false ∧ c ≠ '#'

theorem noGap_nil : NoGap [] := by simp [NoGap]

theorem gapLength_of_noGap {cs : List Char} (h : NoGap cs) : gapLength false cs = 0 := by
  cases cs with
  | nil => rfl
  | cons c cs =>
    obtain ⟨hb, hc⟩ := h c rfl
    rw [gapLength, if_neg (by simp [hb]), if_neg hc]

theorem afterGap_of_noGap {cs : List Char} (h : NoGap cs) : afterGap cs = cs := by
  rw [afterGap, gapLength_of_noGap h, List.drop_zero]

theorem noGap_of_isLetter_or {c : Char} (h : isLetter c = true ∨ isNumberChar c = true)
    (cs : List Char) : NoGap (c :: cs) := by
  rintro d ⟨⟩
  rw [isLetter_iff, isNumberChar_iff] at h
  constructor
  · rw [Bool.eq_false_iff, ne_eq, isBlank_iff]
    omega
  · rintro rfl
    simp only [Char.reduceToNat] at h
    omega

/-! ## Reading lexemes -/

theorem lexemesOf_nil : lexemesOf [] = [] := lexemesOf_eq_nil rfl

theorem lexemesOf_isBlank {c : Char} (h : isBlank c = true) (cs : List Char) :
    lexemesOf (c :: cs) = lexemesOf cs := lexemesOf_congr (afterGap_of_isBlank h cs)

theorem lexemesOf_of_afterGap {c : Char} {cs : List Char} (h : afterGap (c :: cs) = c :: cs) :
    lexemesOf (c :: cs) =
      (lexemeAt (c :: cs)).1 :: lexemesOf ((c :: cs).drop (lexemeAt (c :: cs)).2) := by
  rw [lexemesOf_eq_cons (by rw [h]; exact List.cons_ne_nil c cs), h]

/-- A character that is a lexeme by itself. -/
def IsSymbol (c : Char) : Prop :=
  gapLength false [c] = 0 ∧ lexemeAt [c] = (.char c, 1)

instance (c : Char) : Decidable (IsSymbol c) :=
  inferInstanceAs (Decidable (gapLength false [c] = 0 ∧ lexemeAt [c] = (.char c, 1)))

/-- The character goes into no word, numeral or gap. -/
def IsMark (c : Char) : Prop :=
  isWordChar c = false ∧ isNumberChar c = false ∧ isBlank c = false ∧ c ≠ '#'

theorem IsMark.noGap {c : Char} (h : IsMark c) (cs : List Char) : NoGap (c :: cs) := by
  rintro d ⟨⟩
  exact h.2.2

theorem lexemeAt_mark {c : Char} (h : IsMark c) (cs : List Char) :
    lexemeAt (c :: cs) = (.char c, 1) := by
  obtain ⟨hword, hnumber, -, -⟩ := h
  have hletter : isLetter c = false := by
    rw [isWordChar, Bool.or_eq_false_iff] at hword
    exact hword.1
  simp only [lexemeAt, hletter, hnumber, Bool.false_eq_true, if_false]

theorem isWordChar_of_not_isNumberChar {c : Char} (h : isNumberChar c = false) :
    isWordChar c = isLetter c := by
  have hdigit : Text.isAsciiDigit c = false := by
    rw [isNumberChar, Bool.or_eq_false_iff] at h
    exact h.1
  rw [isWordChar, hdigit, Bool.or_false]

/-- What a symbol is depends on its first character alone. -/
theorem IsSymbol.isMark {c : Char} (h : IsSymbol c) : IsMark c := by
  obtain ⟨hgap, hlexeme⟩ := h
  have hblank : isBlank c = false ∧ c ≠ '#' := by
    simp only [gapLength] at hgap
    split at hgap
    · simp at hgap
    · next hb =>
      split at hgap
      · simp at hgap
      · next hc => exact ⟨by simpa using hb, hc⟩
  simp only [lexemeAt] at hlexeme
  split at hlexeme
  · exact absurd (congrArg Prod.fst hlexeme) (Lexeme.ofWord_ne_char _ c)
  · next hl =>
    split at hlexeme
    · simp at hlexeme
    · next hn =>
      have hn : isNumberChar c = false := by simpa using hn
      refine ⟨?_, hn, hblank⟩
      rw [isWordChar_of_not_isNumberChar hn]
      simpa using hl

theorem lexemesOf_symbol {c : Char} (h : IsSymbol c) (cs : List Char) :
    lexemesOf (c :: cs) = .char c :: lexemesOf cs := by
  have hmark := h.isMark
  rw [lexemesOf_of_afterGap (afterGap_of_noGap (hmark.noGap cs)), lexemeAt_mark hmark]
  rfl

/-- What follows could not go on with a word or a number. -/
def Apart (cs : List Char) : Prop :=
  ∀ c, cs.head? = some c → isWordChar c = false ∧ isNumberChar c = false

theorem takeWhile_append_of_head {p : Char → Bool} {cs rest : List Char} (h : ∀ c ∈ cs, p c = true)
    (hr : ∀ c, rest.head? = some c → p c = false) : (cs ++ rest).takeWhile p = cs := by
  rw [List.takeWhile_append_of_pos h]
  cases rest with
  | nil => exact List.append_nil cs
  | cons c rest =>
    rw [List.takeWhile_cons_of_neg (by simp [hr c rfl]), List.append_nil]

/-- What is left by a class of characters does not start in that class. -/
theorem eq_false_of_head?_dropWhile {p : Char → Bool} {cs : List Char} {c : Char}
    (h : (cs.dropWhile p).head? = some c) : p c = false := by
  have hnot := List.head?_dropWhile_not p cs
  rw [h] at hnot
  simpa using hnot

theorem dropWhile_append_of_head {p : Char → Bool} {cs rest : List Char} (h : ∀ c ∈ cs, p c = true)
    (hr : ∀ c, rest.head? = some c → p c = false) : (cs ++ rest).dropWhile p = rest := by
  rw [List.dropWhile_append_of_pos h]
  cases rest with
  | nil => rfl
  | cons c rest => rw [List.dropWhile_cons_of_neg (by simp [hr c rfl])]

theorem lexemeAt_word {c : Char} {cs rest : List Char} (hc : isLetter c = true)
    (hcs : ∀ d ∈ cs, isWordChar d = true) (hr : ∀ d, rest.head? = some d → isWordChar d = false) :
    lexemeAt (c :: cs ++ rest) = (.ofWord (String.ofList (c :: cs)), (c :: cs).length) := by
  have htake := takeWhile_append_of_head hcs hr
  simp only [List.cons_append, lexemeAt, if_pos hc, htake]

theorem lexemeAt_number {c : Char} {cs rest : List Char}
    (hcs : ∀ d ∈ c :: cs, isNumberChar d = true)
    (hr : ∀ d, rest.head? = some d → isNumberChar d = false) :
    lexemeAt (c :: cs ++ rest) = (.number (Numeral.value (c :: cs)), (c :: cs).length) := by
  obtain ⟨hc, hcs⟩ := List.forall_mem_cons.mp hcs
  have htake := takeWhile_append_of_head hcs hr
  have hletter := not_isLetter_of_isNumberChar hc
  simp only [List.cons_append, lexemeAt, hletter, hc, htake, if_true, Bool.false_eq_true, if_false]

theorem lexemesOf_word {c : Char} {cs rest : List Char} (hc : isLetter c = true)
    (hcs : ∀ d ∈ cs, isWordChar d = true) (hr : Apart rest) :
    lexemesOf (c :: cs ++ rest) = .ofWord (String.ofList (c :: cs)) :: lexemesOf rest := by
  have hat := lexemeAt_word hc hcs fun d hd => (hr d hd).1
  rw [List.cons_append] at hat ⊢
  rw [lexemesOf_of_afterGap (afterGap_of_noGap (noGap_of_isLetter_or (.inl hc) _)), hat,
    ← List.cons_append, List.drop_left]

theorem lexemesOf_number {c : Char} {cs rest : List Char}
    (hcs : ∀ d ∈ c :: cs, isNumberChar d = true) (hr : Apart rest) :
    lexemesOf (c :: cs ++ rest) = .number (Numeral.value (c :: cs)) :: lexemesOf rest := by
  have hat := lexemeAt_number hcs fun d hd => (hr d hd).2
  have hc := hcs c List.mem_cons_self
  rw [List.cons_append] at hat ⊢
  rw [lexemesOf_of_afterGap (afterGap_of_noGap (noGap_of_isLetter_or (.inr hc) _)), hat,
    ← List.cons_append, List.drop_left]

end ExprFront
