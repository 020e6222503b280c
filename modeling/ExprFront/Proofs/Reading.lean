import ExprFront.Parser.Basic

/-!
# Reading tokens

The tokens between two lookaheads, the tokens up to the end of the input, and the count that
the scanner keeps of them. A lookahead that came out of a scanner stays at the end once it is
there.
-/

namespace ExprFront
set_option autoImplicit false

/-! ## The end of the input -/

theorem Token.isEnd_of_char {t : Token} {c : Char} (h : t.lexeme = .char c) : t.isEnd = false := by
  rw [isEnd, h]
  rfl

theorem Token.lexeme_of_isEnd {t : Token} (h : t.isEnd = true) : t.lexeme = .endOfInput := by
  simpa [isEnd] using h

def afterGap (cs : List Char) : List Char := cs.drop (gapLength false cs)

namespace Scanner

/-- The text of the next lexeme and of all that follows it. -/
def lexemeText (s : Scanner) : List Char := afterGap s.reader.pending

theorem next_lexeme (s : Scanner) : s.next.1.lexeme = (lexemeAt s.lexemeText).1 := by
  simp only [next, Reader.skip_pending, lexemeText, afterGap]

theorem next_pending (s : Scanner) :
    s.next.2.reader.pending = s.lexemeText.drop (lexemeAt s.lexemeText).2 := by
  simp only [next, Reader.skip_pending, lexemeText, afterGap]

theorem next_count (s : Scanner) : s.next.2.count = s.count + 1 := rfl

theorem next_isEnd_iff (s : Scanner) : s.next.1.isEnd = true ↔ s.lexemeText = [] := by
  rw [Token.isEnd, beq_iff_eq, next_lexeme, lexemeAt_eq_end_iff]

theorem next_next_isEnd (s : Scanner) (h : s.next.1.isEnd = true) :
    s.next.2.next.1.isEnd = true := by
  have hnil : s.next.2.reader.pending = [] := by
    rw [next_pending, (next_isEnd_iff s).mp h, List.drop_nil]
  rw [next_isEnd_iff, lexemeText, hnil, afterGap, List.drop_nil]

end Scanner

namespace Lookahead

/-- Whether the lookahead is what its scanner has scanned last. -/
def Scanned (l : Lookahead) : Prop := ∃ s, l = ofScanner s

theorem Scanned.ofScanner (s : Scanner) : (ofScanner s).Scanned := ⟨s, rfl⟩

theorem Scanned.advance (l : Lookahead) : l.advance.Scanned := ⟨l.scanner, rfl⟩

theorem Scanned.advance_isEnd {l : Lookahead} (h : l.Scanned) (he : l.token.isEnd = true) :
    l.advance.token.isEnd = true := by
  obtain ⟨s, rfl⟩ := h
  exact s.next_next_isEnd he

theorem advance_count (l : Lookahead) : l.advance.scanner.count = l.scanner.count + 1 :=
  l.scanner.next_count

/-! ## Reading a list of tokens -/

/-- From the first lookahead the given tokens, none of them the end, are read up to the
second. -/
def Reads : Lookahead → List Token → Lookahead → Prop
  | l, [], m => l = m
  | l, t :: ts, m => l.token = t ∧ t.isEnd = false ∧ l.advance.Reads ts m

theorem Reads.single {l : Lookahead} (h : l.token.isEnd = false) : l.Reads [l.token] l.advance :=
  ⟨rfl, h, rfl⟩

theorem Reads.trans {l m n : Lookahead} {ts us : List Token} (h : l.Reads ts m)
    (h' : m.Reads us n) : l.Reads (ts ++ us) n := by
  induction ts generalizing l with
  | nil =>
    have e : l = m := h
    subst e
    exact h'
  | cons t ts ih =>
    obtain ⟨ht, he, hr⟩ := h
    exact ⟨ht, he, ih hr⟩

theorem Reads.count {l m : Lookahead} {ts : List Token} (h : l.Reads ts m) :
    m.scanner.count = l.scanner.count + ts.length := by
  induction ts generalizing l with
  | nil =>
    have e : l = m := h
    rw [e]
    rfl
  | cons t ts ih =>
    obtain ⟨-, -, hr⟩ := h
    rw [ih hr, advance_count, List.length_cons]
    omega

/-- Reading keeps what every advance keeps. -/
theorem Reads.keeps {P : Lookahead → Prop} (hadvance : ∀ l, P l → P l.advance) {l m : Lookahead}
    {ts : List Token} (h : l.Reads ts m) (hl : P l) : P m := by
  induction ts generalizing l with
  | nil =>
    have e : l = m := h
    rwa [← e]
  | cons t ts ih => exact ih h.2.2 (hadvance l hl)

theorem Reads.scanned {l m : Lookahead} {ts : List Token} (h : l.Reads ts m) (hl : l.Scanned) :
    m.Scanned := h.keeps (fun l _ => Scanned.advance l) hl

/-- As many tokens from the same lookahead are the same tokens. -/
theorem Reads.unique {l m n : Lookahead} {ts us : List Token} (h : l.Reads ts m)
    (h' : l.Reads us n) (hlen : ts.length = us.length) : ts = us ∧ m = n := by
  induction ts generalizing l us with
  | nil =>
    cases us with
    | nil =>
      have e : l = m := h
      have e' : l = n := h'
      exact ⟨rfl, e.symm.trans e'⟩
    | cons u us => simp at hlen
  | cons t ts ih =>
    cases us with
    | nil => simp at hlen
    | cons u us =>
      obtain ⟨ht, -, hr⟩ := h
      obtain ⟨hu, -, hr'⟩ := h'
      obtain ⟨e, e'⟩ := ih hr hr' (by simpa using hlen)
      exact ⟨by rw [← ht, ← hu, e], e'⟩

/-! ## The tokens up to the end -/

/-- The tokens from the current one to the end, which does not count. -/
def upcoming (l : Lookahead) : List Token :=
  if _h : l.token.isEnd then [] else l.token :: upcoming l.advance
termination_by l.remaining
decreasing_by exact l.advance_remaining_lt (by simpa using _h)

theorem upcoming_of_isEnd {l : Lookahead} (h : l.token.isEnd = true) : l.upcoming = [] := by
  rw [upcoming, dif_pos h]

theorem upcoming_of_not_isEnd {l : Lookahead} (h : l.token.isEnd = false) :
    l.upcoming = l.token :: l.advance.upcoming := by
  rw [upcoming, dif_neg (by simp [h])]

theorem Reads.upcoming {l m : Lookahead} {ts : List Token} (h : l.Reads ts m) :
    l.upcoming = ts ++ m.upcoming := by
  induction ts generalizing l with
  | nil =>
    have e : l = m := h
    rw [e]
    rfl
  | cons t ts ih =>
    obtain ⟨ht, he, hr⟩ := h
    rw [upcoming_of_not_isEnd (by rw [ht]; exact he), ht, ih hr]
    rfl

theorem Reads.upcoming_subset {l m : Lookahead} {ts : List Token} (h : l.Reads ts m) :
    m.upcoming ⊆ l.upcoming := by
  rw [h.upcoming]
  exact List.subset_append_right ts m.upcoming

theorem Scanned.advance_upcoming_sublist {l : Lookahead} (h : l.Scanned) :
    l.advance.upcoming.Sublist l.upcoming := by
  cases he : l.token.isEnd with
  | true =>
    rw [upcoming_of_isEnd (h.advance_isEnd he)]
    exact List.nil_sublist _
  | false =>
    rw [(Reads.single he).upcoming]
    exact List.sublist_append_right _ _

theorem reads_of_upcoming {l : Lookahead} {ts us : List Token} (h : l.upcoming = ts ++ us) :
    ∃ m, l.Reads ts m ∧ m.upcoming = us := by
  induction ts generalizing l with
  | nil => exact ⟨l, rfl, h⟩
  | cons t ts ih =>
    have he : l.token.isEnd = false := by
      cases he : l.token.isEnd with
      | false => rfl
      | true =>
        rw [upcoming_of_isEnd he] at h
        simp at h
    rw [upcoming_of_not_isEnd he, List.cons_append, List.cons.injEq] at h
    obtain ⟨ht, hr⟩ := h
    obtain ⟨m, hm, hu⟩ := ih hr
    exact ⟨m, ⟨ht, by rw [← ht]; exact he, hm⟩, hu⟩

theorem isEnd_of_upcoming_nil {l : Lookahead} (h : l.upcoming = []) : l.token.isEnd = true := by
  cases he : l.token.isEnd with
  | true => rfl
  | false =>
    rw [upcoming_of_not_isEnd he] at h
    simp at h

theorem token_of_upcoming_cons {l : Lookahead} {t : Token} {ts : List Token}
    (h : l.upcoming = t :: ts) : l.token = t := by
  have h : l.upcoming = [t] ++ ts := h
  obtain ⟨m, hm, -⟩ := reads_of_upcoming h
  exact hm.1

theorem upcoming_advance_of_cons {l : Lookahead} {t : Token} {ts : List Token}
    (h : l.upcoming = t :: ts) : l.advance.upcoming = ts := by
  have h : l.upcoming = [t] ++ ts := h
  obtain ⟨m, ⟨-, -, rfl⟩, hm⟩ := reads_of_upcoming h
  exact hm

end Lookahead

/-! ## The tokens of a source -/

namespace Scanner

def tokensBeforeEnd (s : Scanner) : List Token :=
  (s.tokens.map Prod.fst).dropLast

theorem tokens_of_isEnd {s : Scanner} (h : s.next.1.isEnd = true) : s.tokens = [s.next] := by
  rw [tokens, dif_pos h]

theorem tokens_of_not_isEnd {s : Scanner} (h : ¬ s.next.1.isEnd = true) :
    s.tokens = s.next :: s.next.2.tokens := by
  rw [tokens, dif_neg h]

theorem tokens_ne_nil (s : Scanner) : s.tokens ≠ [] := by
  rw [tokens]
  split <;> simp

theorem upcoming_ofScanner (s : Scanner) : (Lookahead.ofScanner s).upcoming = s.tokensBeforeEnd := by
  fun_induction tokens s with
  | case1 s h =>
    rw [Lookahead.upcoming_of_isEnd h, tokensBeforeEnd, tokens_of_isEnd h]
    rfl
  | case2 s h ih =>
    have hne : s.next.2.tokens.map Prod.fst ≠ [] := by simpa using tokens_ne_nil s.next.2
    have he : (Lookahead.ofScanner s).token.isEnd = false := by
      rw [Bool.eq_false_iff]
      exact h
    rw [Lookahead.upcoming_of_not_isEnd he, tokensBeforeEnd, tokens_of_not_isEnd h, List.map_cons,
      List.dropLast_cons_of_ne_nil hne]
    exact congrArg (s.next.1 :: ·) ih

end Scanner

end ExprFront
