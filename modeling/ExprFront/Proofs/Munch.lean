import Mathlib.Data.List.TakeWhile
import ExprFront.Proofs.Lexing

/-!
# Maximal munch

There is one way to cut a source into lexemes with gaps between them, if every lexeme and every
comment goes on as far as it can. Gaps and lexemes are then as long as the scanner takes them to be.
-/

namespace ExprFront
set_option autoImplicit false

/-! ## Gaps -/

/-- The text is a gap in front of `rest`: blanks, and comments that go up to the end of their line or
of the source. -/
inductive IsGap (rest : List Char) : List Char → Prop
  | nil : IsGap rest []
  | blank {c : Char} {g : List Char} (hc : isBlank c = true) (hg : IsGap rest g) :
      IsGap rest (c :: g)
  | comment {body g : List Char} (hbody : ∀ c ∈ body, endsComment c = false)
      (hend : ∀ c, (g ++ rest).head? = some c → endsComment c = true) (hg : IsGap rest g) :
      IsGap rest ('#' :: (body ++ g))

theorem isBlank_of_endsComment {c : Char} (h : endsComment c = true) : isBlank c = true := by
  simp only [endsComment, Bool.or_eq_true, decide_eq_true_eq] at h
  obtain rfl | rfl := h <;> decide

theorem gapLength_comment {body cs : List Char} (hbody : ∀ c ∈ body, endsComment c = false)
    (hend : ∀ c, cs.head? = some c → endsComment c = true) :
    gapLength true (body ++ cs) = body.length + gapLength false cs := by
  induction body with
  | nil =>
    cases cs with
    | nil => rfl
    | cons c cs =>
      have hc := hend c rfl
      simp only [List.nil_append, List.length_nil, gapLength, hc, isBlank_of_endsComment hc,
        Bool.not_true, if_true, Nat.zero_add]
  | cons b body ih =>
    obtain ⟨hb, hbody⟩ := List.forall_mem_cons.mp hbody
    have hih := ih hbody
    simp only [List.cons_append, gapLength, hb, Bool.not_false, hih, List.length_cons]
    omega

/-- A gap ends where no other one starts. -/
theorem IsGap.gapLength_eq {g rest : List Char} (hg : IsGap rest g) (hr : NoGap rest) :
    gapLength false (g ++ rest) = g.length := by
  induction hg with
  | nil => exact gapLength_of_noGap hr
  | blank hc hg ih =>
    rw [List.cons_append, gapLength, if_pos hc, ih]
    rfl
  | @comment body g hbody hend hg ih =>
    have hcomment := gapLength_comment hbody hend
    have hblank : isBlank '#' = false := by decide
    rw [List.cons_append, List.append_assoc, gapLength, if_neg (by simp [hblank]), if_pos rfl,
      hcomment, ih, List.length_cons, List.length_append]

theorem exists_isGap (cs : List Char) :
    (∃ g rest, cs = g ++ rest ∧ IsGap rest g ∧ NoGap rest) ∧
      ∃ body g rest, cs = body ++ (g ++ rest) ∧ (∀ c ∈ body, endsComment c = false) ∧
        (∀ c, (g ++ rest).head? = some c → endsComment c = true) ∧ IsGap rest g ∧ NoGap rest := by
  -- Outside and inside a comment together, since a gap goes from one to the other.
  induction cs with
  | nil =>
    exact ⟨⟨[], [], rfl, .nil, noGap_nil⟩, [], [], [], rfl, by simp, by simp, .nil, noGap_nil⟩
  | cons c cs ih =>
    obtain ⟨⟨g, rest, hcs, hg, hr⟩, body, g', rest', hcs', hbody, hend, hg', hr'⟩ := ih
    constructor
    · by_cases hb : isBlank c = true
      · exact ⟨c :: g, rest, by rw [hcs]; rfl, .blank hb hg, hr⟩
      · by_cases hc : c = '#'
        · subst hc
          exact ⟨'#' :: (body ++ g'), rest', by simp [hcs'], .comment hbody hend hg', hr'⟩
        · refine ⟨[], c :: cs, rfl, .nil, ?_⟩
          rintro d ⟨⟩
          exact ⟨by simpa using hb, hc⟩
    · cases he : endsComment c with
      | true =>
        refine ⟨[], c :: g, rest, by rw [hcs]; rfl, by simp, ?_,
          .blank (isBlank_of_endsComment he) hg, hr⟩
        rintro d ⟨⟩
        exact he
      | false =>
        exact ⟨c :: body, g', rest', by rw [hcs']; rfl, List.forall_mem_cons.mpr ⟨he, hbody⟩, hend,
          hg', hr'⟩

/-! ## Lexemes -/

def IsWord (l : List Char) : Prop :=
  ∃ c cs, l = c :: cs ∧ isLetter c = true ∧ ∀ d ∈ cs, isWordChar d = true

def IsNumeral (l : List Char) : Prop := l ≠ [] ∧ ∀ c ∈ l, isNumberChar c = true

/-- The text is a lexeme in front of `rest`, which cannot go on with it. -/
inductive IsLexeme (rest : List Char) : List Char → Prop
  | word {l : List Char} (hl : IsWord l)
      (hr : ∀ c, rest.head? = some c → isWordChar c = false) : IsLexeme rest l
  | numeral {l : List Char} (hl : IsNumeral l)
      (hr : ∀ c, rest.head? = some c → isNumberChar c = false) : IsLexeme rest l
  | mark {c : Char} (hc : IsMark c) : IsLexeme rest [c]

section Lexemes
variable {l rest : List Char}

theorem IsLexeme.ne_nil (h : IsLexeme rest l) : l ≠ [] := by
  cases h with
  | word hl hr =>
    obtain ⟨c, cs, rfl, -, -⟩ := hl
    exact List.cons_ne_nil c cs
  | numeral hl hr => exact hl.1
  | mark hc => exact List.cons_ne_nil _ _

theorem IsLexeme.noGap (h : IsLexeme rest l) : NoGap (l ++ rest) := by
  cases h with
  | word hl hr =>
    obtain ⟨c, cs, rfl, hc, -⟩ := hl
    exact noGap_of_isLetter_or (.inl hc) _
  | numeral hl hr =>
    obtain ⟨c, cs, rfl⟩ := List.exists_cons_of_ne_nil hl.1
    exact noGap_of_isLetter_or (.inr (hl.2 c List.mem_cons_self)) _
  | mark hc => exact hc.noGap rest

theorem IsLexeme.length_eq (h : IsLexeme rest l) : (lexemeAt (l ++ rest)).2 = l.length := by
  cases h with
  | word hl hr =>
    obtain ⟨c, cs, rfl, hc, hcs⟩ := hl
    rw [lexemeAt_word hc hcs hr]
  | numeral hl hr =>
    obtain ⟨c, cs, rfl⟩ := List.exists_cons_of_ne_nil hl.1
    rw [lexemeAt_number hl.2 hr]
  | mark hc =>
    rw [List.singleton_append, lexemeAt_mark hc]
    rfl

end Lexemes

theorem exists_isLexeme {cs : List Char} (hcs : cs ≠ []) (h : NoGap cs) :
    ∃ l rest, cs = l ++ rest ∧ IsLexeme rest l := by
  obtain ⟨c, cs, rfl⟩ := List.exists_cons_of_ne_nil hcs
  have hdrop : ∀ (p : Char → Bool) d, (cs.dropWhile p).head? = some d → p d = false :=
    fun p d hd => eq_false_of_head?_dropWhile hd
  have htake : ∀ (p : Char → Bool), ∀ d ∈ cs.takeWhile p, p d = true :=
    fun p d hd => List.mem_takeWhile_imp hd
  cases hl : isLetter c with
  | true =>
    refine ⟨c :: cs.takeWhile isWordChar, cs.dropWhile isWordChar, ?_, .word ?_ (hdrop _)⟩
    · rw [List.cons_append, List.takeWhile_append_dropWhile]
    · exact ⟨c, _, rfl, hl, htake _⟩
  | false =>
    cases hn : isNumberChar c with
    | true =>
      refine ⟨c :: cs.takeWhile isNumberChar, cs.dropWhile isNumberChar, ?_, .numeral ?_ (hdrop _)⟩
      · rw [List.cons_append, List.takeWhile_append_dropWhile]
      · exact ⟨List.cons_ne_nil _ _, List.forall_mem_cons.mpr ⟨hn, htake _⟩⟩
    | false =>
      have hword := isWordChar_of_not_isNumberChar hn
      exact ⟨[c], cs, rfl, .mark ⟨hword.trans hl, hn, h c rfl⟩⟩

/-! ## Cutting a source -/

/-- A lexeme with the gap in front of it. -/
structure Chunk where
  gap : List Char
  lexeme : List Char

/-- The source consists of the chunks and a gap at the end. -/
inductive Munches : List Char → List Chunk → List Char → Prop
  | last {g : List Char} (hg : IsGap [] g) : Munches g [] g
  | chunk {g l rest last : List Char} {ks : List Chunk} (hg : IsGap (l ++ rest) g)
      (hl : IsLexeme rest l) (h : Munches rest ks last) :
      Munches (g ++ (l ++ rest)) (⟨g, l⟩ :: ks) last

theorem exists_munches (source : List Char) : ∃ ks last, Munches source ks last := by
  induction hn : source.length using Nat.strongRecOn generalizing source with
  | ind n ih =>
    obtain ⟨g, cs, rfl, hg, hcs⟩ := (exists_isGap source).1
    by_cases hnil : cs = []
    · subst hnil
      rw [List.append_nil]
      exact ⟨[], g, .last hg⟩
    · obtain ⟨l, rest, rfl, hl⟩ := exists_isLexeme hnil hcs
      have hpos := List.length_pos_iff.mpr hl.ne_nil
      have hlt : rest.length < n := by
        rw [← hn, List.length_append, List.length_append]
        omega
      obtain ⟨ks, last, h⟩ := ih rest.length hlt rest rfl
      exact ⟨⟨g, l⟩ :: ks, last, .chunk hg hl h⟩

/-- There is no other cut, since the text alone tells how long its first gap and lexeme are. -/
theorem Munches.unique {source last last' : List Char} {ks ks' : List Chunk}
    (h : Munches source ks last) (h' : Munches source ks' last') : ks' = ks ∧ last' = last := by
  induction h generalizing ks' last' with
  | @last g hg =>
    generalize hsource : g = source at h'
    cases h' with
    | last hg' =>
      subst hsource
      exact ⟨rfl, rfl⟩
    | @chunk g' l rest _ _ hg' hl h' =>
      have hlength := hg.gapLength_eq noGap_nil
      have hlength' := hg'.gapLength_eq hl.noGap
      have hpos := List.length_pos_iff.mpr hl.ne_nil
      rw [List.append_nil, hsource, hlength', List.length_append, List.length_append] at hlength
      omega
  | @chunk g l rest last ks hg hl h ih =>
    have hlength := hg.gapLength_eq hl.noGap
    generalize hsource : g ++ (l ++ rest) = source at h'
    cases h' with
    | last hg' =>
      have hlength' := hg'.gapLength_eq noGap_nil
      have hpos := List.length_pos_iff.mpr hl.ne_nil
      rw [List.append_nil, ← hsource, hlength, List.length_append, List.length_append] at hlength'
      omega
    | @chunk g' l' rest' _ _ hg' hl' h' =>
      have hlength' := hg'.gapLength_eq hl'.noGap
      rw [← hsource, hlength] at hlength'
      obtain ⟨rfl, hlexemes⟩ := List.append_inj hsource hlength'
      have hlexeme := hl'.length_eq
      rw [← hlexemes, hl.length_eq] at hlexeme
      obtain ⟨rfl, rfl⟩ := List.append_inj hlexemes hlexeme
      obtain ⟨rfl, rfl⟩ := ih h'
      exact ⟨rfl, rfl⟩

end ExprFront
