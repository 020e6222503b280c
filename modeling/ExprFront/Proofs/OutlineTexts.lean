import ExprFront.Proofs.NumberTexts
import ExprFront.Proofs.Quoting
import ExprFront.Tree.OutlinePrinter

/-!
# Texts of outlines

Lines are told apart by line feeds and parameters by commas, since neither stands in an identifier
or in the text of a number. A line tells its level by the blanks in front of it.
-/

namespace ExprFront
set_option autoImplicit false

/-! ## Separated texts -/

theorem append_cons_inj {α : Type} {c : α} {xs ys us vs : List α} (hx : c ∉ xs) (hy : c ∉ ys)
    (h : xs ++ c :: us = ys ++ c :: vs) : xs = ys ∧ us = vs := by
  induction xs generalizing ys with
  | nil =>
    cases ys with
    | nil => exact ⟨rfl, (List.cons.inj h).2⟩
    | cons y ys => exact absurd ((List.cons.inj h).1 ▸ List.mem_cons_self) hy
  | cons x xs ih =>
    cases ys with
    | nil => exact absurd ((List.cons.inj h).1 ▸ List.mem_cons_self) hx
    | cons y ys =>
      obtain ⟨rfl, htail⟩ := List.cons.inj h
      obtain ⟨rfl, hrest⟩ :=
        ih (List.not_mem_of_not_mem_cons hx) (List.not_mem_of_not_mem_cons hy) htail
      exact ⟨rfl, hrest⟩

section Intercalate
variable {α : Type} {c : α} {cs : List α} {xs ys : List (List α)}

theorem notMem_intercalate (hsep : c ∉ cs) (hxs : ∀ x ∈ xs, c ∉ x) : c ∉ cs.intercalate xs := by
  induction xs with
  | nil => simp
  | cons x xs ih =>
    obtain ⟨hx, hxs⟩ := List.forall_mem_cons.mp hxs
    cases xs with
    | nil => rwa [List.intercalate_singleton]
    | cons y ys =>
      rw [List.intercalate_cons_cons, List.mem_append, List.mem_append, not_or, not_or]
      exact ⟨⟨hx, hsep⟩, ih hxs⟩

theorem intercalate_ne_nil {x : List α} (hx : x ≠ []) (xs : List (List α)) :
    cs.intercalate (x :: xs) ≠ [] := by
  cases xs with
  | nil => rwa [List.intercalate_singleton]
  | cons y ys =>
    rw [List.intercalate_cons_cons, List.append_assoc]
    exact List.append_ne_nil_of_left_ne_nil hx _

/-- Texts are told apart by a separator that starts with a character of none of them. -/
theorem intercalate_inj (hxs : ∀ x ∈ xs, c ∉ x) (hys : ∀ y ∈ ys, c ∉ y) (hnil : xs = [] ↔ ys = [])
    (h : (c :: cs).intercalate xs = (c :: cs).intercalate ys) : xs = ys := by
  induction xs generalizing ys with
  | nil => exact (hnil.mp rfl).symm
  | cons x xs ih =>
    obtain _ | ⟨y, ys⟩ := ys
    · exact absurd (hnil.mpr rfl) (List.cons_ne_nil x xs)
    rw [List.forall_mem_cons] at hxs hys
    cases xs with
    | nil =>
      cases ys with
      | nil => simpa using h
      | cons y' ys =>
        rw [List.intercalate_singleton, List.intercalate_cons_cons] at h
        exact absurd (by simp [h]) hxs.1
    | cons x' xs =>
      cases ys with
      | nil =>
        rw [List.intercalate_singleton, List.intercalate_cons_cons] at h
        exact absurd (by simp [← h]) hys.1
      | cons y' ys =>
        simp only [List.intercalate_cons_cons, List.append_assoc, List.cons_append] at h
        obtain ⟨rfl, hrest⟩ := append_cons_inj hxs.1 hys.1 h
        have htail : x' :: xs = y' :: ys :=
          ih hxs.2 hys.2 (by simp) (List.append_cancel_left hrest)
        rw [htail]

end Intercalate

/-! ## Names -/

/-- An identifier: a letter or an underscore, and then letters, digits and underscores. -/
def IsAsciiName (name : String) : Prop :=
  ∃ c cs, name.toList = c :: cs ∧ (isLetter c ∨ c = '_') ∧ ∀ d ∈ cs, isWordChar d ∨ d = '_'

theorem IsAsciiName.ne_nil {name : String} (h : IsAsciiName name) : name.toList ≠ [] := by
  obtain ⟨c, cs, hname, -⟩ := h
  rw [hname]
  exact List.cons_ne_nil c cs

theorem IsAsciiName.notMem {name : String} (h : IsAsciiName name) {c : Char}
    (hc : isWordChar c = false) (hne : c ≠ '_') : c ∉ name.toList := by
  obtain ⟨d, ds, hname, hd, hds⟩ := h
  have hletter : isLetter c = false := (Bool.or_eq_false_iff.mp hc).1
  rw [hname, List.mem_cons, not_or]
  refine ⟨?_, fun hmem => ?_⟩
  · rintro rfl
    simp [hletter, hne] at hd
  · simpa [hc, hne] using hds c hmem

namespace Prototype

/-- The names of a signature are identifiers. -/
def HasAsciiNames (p : Prototype) : Prop :=
  IsAsciiName p.name ∧ ∀ q ∈ p.params, IsAsciiName q

theorem HasAsciiNames.notMem_params {p : Prototype} (h : p.HasAsciiNames) {c : Char}
    (hc : isWordChar c = false) (hne : c ≠ '_') : ∀ x ∈ p.params.map String.toList, c ∉ x := by
  intro x hx
  obtain ⟨q, hq, rfl⟩ := List.mem_map.mp hx
  exact (h.2 q hq).notMem hc hne

theorem HasAsciiNames.newline_notMem {p : Prototype} (h : p.HasAsciiNames) :
    '\n' ∉ (p.header ", ").toList := by
  have hparams : '\n' ∉ ", ".toList.intercalate (p.params.map String.toList) :=
    notMem_intercalate (by decide) (h.notMem_params rfl (by decide))
  simp only [header, String.toList_append, String.toList_intercalate, List.mem_append, not_or]
  exact ⟨⟨⟨h.1.notMem rfl (by decide), by decide⟩, hparams⟩, by decide⟩

/-- Parameters are never empty, so that none at all are told from a single one. -/
theorem HasAsciiNames.params_eq_nil {p q : Prototype} (hq : q.HasAsciiNames)
    (h : [',', ' '].intercalate (p.params.map String.toList) =
      [',', ' '].intercalate (q.params.map String.toList)) (hp : p.params = []) : q.params = [] := by
  cases hparams : q.params with
  | nil => rfl
  | cons r rs =>
    have hr : r.toList ≠ [] := (hq.2 r (hparams ▸ List.mem_cons_self)).ne_nil
    rw [hp, hparams] at h
    exact absurd h.symm (intercalate_ne_nil hr _)

/-- A signature is read back from its header. -/
theorem HasAsciiNames.header_inj {p q : Prototype} (hp : p.HasAsciiNames) (hq : q.HasAsciiNames)
    (h : p.header ", " = q.header ", ") : p.name = q.name ∧ p.params = q.params := by
  let params (r : Prototype) := [',', ' '].intercalate (r.params.map String.toList)
  have hlist : p.name.toList ++ '(' :: (params p ++ [')']) =
      q.name.toList ++ '(' :: (params q ++ [')']) := by
    have h := congrArg String.toList h
    simpa [header, params] using h
  obtain ⟨hname, hrest⟩ :=
    append_cons_inj (hp.1.notMem rfl (by decide)) (hq.1.notMem rfl (by decide)) hlist
  have htexts := List.append_cancel_right hrest
  have hnil : p.params = [] ↔ q.params = [] :=
    ⟨hq.params_eq_nil htexts, hp.params_eq_nil htexts.symm⟩
  have hparams := intercalate_inj (hp.notMem_params rfl (by decide))
    (hq.notMem_params rfl (by decide)) (by simpa using hnil) htexts
  have hinj : ∀ s t : String, s.toList = t.toList → s = t := fun _ _ => String.toList_inj.mp
  exact ⟨hinj _ _ hname, (List.map_inj_right hinj).mp hparams⟩

end Prototype

/-! ## Brief numbers -/

theorem newline_ne_of_isAsciiDigit {ds : List Char} (h : ∀ c ∈ ds, Text.isAsciiDigit c = true) :
    '\n' ∉ ds :=
  fun hmem => absurd (h _ hmem) (by decide)

theorem Decimal.newline_notMem_digits (x : Decimal) : '\n' ∉ x.digits := by
  refine newline_ne_of_isAsciiDigit fun c hc => ?_
  rw [digits, List.mem_reverse] at hc
  exact isAsciiDigit_of_mem_digitsOf c
    (List.mem_reverse.mp ((List.dropWhile_sublist _).subset hc))

theorem NumberLayout.newline_notMem_exponentText (e : Int) : '\n' ∉ exponentText e := by
  have hdigits : '\n' ∉ Decimal.digitsOf e.natAbs :=
    newline_ne_of_isAsciiDigit Decimal.isAsciiDigit_of_mem_digitsOf
  simp only [exponentText, List.mem_cons, not_or]
  refine ⟨by split <;> decide, ?_⟩
  split
  · simp [hdigits]
  · exact hdigits

theorem NumberLayout.newline_notMem_positive {ds : List Char} (h : '\n' ∉ ds) (e : Int) :
    '\n' ∉ brief.positive ds e := by
  have htake : ∀ k, '\n' ∉ ds.take k := fun k hk => h (List.mem_of_mem_take hk)
  have hdrop : ∀ k, '\n' ∉ ds.drop k := fun k hk => h (List.mem_of_mem_drop hk)
  have hfraction : ∀ k, '\n' ∉ brief.fractionText (ds.drop k) := by
    intro k
    unfold fractionText
    split
    · decide
    · simp [hdrop k]
  unfold positive
  split
  · have hpoint : '\n' ∉ if ds.length ≤ 1 then [] else '.' :: ds.drop 1 := by
      split
      · simp
      · simpa using hdrop 1
    simp only [List.mem_append, List.mem_cons, not_or]
    exact ⟨⟨htake 1, hpoint⟩, by decide, newline_notMem_exponentText e⟩
  · split
    · simp [h]
    · simp [htake, hfraction]

theorem Binary64.newline_notMem_briefText (x : Binary64) : '\n' ∉ x.briefText.toList := by
  rw [briefText, String.toList_ofList, NumberLayout.chars]
  split
  · decide
  · have hmagnitude : '\n' ∉
        if x.isInfinite then NumberLayout.brief.infinity.toList
        else if x.isZero then '0' :: NumberLayout.brief.fractionText []
        else NumberLayout.brief.positive
          (Decimal.significant 6 (unitsOf x.rank) unitsInOne).digits
          (Decimal.significant 6 (unitsOf x.rank) unitsInOne).exponent := by
      split
      · decide
      · split
        · decide
        · exact NumberLayout.newline_notMem_positive (Decimal.newline_notMem_digits _) _
    simp only []
    split
    · simpa using hmagnitude
    · exact hmagnitude

/-! ## Lines -/

namespace OutlineLine

/-- A line that does not start with a blank behind its indentation. -/
structure Plain (l : OutlineLine) : Prop where
  head : ∃ c cs, l.label.toList = c :: cs ∧ c ≠ ' '
  newline_notMem : '\n' ∉ l.label.toList

/-- A line is read back from its text. -/
def ofText (text : String) : OutlineLine :=
  ⟨(text.toList.takeWhile (· == ' ')).length / 2, String.ofList (text.toList.dropWhile (· == ' '))⟩

theorem Plain.ofText_text {l : OutlineLine} (h : l.Plain) : ofText l.text = l := by
  obtain ⟨c, cs, hlabel, hc⟩ := h.head
  have hc : (c == ' ') = false := by simpa using hc
  have hblanks : ∀ d ∈ List.replicate (2 * l.level) ' ', (d == ' ') = true :=
    fun d hd => by simp [List.eq_of_mem_replicate hd]
  have htext : l.text.toList = List.replicate (2 * l.level) ' ' ++ c :: cs := by
    rw [text, String.toList_append, String.toList_ofList, hlabel]
  have htake : l.text.toList.takeWhile (· == ' ') = List.replicate (2 * l.level) ' ' := by
    rw [htext, List.takeWhile_append_of_pos hblanks, List.takeWhile_cons_of_neg (by simp [hc]),
      List.append_nil]
  have hdrop : l.text.toList.dropWhile (· == ' ') = l.label.toList := by
    rw [htext, List.dropWhile_append_of_pos hblanks, List.dropWhile_cons_of_neg (by simp [hc]),
      hlabel]
  rw [ofText, htake, hdrop, List.length_replicate, Nat.mul_div_cancel_left _ (by decide),
    String.ofList_toList]

theorem Plain.newline_notMem_text {l : OutlineLine} (h : l.Plain) : '\n' ∉ l.text.toList := by
  rw [text, String.toList_append, String.toList_ofList, List.mem_append, not_or]
  exact ⟨fun hmem => absurd (List.eq_of_mem_replicate hmem) (by decide), h.newline_notMem⟩

/-- Lines are read back from their text. -/
theorem eq_of_text {ls ms : List OutlineLine} (hls : ∀ l ∈ ls, l.Plain) (hms : ∀ l ∈ ms, l.Plain)
    (hnil : ls = [] ↔ ms = [])
    (h : String.intercalate "\n" (ls.map text) = String.intercalate "\n" (ms.map text)) :
    ls = ms := by
  have hfeed : ∀ {ks : List OutlineLine}, (∀ k ∈ ks, k.Plain) →
      ∀ t ∈ (ks.map text).map String.toList, '\n' ∉ t := by
    intro ks hks t ht
    rw [List.map_map] at ht
    obtain ⟨k, hk, rfl⟩ := List.mem_map.mp ht
    exact (hks k hk).newline_notMem_text
  have hread : ∀ {ks : List OutlineLine}, (∀ k ∈ ks, k.Plain) → (ks.map text).map ofText = ks := by
    intro ks hks
    rw [List.map_map]
    exact (List.map_congr_left fun k hk => (hks k hk).ofText_text).trans (List.map_id ks)
  have hlists := congrArg String.toList h
  rw [String.toList_intercalate, String.toList_intercalate] at hlists
  have hchars := intercalate_inj (hfeed hls) (hfeed hms) (by simpa using hnil) hlists
  have htexts : ls.map text = ms.map text :=
    (List.map_inj_right fun _ _ => String.toList_inj.mp).mp hchars
  rw [← hread hls, htexts, hread hms]

end OutlineLine

end ExprFront
