import ExprFront.Json.Reading
import ExprFront.Proofs.Lexing

/-!
# Number texts as JSON literals

The shortest decimal of a finite number has digits without a zero in front. So the number is written
as a numeral of JSON, in each layout, and what is not finite as a word that is no numeral.
-/

namespace ExprFront
set_option autoImplicit false

namespace Decimal

/-! ## Digits -/

/-- Digits that start with one other than zero. -/
structure LeadingDigits (ds : List Char) : Prop where
  digits : ∀ c ∈ ds, Text.isAsciiDigit c = true
  head : ∃ c cs, ds = c :: cs ∧ c ≠ '0'

theorem isAsciiDigit_of_mem_digitsOf {n : Nat} : ∀ c ∈ digitsOf n, Text.isAsciiDigit c = true :=
  fun _ hc => Nat.isDigit_of_mem_toDigits (by decide) (by decide) hc

theorem leadingDigits_digitsOf {n : Nat} (h : 0 < n) : LeadingDigits (digitsOf n) := by
  refine ⟨isAsciiDigit_of_mem_digitsOf, ?_⟩
  induction n using Nat.strongRecOn with
  | ind n ih =>
    by_cases hlt : n < 10
    · have hne : ∀ k < 10, 0 < k → Nat.digitChar k ≠ '0' := by decide
      exact ⟨Nat.digitChar n, [], Nat.toDigits_of_lt_base hlt, hne n hlt h⟩
    · obtain ⟨c, cs, hcs, hc⟩ := ih (n / 10) (by omega) (by omega)
      refine ⟨c, cs ++ [Nat.digitChar (n % 10)], ?_, hc⟩
      rw [digitsOf, Nat.toDigits_of_base_le (by decide) (by omega)]
      exact congrArg (· ++ _) hcs

/-- The first digit may have others behind it. -/
theorem LeadingDigits.follow {c : Char} {cs ds : List Char} (h : LeadingDigits (c :: cs))
    (hds : ∀ d ∈ ds, Text.isAsciiDigit d = true) : LeadingDigits (c :: ds) := by
  obtain ⟨hdigits, _, _, ⟨rfl, rfl⟩, hc⟩ := h
  exact ⟨List.forall_mem_cons.mpr ⟨hdigits c List.mem_cons_self, hds⟩, c, ds, rfl, hc⟩

/-- Zeros at the end may be left out, since the first digit is none of them. -/
theorem LeadingDigits.dropZeros {ds : List Char} (h : LeadingDigits ds) :
    LeadingDigits (ds.reverse.dropWhile (· == '0')).reverse := by
  obtain ⟨hdigits, c, cs, rfl, hc⟩ := h
  have hlast : (c :: cs).reverse.dropWhile (· == '0') =
      cs.reverse.dropWhile (· == '0') ++ [c] := by
    rw [List.reverse_cons, List.dropWhile_append]
    split
    · next hempty =>
      rw [List.isEmpty_iff.mp hempty, List.dropWhile_cons_of_neg (by simpa using hc)]
      rfl
    · rfl
  refine ⟨fun d hd => hdigits d ?_, c, _, by rw [hlast, List.reverse_append]; rfl, hc⟩
  exact List.mem_reverse.mp ((List.dropWhile_sublist _).subset (List.mem_reverse.mp hd))

/-! ## The shortest decimal -/

/-- Up to its leading place a positive quotient has a whole part. -/
theorem scale_le {num den : Nat} (place : Int) (hn : 0 < num) (hd : 0 < den)
    (h : place ≤ leadingPlace num den) :
    0 < (scale place num den).2 ∧ (scale place num den).2 ≤ (scale place num den).1 := by
  have hlength : ∀ m k, 0 < k → ((digitsOf m).length ≤ k ↔ m < tenPower k) :=
    fun m k hk => Nat.length_toDigits_le_iff (by decide) hk
  unfold leadingPlace at h
  unfold scale
  split at h
  · next hle =>
    have hwhole : 0 < num / den := Nat.div_pos hle hd
    split
    · refine ⟨Nat.mul_pos hd (tenPower_pos _), ?_⟩
      rw [Nat.mul_comm, ← Nat.le_div_iff_mul_le hd]
      by_cases hzero : place.toNat = 0
      · rw [hzero]
        exact hwhole
      · exact Nat.le_of_not_lt (mt (hlength (num / den) _ (by omega)).mpr (by omega))
    · exact ⟨hd, Nat.le_trans hle (Nat.le_mul_of_pos_right _ (tenPower_pos _))⟩
  · next hlt =>
    have hlen : 0 < (digitsOf ((den - 1) / num)).length := Nat.length_toDigits_pos
    rw [if_neg (by omega)]
    refine ⟨hd, ?_⟩
    have hshort : (den - 1) / num < tenPower (-place).toNat :=
      (hlength _ _ (by omega)).mp (by omega)
    have hmul := (Nat.div_lt_iff_lt_mul hn).mp hshort
    rw [Nat.mul_comm] at hmul
    show den ≤ num * _
    omega

theorem unitsOf_pos {rank : Nat} (h : 0 < rank) : 0 < Binary64.unitsOf rank := by
  unfold Binary64.unitsOf
  dsimp only
  split
  · next hzero =>
    have hdiv := Nat.div_add_mod rank Binary64.fractionSpan
    rw [hzero] at hdiv
    omega
  · rw [Nat.shiftLeft_eq]
    exact Nat.mul_pos (Nat.add_pos_left (by decide) _) (Nat.pow_pos (by decide))

section
variable {rank digits : Nat}

theorem div_scale_pos (hr : 0 < rank) (hd : 0 < digits) :
    let q := scale (lastPlace digits (Binary64.unitsOf rank) Binary64.unitsInOne)
      (Binary64.unitsOf rank) Binary64.unitsInOne
    0 < q.1 / q.2 := by
  have hscale := scale_le (lastPlace digits (Binary64.unitsOf rank) Binary64.unitsInOne)
    (unitsOf_pos hr) Binary64.unitsInOne_pos (by unfold lastPlace; omega)
  exact Nat.div_pos hscale.2 hscale.1

theorem coefficient_significant_pos (hr : 0 < rank) (hd : 0 < digits) :
    0 < (significant digits (Binary64.unitsOf rank) Binary64.unitsInOne).coefficient :=
  Nat.lt_of_lt_of_le (div_scale_pos hr hd) (le_roundHalfEven _ _)

theorem coefficient_neighbour?_pos {x : Decimal} (hr : 0 < rank) (hd : 0 < digits)
    (h : neighbour? rank digits = some x) : 0 < x.coefficient := by
  have hpos := div_scale_pos hr hd
  unfold neighbour? at h
  dsimp only at h hpos
  split at h
  · obtain rfl := Option.some.inj h
    exact Nat.lt_of_lt_of_le hpos (le_roundHalfEven _ _)
  · obtain rfl := Option.some.inj h
    exact hpos
  · obtain rfl := Option.some.inj h
    exact Nat.succ_pos _
  · simp at h

end

theorem leadingDigits_shortest {rank : Nat} (h : 0 < rank) :
    LeadingDigits (shortest rank).digits := by
  have hpos : 0 < (shortest rank).coefficient := by
    unfold shortest
    cases hfound : (List.range 17).findSome? fun k => neighbour? rank (k + 1) with
    | none => exact coefficient_significant_pos h (by decide)
    | some x =>
      obtain ⟨k, -, hk⟩ := List.exists_of_findSome?_eq_some hfound
      exact coefficient_neighbour?_pos h (Nat.succ_pos k) hk
  exact (leadingDigits_digitsOf hpos).dropZeros

end Decimal

/-! ## Numerals -/

namespace JsonTree
open Decimal

theorem isDigits_iff (cs : List Char) :
    isDigits cs = true ↔ cs ≠ [] ∧ ∀ c ∈ cs, Text.isAsciiDigit c = true := by
  simp only [isDigits, Bool.and_eq_true, Bool.not_eq_true', List.isEmpty_eq_false_iff,
    List.all_eq_true]

theorem isExponent_sign {c : Char} (hc : c = '-' ∨ c = '+') {ds : List Char}
    (h : isDigits ds = true) : isExponent ('e' :: c :: ds) = true := by
  have hsign : (decide (c = '-') || decide (c = '+')) = true := by simpa using hc
  simp only [isExponent, decide_true, Bool.true_or, Bool.true_and, hsign, if_true, h]

theorem isFraction_exponent {c : Char} (hc : c ≠ '.') (cs : List Char) :
    isFraction (c :: cs) = isExponent (c :: cs) := if_neg hc

theorem isFraction_point {ds rest : List Char} (h : isDigits ds = true)
    (hr : ∀ c, rest.head? = some c → Text.isAsciiDigit c = false) :
    isFraction ('.' :: (ds ++ rest)) = isExponent rest := by
  have hdigits := ((isDigits_iff ds).mp h).2
  rw [isFraction, if_pos rfl, takeWhile_append_of_head hdigits hr,
    dropWhile_append_of_head hdigits hr, h, Bool.true_and]

theorem head_not_digit {c : Char} (h : Text.isAsciiDigit c = false) (rest : List Char) :
    ∀ d, (c :: rest).head? = some d → Text.isAsciiDigit d = false := by
  rintro d ⟨⟩
  exact h

/-- Digits, behind which there is none. -/
theorem isMagnitude_append {whole rest : List Char} (h : isDigits whole = true)
    (hzero : whole = ['0'] ∨ whole.head? ≠ some '0')
    (hr : ∀ c, rest.head? = some c → Text.isAsciiDigit c = false) (hf : isFraction rest = true) :
    isMagnitude (whole ++ rest) = true := by
  have hdigits := ((isDigits_iff whole).mp h).2
  have hzero : (decide (whole = ['0']) || decide (whole.head? ≠ some '0')) = true := by
    simpa using hzero
  simp only [isMagnitude, takeWhile_append_of_head hdigits hr, dropWhile_append_of_head hdigits hr,
    h, hzero, hf, Bool.and_self]

theorem isMagnitude_leading {ds rest : List Char} (h : LeadingDigits ds)
    (hr : ∀ c, rest.head? = some c → Text.isAsciiDigit c = false) (hf : isFraction rest = true) :
    isMagnitude (ds ++ rest) = true := by
  obtain ⟨hdigits, c, cs, rfl, hc⟩ := h
  have hwhole : isDigits (c :: cs) = true := (isDigits_iff _).mpr ⟨by simp, hdigits⟩
  exact isMagnitude_append hwhole (.inr (by simpa using hc)) hr hf

theorem isMagnitude_head {cs : List Char} (h : isMagnitude cs = true) :
    ∃ c ds, cs = c :: ds ∧ Text.isAsciiDigit c = true := by
  simp only [isMagnitude, Bool.and_eq_true] at h
  have hwhole := ((isDigits_iff _).mp h.1.1).1
  cases cs with
  | nil => simp at hwhole
  | cons c ds =>
    refine ⟨c, ds, rfl, ?_⟩
    cases hc : Text.isAsciiDigit c with
    | true => rfl
    | false => simp [hc] at hwhole

theorem isNumeral_sign {cs : List Char} (h : isMagnitude cs = true) (negative : Bool) :
    isNumeral (if negative then '-' :: cs else cs) = true := by
  cases negative with
  | true => exact h
  | false =>
    obtain ⟨c, ds, rfl, hc⟩ := isMagnitude_head h
    have hsign : c ≠ '-' := by
      rintro rfl
      exact absurd hc (by decide)
    exact (if_neg hsign).trans h

/-! ## Characters of literals -/

theorem isLiteralChar_of_isAsciiDigit {c : Char} (h : Text.isAsciiDigit c = true) :
    isLiteralChar c = true := by
  simp only [isLiteralChar, h, Bool.true_or]

theorem isLiteralChar_of_isDigits {cs : List Char} (h : isDigits cs = true) :
    ∀ c ∈ cs, isLiteralChar c = true :=
  fun c hc => isLiteralChar_of_isAsciiDigit (((isDigits_iff cs).mp h).2 c hc)

theorem isLiteralChar_of_isExponent {cs : List Char} (h : isExponent cs = true) :
    ∀ c ∈ cs, isLiteralChar c = true := by
  unfold isExponent at h
  split at h
  · simp
  · next c cs =>
    simp only [Bool.and_eq_true, Bool.or_eq_true, decide_eq_true_eq] at h
    obtain ⟨hmark, h⟩ := h
    refine List.forall_mem_cons.mpr ⟨by obtain rfl | rfl := hmark <;> decide, ?_⟩
    split at h
    · simp
    · next s ds =>
      split at h
      · next hs =>
        exact List.forall_mem_cons.mpr
          ⟨by obtain rfl | rfl := hs <;> decide, isLiteralChar_of_isDigits h⟩
      · exact isLiteralChar_of_isDigits h

/-- Digits in front, and characters of literals behind them. -/
theorem isLiteralChar_of_split {cs : List Char}
    (hd : isDigits (cs.takeWhile Text.isAsciiDigit) = true)
    (hr : ∀ c ∈ cs.dropWhile Text.isAsciiDigit, isLiteralChar c = true) :
    ∀ c ∈ cs, isLiteralChar c = true := by
  intro c hc
  have hsplit : cs.takeWhile Text.isAsciiDigit ++ cs.dropWhile Text.isAsciiDigit = cs :=
    List.takeWhile_append_dropWhile
  rw [← hsplit, List.mem_append] at hc
  exact hc.elim (isLiteralChar_of_isDigits hd c) (hr c)

theorem isLiteralChar_of_isFraction {cs : List Char} (h : isFraction cs = true) :
    ∀ c ∈ cs, isLiteralChar c = true := by
  unfold isFraction at h
  split at h
  · simp
  · split at h
    · next hc =>
      obtain ⟨hd, he⟩ := Bool.and_eq_true_iff.mp h
      exact List.forall_mem_cons.mpr
        ⟨by rw [hc]; decide, isLiteralChar_of_split hd (isLiteralChar_of_isExponent he)⟩
    · exact isLiteralChar_of_isExponent h

theorem isLiteralChar_of_isMagnitude {cs : List Char} (h : isMagnitude cs = true) :
    ∀ c ∈ cs, isLiteralChar c = true := by
  simp only [isMagnitude, Bool.and_eq_true] at h
  exact isLiteralChar_of_split h.1.1 (isLiteralChar_of_isFraction h.2)

theorem isLiteralChar_of_isNumeral {cs : List Char} (h : isNumeral cs = true) :
    ∀ c ∈ cs, isLiteralChar c = true := by
  unfold isNumeral at h
  split at h
  · simp at h
  · split at h
    · next hc =>
      exact List.forall_mem_cons.mpr ⟨by rw [hc]; decide, isLiteralChar_of_isMagnitude h⟩
    · exact isLiteralChar_of_isMagnitude h

end JsonTree

/-! ## Layouts -/

namespace NumberLayout
open Decimal JsonTree

theorem isExponent_exponentText (e : Int) : isExponent ('e' :: exponentText e) = true := by
  have hdigits : isDigits (digitsOf e.natAbs) = true :=
    (isDigits_iff _).mpr ⟨Nat.toDigits_ne_nil, isAsciiDigit_of_mem_digitsOf⟩
  have hpadded : isDigits ('0' :: digitsOf e.natAbs) = true :=
    (isDigits_iff _).mpr ⟨by simp,
      List.forall_mem_cons.mpr ⟨by decide, isAsciiDigit_of_mem_digitsOf⟩⟩
  refine isExponent_sign (by split <;> simp) ?_
  split
  · exact hpadded
  · exact hdigits

theorem isFraction_fractionText {l : NumberLayout} (hl : l.keepsPoint = true) {ds : List Char}
    (h : ∀ c ∈ ds, Text.isAsciiDigit c = true) : isFraction (l.fractionText ds) = true := by
  cases ds with
  | nil =>
    rw [fractionText, if_pos List.isEmpty_nil, if_pos hl]
    decide
  | cons c cs =>
    have hdigits : isDigits (c :: cs) = true := (isDigits_iff _).mpr ⟨by simp, h⟩
    have hfraction := isFraction_point hdigits (by simp : ∀ d, [].head? = some d → _)
    rw [List.append_nil] at hfraction
    exact hfraction

theorem head?_fractionText {l : NumberLayout} (hl : l.keepsPoint = true) (ds : List Char) :
    (l.fractionText ds).head? = some '.' := by
  cases ds with
  | nil => rw [fractionText, if_pos List.isEmpty_nil, if_pos hl, List.head?_cons]
  | cons c cs => rfl

theorem isAsciiDigit_of_mem_zeros (k : Nat) :
    ∀ c ∈ List.replicate k '0', Text.isAsciiDigit c = true := by
  intro c hc
  rw [List.eq_of_mem_replicate hc]
  decide

section
variable {c : Char} {cs : List Char}

theorem isMagnitude_scientific (h : LeadingDigits (c :: cs)) (e : Int) :
    isMagnitude ((c :: cs).take 1 ++
      (if (c :: cs).length ≤ 1 then [] else '.' :: (c :: cs).drop 1) ++
        'e' :: exponentText e) = true := by
  have hfirst : LeadingDigits [c] := h.follow (by simp)
  have hexponent := isExponent_exponentText e
  cases cs with
  | nil =>
    exact isMagnitude_leading hfirst (head_not_digit (by decide) _)
      ((isFraction_exponent (by decide) _).trans hexponent)
  | cons d cs =>
    have htail : isDigits (d :: cs) = true :=
      (isDigits_iff _).mpr ⟨by simp, (List.forall_mem_cons.mp h.digits).2⟩
    have hmark := head_not_digit (c := 'e') (by decide) (exponentText e)
    have hfraction := isFraction_point htail hmark
    show isMagnitude ([c] ++ '.' :: (d :: cs ++ 'e' :: exponentText e)) = true
    exact isMagnitude_leading hfirst (head_not_digit (by decide) _) (hfraction.trans hexponent)

theorem isMagnitude_belowOne {ds : List Char} (h : LeadingDigits ds) (k : Nat) :
    isMagnitude ('0' :: '.' :: List.replicate k '0' ++ ds) = true := by
  obtain ⟨hdigits, c, cs, rfl, -⟩ := h
  have hfraction : isDigits (List.replicate k '0' ++ c :: cs) = true :=
    (isDigits_iff _).mpr
      ⟨by simp, List.forall_mem_append.mpr ⟨isAsciiDigit_of_mem_zeros k, hdigits⟩⟩
  have hpoint := isFraction_point hfraction (by simp : ∀ d, [].head? = some d → _)
  rw [List.append_nil] at hpoint
  show isMagnitude (['0'] ++ '.' :: (List.replicate k '0' ++ c :: cs)) = true
  exact isMagnitude_append (by decide) (.inl rfl) (head_not_digit (by decide) _) hpoint

theorem isMagnitude_positional {l : NumberLayout} (hl : l.keepsPoint = true)
    (h : LeadingDigits (c :: cs)) (n k : Nat) :
    isMagnitude ((c :: cs).take (n + 1) ++ List.replicate k '0' ++
      l.fractionText ((c :: cs).drop (n + 1))) = true := by
  have hcs := (List.forall_mem_cons.mp h.digits).2
  have htake : ∀ d ∈ cs.take n, Text.isAsciiDigit d = true :=
    fun d hd => hcs d (List.mem_of_mem_take hd)
  have hdrop : ∀ d ∈ cs.drop n, Text.isAsciiDigit d = true :=
    fun d hd => hcs d (List.mem_of_mem_drop hd)
  have hwhole : LeadingDigits (c :: (cs.take n ++ List.replicate k '0')) :=
    h.follow (List.forall_mem_append.mpr ⟨htake, isAsciiDigit_of_mem_zeros k⟩)
  refine isMagnitude_leading hwhole ?_ (isFraction_fractionText hl hdrop)
  intro d hd
  rw [head?_fractionText hl] at hd
  obtain rfl := Option.some.inj hd
  decide

end

/-- In each layout the digits make a numeral without a sign. -/
theorem isMagnitude_positive {l : NumberLayout} (hl : l.keepsPoint = true) {ds : List Char}
    (h : LeadingDigits ds) (e : Int) : isMagnitude (l.positive ds e) = true := by
  obtain ⟨c, cs, rfl, -⟩ := h.head
  unfold positive
  split
  · exact isMagnitude_scientific h e
  · split
    · exact isMagnitude_belowOne h _
    · exact isMagnitude_positional hl h _ _

end NumberLayout

/-! ## Literals -/

namespace Binary64
open JsonTree

theorem chars_of_finite {x : Binary64} (hx : x.isFinite = true) (l : NumberLayout)
    (decimal : Nat → Decimal) :
    l.chars decimal x =
      let magnitude := if x.isZero then '0' :: l.fractionText [] else
        l.positive (decimal x.rank).digits (decimal x.rank).exponent
      if x.negative then '-' :: magnitude else magnitude := by
  have hrank : x.rank.val < infinityRank := of_decide_eq_true hx
  have hnan : x.isNaN = false := decide_eq_false (Nat.lt_asymm hrank)
  have hinf : x.isInfinite = false := beq_false_of_ne (Nat.ne_of_lt hrank)
  simp only [NumberLayout.chars, hnan, hinf, Bool.false_eq_true, if_false]

/-- A finite number is written as a numeral. -/
theorem isNumeral_jsonText {x : Binary64} (hx : x.isFinite = true) :
    isNumeral x.jsonText.toList = true := by
  rw [jsonText, String.toList_ofList, chars_of_finite hx]
  refine isNumeral_sign ?_ x.negative
  cases hzero : x.isZero with
  | true =>
    rw [if_pos rfl]
    decide
  | false =>
    have hpos : 0 < x.rank.val := Nat.pos_of_ne_zero (ne_of_beq_false hzero)
    rw [if_neg (by simp)]
    exact NumberLayout.isMagnitude_positive rfl (Decimal.leadingDigits_shortest hpos) _

theorem jsonText_of_finite {x : Binary64} (hx : x.isFinite = true) : x.jsonText = x.text := by
  rw [jsonText, text, chars_of_finite hx, chars_of_finite hx]
  rfl

/-- The words for the numbers that are not finite. -/
theorem jsonText_of_not_finite {x : Binary64} (hx : x.isFinite = false) :
    (x.jsonText = "NaN" ∧ x.text = "nan") ∨ (x.jsonText = "Infinity" ∧ x.text = "inf") ∨
      (x.jsonText = "-Infinity" ∧ x.text = "-inf") := by
  have hrank : ¬ x.rank.val < infinityRank := of_decide_eq_false hx
  unfold jsonText text NumberLayout.chars
  cases hnan : x.isNaN with
  | true => exact .inl ⟨rfl, rfl⟩
  | false =>
    have hle : ¬ infinityRank < x.rank.val := of_decide_eq_false hnan
    have hinf : x.isInfinite = true := beq_iff_eq.mpr (by omega)
    simp only [hinf, Bool.false_eq_true, if_false, if_true]
    cases x.negative with
    | true => exact .inr (.inr ⟨rfl, rfl⟩)
    | false => exact .inr (.inl ⟨rfl, rfl⟩)

/-- The JSON text of a number is a literal that stands for it. -/
theorem literal?_jsonText (x : Binary64) :
    literal? x.jsonText.toList = some (.number x.jsonText) := by
  cases hx : x.isFinite with
  | true => rw [literal?, if_pos (isNumeral_jsonText hx), String.ofList_toList]
  | false => obtain ⟨h, -⟩ | ⟨h, -⟩ | ⟨h, -⟩ := jsonText_of_not_finite hx <;> rw [h] <;> rfl

theorem isLiteralChar_jsonText (x : Binary64) :
    x.jsonText.toList ≠ [] ∧ ∀ c ∈ x.jsonText.toList, isLiteralChar c = true := by
  cases hx : x.isFinite with
  | true =>
    have hnumeral := isNumeral_jsonText hx
    refine ⟨?_, isLiteralChar_of_isNumeral hnumeral⟩
    intro hnil
    rw [hnil] at hnumeral
    exact absurd hnumeral (by decide)
  | false =>
    obtain ⟨h, -⟩ | ⟨h, -⟩ | ⟨h, -⟩ := jsonText_of_not_finite hx <;> rw [h] <;>
      exact ⟨by decide, List.all_eq_true.mp rfl⟩

theorem fullText_jsonText (x : Binary64) : fullText x.jsonText = x.text := by
  cases hx : x.isFinite with
  | true =>
    have hword : ∀ w : String, isNumeral w.toList = false → x.jsonText ≠ w := by
      rintro w hw rfl
      rw [isNumeral_jsonText hx] at hw
      exact absurd hw (by simp)
    rw [fullText, if_neg (hword _ (by decide)), if_neg (hword _ (by decide)),
      if_neg (hword _ (by decide)), jsonText_of_finite hx]
  | false =>
    obtain ⟨h, ht⟩ | ⟨h, ht⟩ | ⟨h, ht⟩ := jsonText_of_not_finite hx <;> rw [h, ht] <;> rfl

end Binary64

end ExprFront
