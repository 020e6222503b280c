import Mathlib.Algebra.Order.Field.Rat
import Mathlib.Data.Rat.Cast.Order
import Mathlib.Tactic.FieldSimp
import Mathlib.Tactic.Linarith
import Mathlib.Tactic.NormNum
import Mathlib.Tactic.Positivity
import Mathlib.Tactic.Ring
import ExprFront.Decimal.Nearest

/-!
# Correct rounding

A quotient is rounded to the nearest of all finite numbers, of two that are equally near to the one
of even rank, and from halfway between the greatest finite number and `2 ^ 1024` on to infinity.
There is only one number of that kind.
-/

namespace ExprFront
set_option autoImplicit false

namespace Binary64

/-- The value of a finite number. -/
def toRat (x : Binary64) : ℚ :=
  let magnitude : ℚ := x.units / unitsInOne
  if x.negative then -magnitude else magnitude

/-- Halfway between the greatest finite number and `2 ^ 1024`. -/
def overflow : ℚ := 2 ^ 1024 - 2 ^ 970

/-- What the value `x`, which is not negative, is rounded to. A rank is even exactly if the
significand is. -/
inductive RoundsTo (x : ℚ) : Binary64 → Prop
  | finite {y : Binary64} (hx : x < overflow) (hpositive : y.negative = false)
      (hfinite : y.isFinite = true)
      (nearest : ∀ z : Binary64, z.isFinite = true → |x - y.toRat| ≤ |x - z.toRat|)
      (even : ∀ z : Binary64, z.isFinite = true → z.rank ≠ y.rank →
        |x - z.toRat| = |x - y.toRat| → y.rank.val % 2 = 0) : RoundsTo x y
  | infinite (hx : overflow ≤ x) : RoundsTo x (.infinity false)

/-! ## Units of a rank -/

theorem unitsInOne_eq : unitsInOne = 2 ^ 1074 := by
  unfold unitsInOne
  generalize 1074 = e
  exact Nat.one_shiftLeft e

theorem cast_unitsInOne_pos : (0 : ℚ) < unitsInOne := Nat.cast_pos.mpr unitsInOne_pos

theorem fractionSpan_eq : fractionSpan = 2 ^ 52 := rfl

theorem fractionSpan_pos : 0 < fractionSpan := by decide

/-- A significand of 53 bits scaled by `2 ^ s` units, or the power of two just above. -/
theorem unitsOf_scaled {s m : Nat} (hm : m ≤ 2 * fractionSpan) (hs : s = 0 ∨ fractionSpan ≤ m) :
    unitsOf (s * fractionSpan + m) = m * 2 ^ s := by
  have hpos := fractionSpan_pos
  have hunits : ∀ e f, f < fractionSpan → unitsOf (e * fractionSpan + f) =
      if e = 0 then f else (fractionSpan + f) * 2 ^ (e - 1) := by
    intro e f hf
    have hdiv : (e * fractionSpan + f) / fractionSpan = e := by
      rw [Nat.add_comm, Nat.add_mul_div_right _ _ hpos, Nat.div_eq_of_lt hf, Nat.zero_add]
    have hmod : (e * fractionSpan + f) % fractionSpan = f := by
      rw [Nat.add_comm, Nat.add_mul_mod_self_right, Nat.mod_eq_of_lt hf]
    rw [unitsOf, hdiv, hmod, Nat.shiftLeft_eq]
  by_cases hlow : m < fractionSpan
  · obtain rfl : s = 0 := hs.resolve_right (Nat.not_le.mpr hlow)
    rw [hunits 0 m hlow, if_pos rfl, Nat.pow_zero, Nat.mul_one]
  · by_cases hfull : m = 2 * fractionSpan
    · have hrank : s * fractionSpan + m = (s + 2) * fractionSpan + 0 := by
        rw [hfull]
        ring
      rw [hrank, hunits (s + 2) 0 hpos, if_neg (by omega), hfull,
        show s + 2 - 1 = s + 1 from rfl, Nat.pow_succ]
      ring
    · have hrank : s * fractionSpan + m = (s + 1) * fractionSpan + (m - fractionSpan) := by
        rw [Nat.add_mul]
        omega
      rw [hrank, hunits (s + 1) (m - fractionSpan) (by omega), if_neg (by omega),
        Nat.add_sub_cancel' (Nat.not_lt.mp hlow), Nat.add_sub_cancel]

theorem exists_scaled (k : Nat) : ∃ s m, k = s * fractionSpan + m ∧ m < 2 * fractionSpan ∧
    (s = 0 ∨ fractionSpan ≤ m) := by
  have hdiv := Nat.div_add_mod k fractionSpan
  have hmod := Nat.mod_lt k fractionSpan_pos
  cases hexponent : k / fractionSpan with
  | zero =>
    rw [hexponent, Nat.mul_zero, Nat.zero_add] at hdiv
    exact ⟨0, k, by simp, by omega, .inl rfl⟩
  | succ s =>
    rw [hexponent, Nat.mul_add, Nat.mul_one, Nat.mul_comm] at hdiv
    exact ⟨s, fractionSpan + k % fractionSpan, by omega, by omega, .inr (Nat.le_add_right _ _)⟩

theorem unitsOf_strictMono : StrictMono unitsOf := by
  refine strictMono_nat_of_lt_succ fun k => ?_
  obtain ⟨s, m, rfl, hm, hs⟩ := exists_scaled k
  rw [unitsOf_scaled (Nat.le_of_lt hm) hs, Nat.add_assoc,
    unitsOf_scaled (by omega) (hs.imp_right Nat.le_succ_of_le)]
  exact Nat.mul_lt_mul_of_pos_right (Nat.lt_succ_self m) (Nat.two_pow_pos s)

theorem unitsOf_le {j k : Nat} (h : j ≤ k) : (unitsOf j : ℚ) ≤ unitsOf k :=
  Nat.cast_le.mpr (unitsOf_strictMono.monotone h)

theorem unitsOf_lt {j k : Nat} (h : j < k) : (unitsOf j : ℚ) < unitsOf k :=
  Nat.cast_lt.mpr (unitsOf_strictMono h)

/-! ## The nearest rank -/

/-- The rank is nearest to `v` units among all ranks, and even if another one is as near. -/
structure IsNearest (v : ℚ) (k : Nat) : Prop where
  le : ∀ j, |v - unitsOf k| ≤ |v - unitsOf j|
  even : ∀ j, j ≠ k → |v - unitsOf j| = |v - unitsOf k| → k % 2 = 0

section Between
variable {v : ℚ} {k : Nat}

/-- What is not above `k` is not nearer from below, and what is not below `k` not from above. -/
theorem le_abs_of_le (v : ℚ) {j : Nat} (h : j ≤ k) :
    v - unitsOf k ≤ |v - unitsOf j| := by
  have hj := unitsOf_le h
  exact (sub_le_sub_left hj v).trans (le_abs_self _)

theorem le_abs_of_ge (v : ℚ) {j : Nat} (h : k ≤ j) :
    unitsOf k - v ≤ |v - unitsOf j| := by
  have hj := unitsOf_le h
  rw [abs_sub_comm]
  exact (sub_le_sub_right hj v).trans (le_abs_self _)

theorem isNearest_lower (hlo : unitsOf k ≤ v)
    (h : 2 * v < unitsOf k + unitsOf (k + 1) ∨
      2 * v = unitsOf k + unitsOf (k + 1) ∧ k % 2 = 0) : IsNearest v k := by
  have hself : |v - unitsOf k| = v - unitsOf k := abs_of_nonneg (sub_nonneg.mpr hlo)
  have hle : v - unitsOf k ≤ unitsOf (k + 1) - v := by
    obtain h | ⟨h, -⟩ := h <;> linarith
  refine ⟨fun j => ?_, fun j hj heq => ?_⟩
  · rw [hself]
    obtain hjk | hkj := Nat.lt_or_ge k j
    · exact hle.trans (le_abs_of_ge v hjk)
    · exact le_abs_of_le v hkj
  · refine (h.resolve_left fun hlt => ?_).2
    rw [hself] at heq
    obtain hjk | hkj := Nat.lt_or_gt_of_ne hj
    · have hunits := unitsOf_lt hjk
      have habs := le_abs_self (v - unitsOf j)
      linarith
    · have habs := le_abs_of_ge v hkj
      linarith

theorem isNearest_upper (hhi : v < unitsOf (k + 1))
    (h : unitsOf k + unitsOf (k + 1) < 2 * v ∨
      unitsOf k + unitsOf (k + 1) = 2 * v ∧ k % 2 = 1) : IsNearest v (k + 1) := by
  have hself : |v - unitsOf (k + 1)| = unitsOf (k + 1) - v := by
    rw [abs_sub_comm]
    exact abs_of_nonneg (sub_nonneg.mpr hhi.le)
  have hle : unitsOf (k + 1) - v ≤ v - unitsOf k := by
    obtain h | ⟨h, -⟩ := h <;> linarith
  refine ⟨fun j => ?_, fun j hj heq => ?_⟩
  · rw [hself]
    obtain hjk | hkj := Nat.lt_or_ge k j
    · exact le_abs_of_ge v hjk
    · exact hle.trans (le_abs_of_le v hkj)
  · have hodd : k % 2 = 1 := by
      refine (h.resolve_left fun hlt => ?_).2
      rw [hself] at heq
      obtain hjk | hkj := Nat.lt_or_gt_of_ne hj
      · have habs := le_abs_of_le v (Nat.le_of_lt_succ hjk)
        linarith
      · have hunits := unitsOf_lt hkj
        have habs := neg_le_abs (v - unitsOf j)
        linarith
    omega

end Between

/-- The whole number of units in a quotient fits into 53 bits but for its excess bits. -/
theorem excessBits_spec (n : Nat) : n < 2 * fractionSpan * 2 ^ excessBits n ∧
    (excessBits n = 0 ∨ fractionSpan * 2 ^ excessBits n ≤ n) := by
  by_cases hn : n.log2 < 53
  · have hzero : excessBits n = 0 := by
      rw [excessBits]
      omega
    refine ⟨?_, .inl hzero⟩
    rw [hzero, Nat.pow_zero, Nat.mul_one]
    exact Nat.lt_log2_self.trans_le (Nat.pow_le_pow_right (by decide) hn)
  · have hne : n ≠ 0 := by
      rintro rfl
      exact hn (by decide)
    have hlog : n.log2 = 52 + excessBits n := by
      rw [excessBits]
      omega
    refine ⟨?_, .inr ?_⟩
    · have hlt := @Nat.lt_log2_self n
      rw [hlog] at hlt
      calc
        n < 2 ^ (52 + excessBits n + 1) := hlt
        _ = 2 * fractionSpan * 2 ^ excessBits n := by
          rw [fractionSpan_eq, Nat.pow_succ, Nat.pow_add]
          ring
    · have hle := Nat.log2_self_le hne
      rwa [hlog, Nat.pow_add] at hle

/-- Rounding half to even chooses between the two ranks around a quotient. -/
theorem isNearest_of_cut {units den scale k : Nat} (hden : 0 < den) (hscale : 0 < scale)
    (hlo : unitsOf k = units / (den * scale) * scale)
    (hhi : unitsOf (k + 1) = (units / (den * scale) + 1) * scale)
    (hparity : k % 2 = units / (den * scale) % 2) :
    IsNearest (units / den)
      (k + (roundHalfEven units (den * scale) - units / (den * scale))) := by
  have hstep : 0 < den * scale := Nat.mul_pos hden hscale
  have hcut := Nat.div_add_mod units (den * scale)
  have hrest := Nat.mod_lt units hstep
  unfold roundHalfEven
  generalize units / (den * scale) = m at hlo hhi hparity hcut ⊢
  generalize units % (den * scale) = r at hcut hrest ⊢
  have hpos : (0 : ℚ) < den := Nat.cast_pos.mpr hden
  have hunits : (den * scale * m + r : ℚ) = units := by exact_mod_cast hcut
  have hlo : (unitsOf k : ℚ) = m * scale := by exact_mod_cast hlo
  have hhi : (unitsOf (k + 1) : ℚ) = (m + 1) * scale := by exact_mod_cast hhi
  have hfrom : (unitsOf k : ℚ) ≤ units / den := by
    have hr : (0 : ℚ) ≤ r := Nat.cast_nonneg r
    rw [hlo, le_div_iff₀ hpos]
    linarith
  have hto : (units : ℚ) / den < unitsOf (k + 1) := by
    have hr : (r : ℚ) < den * scale := by exact_mod_cast hrest
    rw [hhi, div_lt_iff₀ hpos]
    linarith
  -- Twice the distance from the middle, in units of the denominator.
  have hmiddle : 2 * (units / den : ℚ) - (unitsOf k + unitsOf (k + 1)) =
      (2 * r - den * scale) / den := by
    rw [hlo, hhi, ← hunits]
    field_simp
    ring
  obtain hlt | heq | hgt := Nat.lt_trichotomy (2 * r) (den * scale)
  · have hneg : (2 * r - den * scale : ℚ) / den < 0 :=
      div_neg_of_neg_of_pos (sub_neg.mpr (by exact_mod_cast hlt)) hpos
    have hlower := isNearest_lower hfrom (.inl (by linarith))
    simpa [Nat.not_lt.mpr hlt.le, hlt.ne] using hlower
  · have hzero : (2 * r - den * scale : ℚ) / den = 0 := by
      rw [sub_eq_zero.mpr (by exact_mod_cast heq), zero_div]
    obtain heven | hodd := Nat.mod_two_eq_zero_or_one k
    · have hlower := isNearest_lower hfrom (.inr ⟨by linarith, heven⟩)
      simpa [heq, ← hparity, heven] using hlower
    · have hupper := isNearest_upper hto (.inr ⟨by linarith, hodd⟩)
      simpa [heq, ← hparity, hodd] using hupper
  · have hpositive : 0 < (2 * r - den * scale : ℚ) / den :=
      div_pos (sub_pos.mpr (by exact_mod_cast hgt)) hpos
    have hupper := isNearest_upper hto (.inl (by linarith))
    simpa [hgt] using hupper

/-- Rounding to a significand of 53 bits gives the nearest rank of all. -/
theorem isNearest_roundHalfEven (units : Nat) {den : Nat} (hden : 0 < den) :
    let s := excessBits (units / den)
    IsNearest (units / den) (s * fractionSpan + roundHalfEven units (den <<< s)) := by
  intro s
  have hscale := Nat.two_pow_pos s
  obtain ⟨hlt, hge⟩ := excessBits_spec (units / den)
  have hdiv : units / (den * 2 ^ s) = units / den / 2 ^ s := (Nat.div_div_eq_div_mul _ _ _).symm
  have hbelow : units / (den * 2 ^ s) < 2 * fractionSpan := by
    rw [hdiv, Nat.div_lt_iff_lt_mul hscale]
    exact hlt
  have habove : s = 0 ∨ fractionSpan ≤ units / (den * 2 ^ s) := by
    refine hge.imp_right fun hge => ?_
    rw [hdiv, Nat.le_div_iff_mul_le hscale]
    exact hge
  have hlo := unitsOf_scaled hbelow.le habove
  have hhi : unitsOf (s * fractionSpan + units / (den * 2 ^ s) + 1) =
      (units / (den * 2 ^ s) + 1) * 2 ^ s := by
    rw [Nat.add_assoc]
    exact unitsOf_scaled (Nat.succ_le_of_lt hbelow) (habove.imp_right Nat.le_succ_of_le)
  have hparity : (s * fractionSpan + units / (den * 2 ^ s)) % 2 = units / (den * 2 ^ s) % 2 := by
    have heven : 2 ∣ s * fractionSpan := Dvd.dvd.mul_left (by decide) s
    omega
  have hround := le_roundHalfEven units (den * 2 ^ s)
  have hnearest := isNearest_of_cut hden hscale hlo hhi hparity
  rwa [Nat.add_assoc, Nat.add_sub_cancel' hround, ← Nat.shiftLeft_eq] at hnearest

/-! ## Overflow -/

theorem infinityRank_eq : infinityRank = 2045 * fractionSpan + 2 * fractionSpan := rfl

theorem overflow_mul_unitsInOne : 2 * (overflow * unitsInOne) =
    (unitsOf (infinityRank - 1) + unitsOf infinityRank : ℚ) := by
  have hlast : infinityRank - 1 = 2045 * fractionSpan + (2 * fractionSpan - 1) := rfl
  have hnormal : fractionSpan ≤ 2 * fractionSpan - 1 := by decide
  rw [hlast, unitsOf_scaled (Nat.sub_le _ _) (.inr hnormal), infinityRank_eq,
    unitsOf_scaled le_rfl (.inr (Nat.le_mul_of_pos_left _ (by decide))), overflow, unitsInOne_eq,
    fractionSpan_eq]
  have h1024 : (2 : ℚ) ^ 1024 = 2 ^ 54 * 2 ^ 970 := by rw [show 1024 = 54 + 970 from rfl, pow_add]
  have h1074 : (2 : ℚ) ^ 1074 = 2 ^ 104 * 2 ^ 970 := by rw [show 1074 = 104 + 970 from rfl, pow_add]
  have h2045 : (2 : ℚ) ^ 2045 = 2 ^ 105 * (2 ^ 970 * 2 ^ 970) := by
    rw [show 2045 = 105 + (970 + 970) from rfl, pow_add, pow_add]
  rw [Nat.cast_mul, Nat.cast_mul, Nat.cast_pow, Nat.cast_pow, Nat.cast_two, h1024, h1074, h2045]
  generalize (2 : ℚ) ^ 970 = a
  norm_num
  ring

section Middle
variable {v : ℚ} {k n : Nat}

theorem IsNearest.le_of_lt_middle (h : IsNearest v k)
    (hv : 2 * v < unitsOf n + unitsOf (n + 1)) : k ≤ n := by
  by_contra hk
  have hunits := unitsOf_le (Nat.succ_le_of_lt (Nat.not_le.mp hk))
  have hstep := unitsOf_lt (Nat.lt_succ_self n)
  have hcloser : |v - unitsOf n| < unitsOf (n + 1) - v := abs_lt.mpr ⟨by linarith, by linarith⟩
  have hself := neg_le_abs (v - unitsOf k)
  have hdist := h.le n
  linarith

/-- In the middle the upper rank is nearest if the lower one is odd. -/
theorem IsNearest.lt_of_middle_le (h : IsNearest v k) (hodd : n % 2 = 1)
    (hv : unitsOf n + unitsOf (n + 1) ≤ 2 * v) : n < k := by
  by_contra hk
  have hunits := unitsOf_le (Nat.not_lt.mp hk)
  have hstep := unitsOf_lt (Nat.lt_succ_self n)
  have hcloser : |v - unitsOf (n + 1)| ≤ v - unitsOf n := abs_le.mpr ⟨by linarith, by linarith⟩
  have hself := le_abs_self (v - unitsOf k)
  have hdist := h.le (n + 1)
  have hk : k = n := by
    refine (Nat.not_lt.mp hk).eq_or_lt.resolve_right fun hlt => ?_
    have hstrict := unitsOf_lt hlt
    linarith
  subst hk
  have heven := h.even (k + 1) (Nat.succ_ne_self k) (le_antisymm (hcloser.trans hself) hdist)
  omega

end Middle

/-- The last finite rank is odd, so that the middle behind it goes to infinity. -/
theorem IsNearest.lt_infinityRank_iff {x : ℚ} {k : Nat} (h : IsNearest (x * unitsInOne) k) :
    k < infinityRank ↔ x < overflow := by
  have hhalf := overflow_mul_unitsInOne
  have hlast : infinityRank - 1 + 1 = infinityRank := rfl
  have hodd : (infinityRank - 1) % 2 = 1 := rfl
  rw [← mul_lt_mul_iff_left₀ cast_unitsInOne_pos]
  constructor
  · intro hk
    by_contra hv
    have hlt := h.lt_of_middle_le hodd (by rw [hlast, ← hhalf]; linarith)
    omega
  · intro hv
    have hle := h.le_of_lt_middle (n := infinityRank - 1) (by rw [hlast, ← hhalf]; linarith)
    exact Nat.lt_of_le_of_lt hle (by decide)

/-! ## The nearest number -/

section Value
variable {x : ℚ}

theorem toRat_of_positive {y : Binary64} (h : y.negative = false) :
    y.toRat = y.units / unitsInOne := by
  rw [toRat, h]
  rfl

theorem toRat_lt {y z : Binary64} (hy : y.negative = false) (hz : z.negative = false)
    (h : y.rank < z.rank) : y.toRat < z.toRat := by
  rw [toRat_of_positive hy, toRat_of_positive hz, div_lt_div_iff_of_pos_right cast_unitsInOne_pos]
  exact unitsOf_lt h

/-- A number is not nearer to what is not negative if its sign is. -/
theorem abs_sub_magnitude_le (hx : 0 ≤ x) (z : Binary64) :
    |x - z.units / unitsInOne| ≤ |x - z.toRat| := by
  have hz : (0 : ℚ) ≤ z.units / unitsInOne := div_nonneg (Nat.cast_nonneg _) cast_unitsInOne_pos.le
  unfold toRat
  cases z.negative with
  | false => exact le_rfl
  | true =>
    have hself := le_abs_self (x - -(z.units / unitsInOne))
    exact abs_le.mpr ⟨by simp only [if_true]; linarith, by simp only [if_true]; linarith⟩

theorem abs_sub_units (x : ℚ) (k : Nat) :
    |x - unitsOf k / unitsInOne| = |x * unitsInOne - unitsOf k| / unitsInOne := by
  have hdist : x - unitsOf k / unitsInOne = (x * unitsInOne - unitsOf k) / unitsInOne := by
    field_simp [cast_unitsInOne_pos.ne']
  rw [hdist, abs_div, abs_of_pos cast_unitsInOne_pos]

theorem IsNearest.roundsTo (hx : 0 ≤ x) {y : Binary64} (hpositive : y.negative = false)
    (hfinite : y.isFinite = true) (h : IsNearest (x * unitsInOne) y.rank) : RoundsTo x y := by
  have hle : ∀ z : Binary64, |x - y.toRat| ≤ |x - z.units / unitsInOne| := by
    intro z
    rw [toRat_of_positive hpositive, units, units, abs_sub_units, abs_sub_units]
    exact div_le_div_of_nonneg_right (h.le z.rank) cast_unitsInOne_pos.le
  have hlt := h.lt_infinityRank_iff.mp (of_decide_eq_true hfinite)
  refine .finite hlt hpositive hfinite (fun z _ => (hle z).trans (abs_sub_magnitude_le hx z)) ?_
  intro z _ hne heq
  have hsame : |x - z.units / unitsInOne| = |x - y.toRat| :=
    le_antisymm ((abs_sub_magnitude_le hx z).trans heq.le) (hle z)
  rw [toRat_of_positive hpositive, units, units, abs_sub_units, abs_sub_units,
    div_left_inj' cast_unitsInOne_pos.ne'] at hsame
  exact h.even z.rank (Fin.val_ne_of_ne hne) hsame

/-- Of two nearest numbers both have an even rank, and one of a rank between would be nearer. -/
theorem RoundsTo.not_rank_lt {y z : Binary64} (hy : RoundsTo x y) (hz : RoundsTo x z) :
    ¬ y.rank < z.rank := by
  intro hlt
  cases hy with
  | infinite hover =>
    cases hz with
    | infinite => exact lt_irrefl _ hlt
    | finite hx => exact absurd hx (not_lt.mpr hover)
  | finite hx hpositive hfinite nearest even =>
    cases hz with
    | infinite hover => exact absurd hx (not_lt.mpr hover)
    | finite _ hpositive' hfinite' nearest' even' =>
      have heq : |x - z.toRat| = |x - y.toRat| :=
        le_antisymm (nearest' y hfinite) (nearest z hfinite')
      have heven := even z hfinite' hlt.ne' heq
      have heven' := even' y hfinite hlt.ne heq.symm
      have hbetween : y.rank.val + 1 < z.rank.val := by
        have hranks : y.rank.val < z.rank.val := hlt
        omega
      let w : Binary64 := ⟨false, ⟨y.rank.val + 1, hbetween.trans z.rank.isLt⟩⟩
      have hw : w.isFinite = true :=
        decide_eq_true (hbetween.trans (of_decide_eq_true hfinite'))
      have hyw := toRat_lt (z := w) hpositive rfl (Nat.lt_succ_self y.rank.val)
      have hwz := toRat_lt (y := w) rfl hpositive' hbetween
      have hnearer : |x - w.toRat| < |x - y.toRat| := by
        have hself := le_abs_self (x - y.toRat)
        have hself' := neg_le_abs (x - z.toRat)
        exact abs_lt.mpr ⟨by linarith, by linarith⟩
      exact absurd (nearest w hw) (not_le.mpr hnearer)

theorem RoundsTo.negative_eq_false {y : Binary64} (h : RoundsTo x y) : y.negative = false := by
  cases h with
  | finite _ hpositive => exact hpositive
  | infinite => rfl

theorem RoundsTo.unique {y z : Binary64} (hy : RoundsTo x y) (hz : RoundsTo x z) : y = z := by
  have hrank : y.rank = z.rank := le_antisymm (not_lt.mp (hz.not_rank_lt hy))
    (not_lt.mp (hy.not_rank_lt hz))
  have hsign := hy.negative_eq_false.trans hz.negative_eq_false.symm
  cases y
  cases z
  exact congrArg₂ Binary64.mk hsign hrank

end Value

theorem roundsTo_nearest (num : Nat) {den : Nat} (hden : 0 < den) :
    RoundsTo (num / den) (nearest false num den) := by
  have hx : (0 : ℚ) ≤ num / den := div_nonneg (Nat.cast_nonneg num) (Nat.cast_nonneg den)
  have h := isNearest_roundHalfEven (num * unitsInOne) hden
  have hunits : ((num * unitsInOne : Nat) : ℚ) / den = num / den * unitsInOne := by
    push_cast
    ring
  dsimp only at h
  rw [hunits] at h
  have hrank : (nearest false num den).rank.val = min _ infinityRank := rfl
  by_cases hlt : (num / den : ℚ) < overflow
  · have hfinite := h.lt_infinityRank_iff.mpr hlt
    rw [min_eq_left hfinite.le] at hrank
    refine IsNearest.roundsTo hx rfl (decide_eq_true (hrank.trans_lt hfinite)) ?_
    rw [hrank]
    exact h
  · have hinfinite := Nat.not_lt.mp (mt h.lt_infinityRank_iff.mp hlt)
    rw [min_eq_right hinfinite] at hrank
    have heq : nearest false num den = .infinity false :=
      congrArg (Binary64.mk false) (Fin.ext hrank)
    rw [heq]
    exact .infinite (not_lt.mp hlt)

/-- Halfway between two numbers, the one of even rank is taken. -/
example : nearest false (2 ^ 53 + 1) 1 = nearest false (2 ^ 53) 1 := by decide +kernel

/-- What is below half a unit is rounded to zero. -/
theorem nearest_of_tiny {num den : Nat} (h : 2 * (num * unitsInOne) < den) (negative : Bool) :
    nearest negative num den = .signedZero negative := by
  have hwhole : num * unitsInOne / den = 0 := Nat.div_eq_of_lt (by omega)
  have hround : roundHalfEven (num * unitsInOne) den = 0 := by
    simp [roundHalfEven, hwhole, Nat.mod_eq_of_lt (show num * unitsInOne < den by omega),
      Nat.not_lt.mpr h.le]
  have hexcess : excessBits 0 = 0 := rfl
  have hrank : nearestRank num den = 0 := by
    rw [nearestRank, hwhole, hexcess, Nat.shiftLeft_zero, hround, Nat.zero_mul, Nat.zero_add,
      Nat.zero_min]
  exact congrArg (Binary64.mk negative) (Fin.ext hrank)

theorem nearest_of_overflow {num den : Nat} (hden : 0 < den) (h : overflow ≤ num / den) :
    nearest false num den = .infinity false :=
  (roundsTo_nearest num hden).unique (.infinite h)

end Binary64

end ExprFront
