import Mathlib.Data.List.Infix
import ExprFront.Proofs.IntegerTexts
import ExprFront.Proofs.Rounding
import ExprFront.Proofs.TokenPlaces

/-!
# Values of numerals

The value of a text is the number nearest to what its longest beginning that is a numeral denotes,
and zero if no beginning is one. Only digits up to a second point count.
-/

namespace ExprFront
set_option autoImplicit false

namespace Numeral
open Text

/-! ## Numerals -/

def AsciiDigits (cs : List Char) : Prop := ∀ c ∈ cs, isAsciiDigit c = true

/-- The number that ASCII digits spell. -/
def digitsNumber (cs : List Char) : Nat :=
  digitsValue (cs.map fun c => c.toNat - 48)

/-- The text is a numeral of the value: digits, or digits with a point among them, before or behind
them. -/
inductive Denotes : List Char → ℚ → Prop
  | whole {w : List Char} (hw : AsciiDigits w) (hne : w ≠ []) : Denotes w (digitsNumber w)
  | point {w f : List Char} (hw : AsciiDigits w) (hf : AsciiDigits f) (hne : w ≠ [] ∨ f ≠ []) :
      Denotes (w ++ '.' :: f) (digitsNumber w + digitsNumber f / 10 ^ f.length)

/-- The numeral is the longest one that the text begins with. -/
structure IsLongest (text q : List Char) (x : ℚ) : Prop where
  begins : q <+: text
  denotes : Denotes q x
  le : ∀ q' x', q' <+: text → Denotes q' x' → q'.length ≤ q.length

/-- The digits before and after the point of a text, up to what does not go on with them. -/
inductive Opens : List Char → List Char → List Char → Prop
  | whole {w rest : List Char} (hw : AsciiDigits w)
      (hr : ∀ c, rest.head? = some c → isNumberChar c = false) : Opens (w ++ rest) w []
  | point {w f rest : List Char} (hw : AsciiDigits w) (hf : AsciiDigits f)
      (hr : ∀ c, rest.head? = some c → isAsciiDigit c = false) :
      Opens (w ++ '.' :: (f ++ rest)) w f

/-! ## Beginnings of a text -/

theorem isNumberChar_eq_false_iff (c : Char) :
    isNumberChar c = false ↔ isAsciiDigit c = false ∧ c ≠ '.' := by
  rw [isNumberChar, Bool.or_eq_false_iff, decide_eq_false_iff_not]

theorem exists_opens (text : List Char) : ∃ w f, Opens text w f := by
  have hclass : ∀ cs : List Char, AsciiDigits (cs.takeWhile isAsciiDigit) :=
    fun cs c hc => List.mem_takeWhile_imp hc
  have hcut := text.takeWhile_append_dropWhile (p := isAsciiDigit)
  cases hrest : text.dropWhile isAsciiDigit with
  | nil =>
    rw [hrest] at hcut
    rw [← hcut]
    exact ⟨_, [], .whole (hclass text) (by simp)⟩
  | cons c cs =>
    have hc : isAsciiDigit c = false := eq_false_of_head?_dropWhile (by rw [hrest]; rfl)
    rw [hrest] at hcut
    rw [← hcut]
    by_cases hpoint : c = '.'
    · subst hpoint
      rw [← cs.takeWhile_append_dropWhile (p := isAsciiDigit)]
      exact ⟨_, _, .point (hclass text) (hclass cs) fun _ hd => eq_false_of_head?_dropWhile hd⟩
    · refine ⟨_, [], .whole (hclass text) ?_⟩
      rintro d ⟨⟩
      exact (isNumberChar_eq_false_iff c).mpr ⟨hc, hpoint⟩

theorem Opens.parts_eq {text w f : List Char} (h : Opens text w f) : parts text = (w, f) := by
  cases h with
  | @whole w rest hw hr =>
    have htake := takeWhile_append_of_head hw fun c hc =>
      ((isNumberChar_eq_false_iff c).mp (hr c hc)).1
    simp only [parts, htake, List.drop_left]
    split
    · exact absurd (hr '.' rfl) (by decide)
    · rfl
  | @point w f rest hw hf hr =>
    have htake : (w ++ '.' :: (f ++ rest)).takeWhile isAsciiDigit = w :=
      takeWhile_append_of_head hw (by rintro c ⟨⟩; decide)
    simp only [parts, htake, List.drop_left, takeWhile_append_of_head hf hr]

theorem Opens.of_digits {w : List Char} (hw : AsciiDigits w) : Opens w w [] := by
  have h : Opens (w ++ []) w [] := .whole hw (by simp)
  rwa [List.append_nil] at h

theorem Opens.of_point {w f : List Char} (hw : AsciiDigits w) (hf : AsciiDigits f) :
    Opens (w ++ '.' :: f) w f := by
  have h : Opens (w ++ '.' :: (f ++ [])) w f := .point hw hf (by simp)
  rwa [List.append_nil] at h

theorem Opens.cons {text w f : List Char} (h : Opens text w f) {c : Char}
    (hc : isAsciiDigit c = true) : Opens (c :: text) (c :: w) f := by
  cases h with
  | whole hw hr => exact .whole (List.forall_mem_cons.mpr ⟨hc, hw⟩) hr
  | point hw hf hr => exact .point (List.forall_mem_cons.mpr ⟨hc, hw⟩) hf hr

/-- A beginning in a class of characters ends where the class does. -/
theorem begins_of_class {p : Char → Bool} {q w rest : List Char} (hq : ∀ c ∈ q, p c = true)
    (h : q <+: w ++ rest) (hr : ∀ c, rest.head? = some c → p c = false) : q <+: w := by
  obtain hle | ⟨more, rfl⟩ := List.prefix_or_prefix_of_prefix h (List.prefix_append w rest)
  · exact hle
  · cases more with
    | nil => rw [List.append_nil]
    | cons c more =>
      obtain ⟨last, hlast⟩ := (List.prefix_append_right_inj w).mp h
      have hc := hr c (by rw [← hlast]; rfl)
      rw [hq c (by simp)] at hc
      simp at hc

section Longest
variable {q w f rest : List Char} {x : ℚ}

theorem Denotes.ne_nil (h : Denotes q x) : q ≠ [] := by
  cases h with
  | whole hw hne => exact hne
  | point hw hf hne => simp

theorem Denotes.all (h : Denotes q x) : ∀ c ∈ q, isNumberChar c = true := by
  have hdigit : ∀ c, isAsciiDigit c = true → isNumberChar c = true := fun c hc => by
    rw [isNumberChar, hc, Bool.true_or]
  cases h with
  | whole hw hne => exact fun c hc => hdigit c (hw c hc)
  | point hw hf hne =>
    refine List.forall_mem_append.mpr ⟨fun c hc => hdigit c (hw c hc), ?_⟩
    exact List.forall_mem_cons.mpr ⟨by decide, fun c hc => hdigit c (hf c hc)⟩

/-- A numeral in front of a point or across it is a beginning of all the digits there. -/
theorem Denotes.begins_point (h : Denotes q x) (hw : AsciiDigits w)
    (hr : ∀ c, rest.head? = some c → isAsciiDigit c = false)
    (hq : q <+: w ++ '.' :: (f ++ rest)) : q <+: w ++ '.' :: f ∧ (w ≠ [] ∨ f ≠ []) := by
  cases h with
  | whole hq' hne =>
    have hle := begins_of_class hq' hq (by rintro c ⟨⟩; decide)
    refine ⟨hle.trans (List.prefix_append _ _), .inl ?_⟩
    rintro rfl
    exact hne (List.prefix_nil.mp hle)
  | @point w' f' hw' hf' hne =>
    obtain ⟨more, hmore⟩ := hq
    rw [List.append_assoc, List.cons_append] at hmore
    -- Both whole parts are the digits in front of the first character that is none.
    have htake := congrArg (List.takeWhile isAsciiDigit) hmore
    rw [takeWhile_append_of_head hw' (by rintro c ⟨⟩; decide),
      takeWhile_append_of_head hw (by rintro c ⟨⟩; decide)] at htake
    subst htake
    have hmore := (List.cons.inj (List.append_cancel_left hmore)).2
    have hle : f' <+: f := begins_of_class hf' ⟨more, hmore⟩ hr
    refine ⟨(List.prefix_append_right_inj _).mpr (List.cons_prefix_cons.mpr ⟨rfl, hle⟩), ?_⟩
    refine hne.imp_right fun hne => ?_
    rintro rfl
    exact hne (List.prefix_nil.mp hle)

end Longest

/-- The longest numeral at the beginning of a text has the digits that it opens with. -/
theorem Opens.longest {text w f : List Char} (h : Opens text w f) :
    (w = [] ∧ f = [] ∧ ∀ q x, q <+: text → ¬ Denotes q x) ∨
      ∃ q, IsLongest text q (digitsNumber w + digitsNumber f / 10 ^ f.length) := by
  cases h with
  | @whole w rest hw hr =>
    have hle : ∀ q x, q <+: w ++ rest → Denotes q x → q <+: w :=
      fun q x hq hd => begins_of_class hd.all hq hr
    by_cases hne : w = []
    · refine .inl ⟨hne, rfl, fun q x hq hd => hd.ne_nil ?_⟩
      exact List.prefix_nil.mp (hne ▸ hle q x hq hd)
    · have hzero : (digitsNumber [] : ℚ) / 10 ^ ([] : List Char).length = 0 := by
        simp [digitsNumber, digitsValue]
      rw [hzero, add_zero]
      exact .inr ⟨w, List.prefix_append w rest, .whole hw hne,
        fun q x hq hd => (hle q x hq hd).length_le⟩
  | @point w f rest hw hf hr =>
    by_cases hne : w ≠ [] ∨ f ≠ []
    · refine .inr ⟨w ++ '.' :: f, ?_, .point hw hf hne, fun q x hq hd => ?_⟩
      · exact (List.prefix_append_right_inj w).mpr
          (List.cons_prefix_cons.mpr ⟨rfl, List.prefix_append f rest⟩)
      · exact (hd.begins_point hw hr hq).1.length_le
    · rw [not_or, not_not, not_not] at hne
      refine .inl ⟨hne.1, hne.2, fun q x hq hd => ?_⟩
      obtain h | h := (hd.begins_point hw hr hq).2
      · exact h hne.1
      · exact h hne.2

theorem Denotes.parts_eq {q : List Char} {x : ℚ} (h : Denotes q x) :
    ∃ w f, parts q = (w, f) ∧ x = digitsNumber w + digitsNumber f / 10 ^ f.length := by
  cases h with
  | whole hw hne => exact ⟨q, [], (Opens.of_digits hw).parts_eq, by simp [digitsNumber, digitsValue]⟩
  | @point w f hw hf hne => exact ⟨w, f, (Opens.of_point hw hf).parts_eq, rfl⟩

/-! ## The nearest number -/

theorem ofDigits_eq (cs : List Char) : ofDigits cs = digitsNumber cs := by
  rw [digitsNumber, ← ofDigitValues_eq, ofDigitValues, List.foldl_map, ofDigits]

theorem digitsNumber_append (w f : List Char) :
    digitsNumber (w ++ f) = digitsNumber w * 10 ^ f.length + digitsNumber f := by
  have hlength : f.length = (f.map fun c => c.toNat - 48).length := by rw [List.length_map]
  rw [hlength, digitsNumber, List.map_append, digitsValue_append]
  rfl

theorem digitsNumber_zeros (k : Nat) : digitsNumber (List.replicate k '0') = 0 := by
  induction k with
  | zero => rfl
  | succ k ih =>
    rw [List.replicate_succ', digitsNumber_append, ih]
    rfl

theorem roundsTo_ofParts (w f : List Char) :
    Binary64.RoundsTo (digitsNumber w + digitsNumber f / 10 ^ f.length) (ofParts w f) := by
  have hpower : tenPower f.length = 10 ^ f.length := rfl
  have hvalue : (ofDigits (w ++ f) : ℚ) / tenPower f.length =
      digitsNumber w + digitsNumber f / 10 ^ f.length := by
    rw [ofDigits_eq, digitsNumber_append, hpower]
    push_cast
    field_simp
  rw [← hvalue]
  exact Binary64.roundsTo_nearest _ (tenPower_pos f.length)

theorem value_eq_ofParts (text : List Char) :
    value text = ofParts (parts text).1 (parts text).2 := by
  have hzero : ofParts [] [] = .zero :=
    Binary64.nearest_of_tiny (by simp [ofDigits, tenPower]) false
  unfold value
  obtain ⟨w, f⟩ := parts text
  dsimp only
  split
  · next hnil =>
    rw [Bool.and_eq_true, List.isEmpty_iff, List.isEmpty_iff] at hnil
    rw [hnil.1, hnil.2, hzero]
  · rfl

theorem roundsTo_value {w f text : List Char} (h : parts text = (w, f)) :
    Binary64.RoundsTo (digitsNumber w + digitsNumber f / 10 ^ f.length) (value text) := by
  rw [value_eq_ofParts, h]
  exact roundsTo_ofParts w f

/-- Texts of equal quotients have one value. -/
theorem value_congr {w f w' f' text text' : List Char} (h : parts text = (w, f))
    (h' : parts text' = (w', f'))
    (heq : (digitsNumber w + digitsNumber f / 10 ^ f.length : ℚ) =
      digitsNumber w' + digitsNumber f' / 10 ^ f'.length) : value text = value text' :=
  (roundsTo_value h).unique (heq ▸ roundsTo_value h')

theorem value_zero_cons (text : List Char) : value ('0' :: text) = value text := by
  obtain ⟨w, f, h⟩ := exists_opens text
  refine value_congr (h.cons (by decide)).parts_eq h.parts_eq ?_
  simp [digitsNumber, digitsValue]

theorem value_zeros (k : Nat) (text : List Char) :
    value (List.replicate k '0' ++ text) = value text := by
  induction k with
  | zero => rfl
  | succ k ih => rw [List.replicate_succ, List.cons_append, value_zero_cons, ih]

/-- Zeros at the end of the fraction do not count, nor does what follows the fraction. -/
theorem value_fraction {w f rest : List Char} (hw : AsciiDigits w) (hf : AsciiDigits f)
    (hr : ∀ c, rest.head? = some c → isAsciiDigit c = false) (k : Nat) :
    value (w ++ '.' :: (f ++ (List.replicate k '0' ++ rest))) = value (w ++ '.' :: f) := by
  have hzeros : AsciiDigits (f ++ List.replicate k '0') := by
    refine List.forall_mem_append.mpr ⟨hf, fun c hc => ?_⟩
    rw [List.eq_of_mem_replicate hc]
    decide
  have hopens : Opens _ w (f ++ List.replicate k '0') := .point hw hzeros hr
  rw [List.append_assoc] at hopens
  refine value_congr hopens.parts_eq (Opens.of_point hw hf).parts_eq ?_
  have hnumber : digitsNumber (f ++ List.replicate k '0') = digitsNumber f * 10 ^ k := by
    rw [digitsNumber_append, digitsNumber_zeros, List.length_replicate, Nat.add_zero]
  rw [hnumber, List.length_append, List.length_replicate, pow_add]
  push_cast
  field_simp

/-! ## Numerals as written numbers -/

theorem digitChar_of_isAsciiDigit {c : Char} (h : isAsciiDigit c = true) :
    digitValue? c = some (c.toNat - 48) ∧ Nat.digitChar (c.toNat - 48) = c := by
  have hall : ∀ k < 10, (Nat.digitChar k).toNat = 48 + k ∧
      digitValue? (Nat.digitChar k) = some k := by decide
  obtain ⟨hlo, hhi⟩ := (isAsciiDigit_iff c).mp h
  obtain ⟨hcode, hvalue⟩ := hall (c.toNat - 48) (by omega)
  have hc : Nat.digitChar (c.toNat - 48) = c := Char.toNat_inj.mp (by omega)
  rw [hc] at hvalue
  exact ⟨hvalue, hc⟩

theorem isPadding_of_isNumberChar {c : Char} (h : isNumberChar c = true) : isPadding c = false := by
  rw [isNumberChar, Bool.or_eq_true, decide_eq_true_eq] at h
  obtain hdigit | rfl := h
  · exact isPadding_of_digit (digitChar_of_isAsciiDigit hdigit).1
  · decide

section Read
variable {q : List Char} (hq : ∀ c ∈ q, isNumberChar c = true)
include hq

theorem plainDigits?_of_numberChars (afterDigit : Bool) : plainDigits? afterDigit q = some q := by
  induction q generalizing afterDigit with
  | nil => rfl
  | cons c cs ih =>
    obtain ⟨hc, hcs⟩ := List.forall_mem_cons.mp hq
    have hne : c ≠ '_' := by
      rintro rfl
      exact absurd hc (by decide)
    rw [isNumberChar, Bool.or_eq_true, decide_eq_true_eq] at hc
    obtain hdigit | rfl := hc
    · obtain ⟨hvalue, hchar⟩ := digitChar_of_isAsciiDigit hdigit
      simp [plainDigits?, hne, hvalue, ih hcs, hchar]
    · have hnone : digitValue? '.' = none := by decide
      simp [plainDigits?, hnone, ih hcs]

theorem stripBy_of_numberChars : stripBy isPadding q = q := by
  have hdrop : ∀ cs : List Char, (∀ c ∈ cs, isNumberChar c = true) →
      cs.dropWhile isPadding = cs := by
    intro cs hcs
    have hhead : ∀ c, cs.head? = some c → isPadding c = false :=
      fun c hc => isPadding_of_isNumberChar (hcs c (List.mem_of_head? hc))
    rw [← List.nil_append cs, dropWhile_append_of_head (by simp) hhead]
    rfl
  rw [stripBy, hdrop q hq, hdrop q.reverse (by simpa using hq), List.reverse_reverse]

theorem splitSign_of_numberChars : splitSign q = (false, q) := by
  unfold splitSign
  split
  · exact absurd (hq '-' List.mem_cons_self) (by decide)
  · exact absurd (hq '+' List.mem_cons_self) (by decide)
  · rfl

theorem map_toLower_of_numberChars : q.map Char.toLower = q := by
  refine (List.map_congr_left fun c hc => ?_).trans (List.map_id q)
  refine dif_neg fun hupper => ?_
  have hcode := (isNumberChar_iff c).mp (hq c hc)
  have hle : 65 ≤ c.toNat := UInt32.le_iff_toNat_le.mp hupper.1
  omega

theorem ofList_ne_of_numberChars {s : String} {c : Char} (hc : c ∈ s.toList)
    (hn : isNumberChar c = false) : String.ofList q ≠ s := by
  rintro rfl
  rw [String.toList_ofList] at hc
  rw [hq c hc] at hn
  simp at hn

end Read

theorem two_pow_le : 2 ^ (1074 + 1) ≤ 10 ^ 400 := by
  calc
    2 ^ (1074 + 1) ≤ 2 ^ (3 * 400) := pow_le_pow_right₀ one_le_two (by decide)
    _ = (2 ^ 3) ^ 400 := pow_mul 2 3 400
    _ ≤ 10 ^ 400 := pow_le_pow_left₀ (Nat.zero_le _) (by decide) 400

theorem two_mul_unitsInOne_le : 2 * Binary64.unitsInOne ≤ 10 ^ 400 := by
  rw [Binary64.unitsInOne_eq, ← pow_succ']
  exact two_pow_le

theorem overflow_le : Binary64.overflow ≤ 10 ^ 400 := by
  have hpow : (2 : ℚ) ^ (1074 + 1) ≤ 10 ^ 400 := by exact_mod_cast two_pow_le
  have hle : (2 : ℚ) ^ 1024 ≤ 2 ^ (1074 + 1) := pow_le_pow_right₀ one_le_two (by decide)
  have hpos : (0 : ℚ) < 2 ^ 970 := pow_pos two_pos 970
  exact (sub_le_self _ hpos.le).trans (hle.trans hpow)

theorem nearest_of_low {coefficient digits places : Nat} (hsize : coefficient < 10 ^ digits)
    (h : digits + 400 ≤ places) :
    Binary64.nearest false coefficient (tenPower places) = .signedZero false := by
  refine Binary64.nearest_of_tiny ?_ false
  calc
    2 * (coefficient * Binary64.unitsInOne) = coefficient * (2 * Binary64.unitsInOne) := by ring
    _ ≤ coefficient * 10 ^ 400 := Nat.mul_le_mul_left _ two_mul_unitsInOne_le
    _ < 10 ^ digits * 10 ^ 400 := Nat.mul_lt_mul_of_pos_right hsize (pow_pos (by decide) 400)
    _ = 10 ^ (digits + 400) := (pow_add 10 digits 400).symm
    _ ≤ 10 ^ places := Nat.pow_le_pow_right (by decide) h

theorem nearest_of_high {coefficient places : Nat} (h : 10 ^ (400 + places) ≤ coefficient) :
    Binary64.nearest false coefficient (tenPower places) = .infinity false := by
  have hle : (10 : ℚ) ^ 400 * 10 ^ places ≤ coefficient := by
    rw [← pow_add]
    exact_mod_cast h
  have hpower : (tenPower places : ℚ) = 10 ^ places := by
    rw [show tenPower places = 10 ^ places from rfl]
    push_cast
    rfl
  have hpos : (0 : ℚ) < 10 ^ places := pow_pos (by norm_num) places
  refine Binary64.nearest_of_overflow (tenPower_pos places) (overflow_le.trans ?_)
  rw [hpower, le_div_iff₀ hpos]
  exact hle

/-- What is settled without the power is as it would be with the power. -/
theorem scaled_eq_nearest (coefficient places : Nat) :
    scaled false coefficient (-(places : Int)) =
      Binary64.nearest false coefficient (tenPower places) := by
  have hlength : ∀ k, 0 < k → ((Nat.toDigits 10 coefficient).length ≤ k ↔ coefficient < 10 ^ k) :=
    fun k hk => Nat.length_toDigits_le_iff (by decide) hk
  have hsize := (hlength _ Nat.length_toDigits_pos).mp le_rfl
  unfold scaled
  dsimp only
  generalize (Nat.toDigits 10 coefficient).length = digits at hlength hsize ⊢
  split
  · next hsmall =>
    rw [Bool.or_eq_true, decide_eq_true_eq, decide_eq_true_eq] at hsmall
    obtain rfl | hplaces := hsmall
    · exact (Binary64.nearest_of_tiny (by simpa using tenPower_pos places) false).symm
    · exact (nearest_of_low hsize (by omega)).symm
  · split
    · next hlarge =>
      exact (nearest_of_high (Nat.not_lt.mp (mt (hlength _ (by omega)).mpr (by omega)))).symm
    · split
      · next hplaces =>
        obtain rfl : places = 0 := by omega
        rw [Nat.cast_zero, neg_zero, Int.toNat_zero, tenPower_zero, Nat.mul_one]
      · rw [neg_neg, Int.toNat_natCast]

theorem finite?_of_denotes {q : List Char} {x : ℚ} (h : Denotes q x) :
    finite? false q = some (value q) := by
  have hparts : ∀ w f, parts q = (w, f) →
      value q = scaled false (ofDigits (w ++ f)) (-(f.length : Int)) := by
    intro w f hparts
    rw [value_eq_ofParts, hparts, scaled_eq_nearest]
    rfl
  cases h with
  | whole hw hne =>
    have hopens := Opens.of_digits hw
    rw [hparts _ _ hopens.parts_eq]
    simp [finite?, hopens.parts_eq, hne]
  | @point w f hw hf hne =>
    have hopens := Opens.of_point hw hf
    rw [hparts _ _ hopens.parts_eq]
    have hsome : (w.isEmpty && f.isEmpty) = false := by
      rw [Bool.and_eq_false_iff, List.isEmpty_eq_false_iff, List.isEmpty_eq_false_iff]
      exact hne
    simp [finite?, hopens.parts_eq, hsome]

/-- A numeral is a written number of the same value. -/
theorem read?_of_denotes {q : List Char} {x : ℚ} (h : Denotes q x) :
    read? (String.ofList q) = some (value q) := by
  have hq := h.all
  have hletter : ∀ {s : String} {c : Char}, c ∈ s.toList → isNumberChar c = false →
      String.ofList q ≠ s := fun hc hn => ofList_ne_of_numberChars hq hc hn
  have hinf : String.ofList q ≠ "inf" := hletter (c := 'i') (by decide) (by decide)
  have hinfinity : String.ofList q ≠ "infinity" := hletter (c := 'i') (by decide) (by decide)
  have hnan : String.ofList q ≠ "nan" := hletter (c := 'n') (by decide) (by decide)
  simp [read?, stripBy_of_numberChars hq, plainDigits?_of_numberChars hq,
    splitSign_of_numberChars hq, map_toLower_of_numberChars hq, hinf, hinfinity, hnan,
    finite?_of_denotes h]

/-! ## Conversion -/

/-- What a text is converted to: the number nearest to its longest numeral, or zero. -/
inductive Converts (text : List Char) : Binary64 → Prop
  | numeral {q : List Char} {x : ℚ} {y : Binary64} (h : IsLongest text q x)
      (hy : Binary64.RoundsTo x y) : Converts text y
  | none (h : ∀ q x, q <+: text → ¬ Denotes q x) : Converts text .zero

theorem IsLongest.unique {text q q' : List Char} {x x' : ℚ} (h : IsLongest text q x)
    (h' : IsLongest text q' x') : q = q' ∧ x = x' := by
  have hle := h'.le q x h.begins h.denotes
  have hge := h.le q' x' h'.begins h'.denotes
  have hbegins := List.prefix_of_prefix_length_le h.begins h'.begins hle
  obtain rfl := hbegins.eq_of_length (le_antisymm hle hge)
  obtain ⟨w, f, hparts, rfl⟩ := h.denotes.parts_eq
  obtain ⟨w', f', hparts', rfl⟩ := h'.denotes.parts_eq
  obtain ⟨rfl, rfl⟩ := Prod.mk.inj (hparts.symm.trans hparts')
  exact ⟨rfl, rfl⟩

theorem IsLongest.roundsTo {text q : List Char} {x : ℚ} (h : IsLongest text q x) :
    Binary64.RoundsTo x (value text) := by
  obtain ⟨w, f, hopens⟩ := exists_opens text
  obtain ⟨-, -, hnone⟩ | ⟨q', hlongest⟩ := hopens.longest
  · exact absurd h.denotes (hnone q x h.begins)
  · obtain ⟨-, rfl⟩ := h.unique hlongest
    exact roundsTo_value hopens.parts_eq

theorem value_of_none {text : List Char} (h : ∀ q x, q <+: text → ¬ Denotes q x) :
    value text = .zero := by
  obtain ⟨w, f, hopens⟩ := exists_opens text
  obtain ⟨rfl, rfl, -⟩ | ⟨q, hlongest⟩ := hopens.longest
  · rw [value, hopens.parts_eq]
    rfl
  · exact absurd hlongest.denotes (h q _ hlongest.begins)

theorem converts_iff (text : List Char) (y : Binary64) : Converts text y ↔ y = value text := by
  constructor
  · rintro (⟨h, hy⟩ | h)
    · exact hy.unique h.roundsTo
    · exact (value_of_none h).symm
  · rintro rfl
    obtain ⟨w, f, hopens⟩ := exists_opens text
    obtain ⟨-, -, hnone⟩ | ⟨q, hlongest⟩ := hopens.longest
    · rw [value_of_none hnone]
      exact .none hnone
    · exact .numeral hlongest hlongest.roundsTo

theorem IsLongest.read?_eq {text q : List Char} {x : ℚ} (h : IsLongest text q x) :
    read? (String.ofList q) = some (value text) := by
  obtain ⟨w, f, hparts, rfl⟩ := h.denotes.parts_eq
  rw [read?_of_denotes h.denotes, (roundsTo_value hparts).unique h.roundsTo]

/-- The numeral of a token is the one that the scanner carries after it. -/
theorem exists_of_number {source : List Char} {filename : String} {r : Token × Scanner}
    (hr : r ∈ (Scanner.ofSource source filename).tokens) (hkind : r.1.kind = .number) :
    ∃ before l rest, source = before ++ (l ++ rest) ∧ IsLexeme rest l ∧ IsNumeral l ∧
      r.1.location = (Position.after before).within filename ∧ r.2.number = value l := by
  have hend : r.1.isEnd = false := by
    rw [Bool.eq_false_iff]
    intro he
    rw [Token.kind, Token.lexeme_of_isEnd he] at hkind
    simp [Lexeme.kind] at hkind
  obtain ⟨before, l, rest, hsource, hl, hyields, hlocation⟩ := Scanner.exists_of_mem_tokens hr hend
  refine ⟨before, l, rest, hsource, hl, ?_⟩
  rw [Token.kind] at hkind
  generalize r.1.lexeme = lexeme at hyields hkind
  cases hyields with
  | numeral hnumeral hnumber => exact ⟨hnumeral, hlocation, hnumber⟩
  | define | external | name | mark => simp [Lexeme.kind] at hkind

/-- A text is converted to the number nearest to the longest numeral it begins with, which can
always be read, and to zero without one. Zeros in front of the numeral and at the end of its fraction
do not count, nor does anything behind it, and the scanner carries the value of each numeral right
after its token. -/
theorem value_converts :
    (∀ text y, Converts text y ↔ y = value text) ∧
      (∀ text q x, IsLongest text q x → read? (String.ofList q) = some (value text)) ∧
      (∀ k text, value (List.replicate k '0' ++ text) = value text) ∧
      (∀ k w f rest, AsciiDigits w → AsciiDigits f →
        (∀ c, rest.head? = some c → isAsciiDigit c = false) →
        value (w ++ '.' :: (f ++ (List.replicate k '0' ++ rest))) = value (w ++ '.' :: f)) ∧
      ∀ source filename, ∀ r ∈ (Scanner.ofSource source filename).tokens, r.1.kind = .number →
        ∃ before l rest, source = before ++ (l ++ rest) ∧ IsLexeme rest l ∧ IsNumeral l ∧
          r.1.location = (Position.after before).within filename ∧ r.2.number = value l :=
  ⟨converts_iff, fun _ _ _ h => h.read?_eq, value_zeros,
    fun k _ _ _ hw hf hr => value_fraction hw hf hr k,
    fun _ _ _ hr hkind => exists_of_number hr hkind⟩

/-- A numeral with zeros in front and at the end, and a second point behind it. -/
theorem value_converts_two_points :
    let text := ['0', '1', '.', '5', '0', '.', '3']
    let r := (Scanner.ofSource text "").next
    IsLongest text ['0', '1', '.', '5', '0'] (3 / 2) ∧ read? "01.50" = some (value text) ∧
      value text = value ['1', '.', '5'] ∧ r ∈ (Scanner.ofSource text "").tokens ∧
      r.1.kind = .number ∧ ∃ l, IsNumeral l ∧ r.2.number = value l := by
  intro text r
  have hone : AsciiDigits ['1'] := by simp [AsciiDigits, isAsciiDigit]
  have hfive : AsciiDigits ['5'] := by simp [AsciiDigits, isAsciiDigit]
  have hw : AsciiDigits ['0', '1'] := by simp [AsciiDigits, isAsciiDigit]
  have hf : AsciiDigits ['5', '0'] := by simp [AsciiDigits, isAsciiDigit]
  have hr : ∀ c, ['.', '3'].head? = some c → isAsciiDigit c = false := by
    rintro c ⟨⟩
    decide
  have hx : (digitsNumber ['0', '1'] + digitsNumber ['5', '0'] / 10 ^ 2 : ℚ) = 3 / 2 := by
    have hwhole : digitsNumber ['0', '1'] = 1 := rfl
    have hfraction : digitsNumber ['5', '0'] = 50 := rfl
    rw [hwhole, hfraction]
    norm_num
  have hlongest : IsLongest text ['0', '1', '.', '5', '0'] (3 / 2) :=
    ⟨⟨['.', '3'], rfl⟩, hx ▸ .point hw hf (.inl (by simp)),
      fun q x hq hd => (hd.begins_point (f := ['5', '0']) hw hr hq).1.length_le⟩
  have hread := value_converts.2.1 text _ _ hlongest
  have hzeros := value_converts.2.2.1 1 ['1', '.', '5', '0', '.', '3']
  have hfraction := value_converts.2.2.2.1 1 ['1'] ['5'] ['.', '3'] hone hfive hr
  have hmem : r ∈ (Scanner.ofSource text "").tokens := by
    rw [Scanner.tokens_of_not_isEnd (by decide)]
    exact List.mem_cons_self
  have hkind : r.1.kind = .number := rfl
  obtain ⟨-, l, -, -, -, hl, -, hnumber⟩ := value_converts.2.2.2.2 text "" r hmem hkind
  exact ⟨hlongest, hread, hzeros.trans hfraction, hmem, hkind, l, hl, hnumber⟩

end Numeral

end ExprFront
