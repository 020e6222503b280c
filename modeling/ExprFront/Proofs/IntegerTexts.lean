import Mathlib.Data.List.TakeWhile
import Mathlib.Tactic.Ring
import ExprFront.Proofs.Lexing

/-!
# Texts of integers

A text is read as an integer exactly if it is one with padding around it: a sign or none, and digits
of any script with single underscores between them, not too many. The text of an integer is read back
as that integer.
-/

namespace ExprFront
set_option autoImplicit false

namespace Text

/-! ## The grammar -/

/-- The text spells digits with these values, with single underscores between them. -/
inductive SpellsDigits : List Char → List Nat → Prop
  | single {c : Char} {d : Nat} (hc : digitValue? c = some d) : SpellsDigits [c] [d]
  | next {c : Char} {d : Nat} {cs : List Char} {ds : List Nat} (hc : digitValue? c = some d)
      (h : SpellsDigits cs ds) : SpellsDigits (c :: cs) (d :: ds)
  | underscore {c : Char} {d : Nat} {cs : List Char} {ds : List Nat}
      (hc : digitValue? c = some d) (h : SpellsDigits cs ds) :
      SpellsDigits (c :: '_' :: cs) (d :: ds)

/-- The text is a sign or nothing; a minus makes negative. -/
inductive SpellsSign : List Char → Bool → Prop
  | none : SpellsSign [] false
  | plus : SpellsSign ['+'] false
  | minus : SpellsSign ['-'] true

/-- The value of digits, the first one the most significant. -/
def digitsValue : List Nat → Nat
  | [] => 0
  | d :: ds => d * 10 ^ ds.length + digitsValue ds

/-- The text is that of an integer, perhaps with padding around it. -/
inductive SpellsInteger : List Char → Int → Prop
  | intro {lead sign digits trail : List Char} {negative : Bool} {ds : List Nat}
      (hlead : ∀ c ∈ lead, isPadding c = true) (hsign : SpellsSign sign negative)
      (hdigits : SpellsDigits digits ds) (hlimit : ds.length ≤ digitLimit)
      (htrail : ∀ c ∈ trail, isPadding c = true) :
      SpellsInteger (lead ++ (sign ++ (digits ++ trail)))
        (if negative then -(digitsValue ds : Int) else digitsValue ds)

/-! ## Character classes -/

/-- The code points of white space. -/
def spaces : List Nat :=
  [9, 10, 11, 12, 13, 28, 29, 30, 31, 32, 0x85, 0xA0, 0x1680, 0x2000, 0x2001, 0x2002, 0x2003, 0x2004,
   0x2005, 0x2006, 0x2007, 0x2008, 0x2009, 0x200A, 0x2028, 0x2029, 0x202F, 0x205F, 0x3000]

theorem toNat_mem_spaces {c : Char} (h : isSpace c = true) : c.toNat ∈ spaces := by
  simp only [isSpace, Bool.or_eq_true, Bool.and_eq_true, decide_eq_true_eq, beq_iff_eq] at h
  simp only [spaces, List.mem_cons, List.not_mem_nil, or_false]
  omega

theorem digitValue?_of_isSpace {c : Char} (h : isSpace c = true) : digitValue? c = none := by
  have hall : ∀ n ∈ spaces, digitZeros.find? (fun z => z ≤ n && n < z + 10) = none := by decide
  rw [digitValue?, hall c.toNat (toNat_mem_spaces h), Option.map_none]

theorem isSpace_of_isPadding {c : Char} (h : isPadding c = true) : isSpace c = true :=
  (Bool.and_eq_true_iff.mp h).1

theorem isDigitOrUnderscore_of_isPadding {c : Char} (h : isPadding c = true) :
    isDigitOrUnderscore c = false := by
  have hspace := isSpace_of_isPadding h
  have hne : c ≠ '_' := by
    rintro rfl
    exact absurd hspace (by decide)
  rw [isDigitOrUnderscore, decide_eq_false hne, digitValue?_of_isSpace hspace]
  rfl

theorem isDigitOrUnderscore_of_digit {c : Char} {d : Nat} (h : digitValue? c = some d) :
    isDigitOrUnderscore c = true := by
  rw [isDigitOrUnderscore, h]
  exact Bool.or_true _

theorem isPadding_of_digit {c : Char} {d : Nat} (h : digitValue? c = some d) :
    isPadding c = false := by
  rw [Bool.eq_false_iff]
  intro hc
  rw [digitValue?_of_isSpace (isSpace_of_isPadding hc)] at h
  simp at h

theorem ne_of_digit {c k : Char} {d : Nat} (h : digitValue? c = some d)
    (hk : digitValue? k = none) : c ≠ k := by
  rintro rfl
  rw [h] at hk
  simp at hk

/-! ## Digits -/

theorem SpellsDigits.exists_head {cs : List Char} {ds : List Nat} (h : SpellsDigits cs ds) :
    ∃ c d cs', cs = c :: cs' ∧ digitValue? c = some d := by
  cases h with
  | single hc => exact ⟨_, _, _, rfl, hc⟩
  | next hc => exact ⟨_, _, _, rfl, hc⟩
  | underscore hc => exact ⟨_, _, _, rfl, hc⟩

theorem SpellsDigits.all {cs : List Char} {ds : List Nat} (h : SpellsDigits cs ds) :
    ∀ c ∈ cs, isDigitOrUnderscore c = true := by
  induction h with
  | single hc => exact List.forall_mem_singleton.mpr (isDigitOrUnderscore_of_digit hc)
  | next hc h ih => exact List.forall_mem_cons.mpr ⟨isDigitOrUnderscore_of_digit hc, ih⟩
  | underscore hc h ih =>
    exact List.forall_mem_cons.mpr
      ⟨isDigitOrUnderscore_of_digit hc, List.forall_mem_cons.mpr ⟨by decide, ih⟩⟩

theorem readDigits?_of_spellsDigits {cs : List Char} {ds : List Nat} (h : SpellsDigits cs ds) :
    readDigits? cs = some ds := by
  induction h with
  | single hc => rw [readDigits?, hc, Option.map_some]
  | @next c d cs ds hc h ih =>
    -- The digit that follows is no underscore, so that it is read by itself.
    obtain ⟨c', d', cs', rfl, hc'⟩ := h.exists_head
    have hne : c' ≠ '_' := ne_of_digit hc' (by decide)
    rw [readDigits?, hc, ih]
    · rfl
    · simp
    · rintro tail ⟨rfl, -⟩
      exact hne rfl
  | underscore hc h ih =>
    rw [readDigits?, hc, ih]
    rfl

theorem readDigits?_eq_some_iff (cs : List Char) (ds : List Nat) :
    readDigits? cs = some ds ↔ SpellsDigits cs ds := by
  refine ⟨fun h => ?_, readDigits?_of_spellsDigits⟩
  fun_induction readDigits? cs generalizing ds with
  | case1 => simp at h
  | case2 c =>
    obtain ⟨d, hd, rfl⟩ := Option.map_eq_some_iff.mp h
    exact .single hd
  | case3 c cs ih =>
    obtain ⟨d, hd, h⟩ := Option.bind_eq_some_iff.mp h
    obtain ⟨ds, hds, h⟩ := Option.bind_eq_some_iff.mp h
    obtain rfl := Option.some.inj h
    exact .underscore hd (ih ds hds)
  | case4 c cs _ _ ih =>
    obtain ⟨d, hd, h⟩ := Option.bind_eq_some_iff.mp h
    obtain ⟨ds, hds, h⟩ := Option.bind_eq_some_iff.mp h
    obtain rfl := Option.some.inj h
    exact .next hd (ih ds hds)

theorem digitsValue_append (ds es : List Nat) :
    digitsValue (ds ++ es) = digitsValue ds * 10 ^ es.length + digitsValue es := by
  induction ds with
  | nil => simp [digitsValue]
  | cons d ds ih =>
    rw [List.cons_append, digitsValue, digitsValue, ih, List.length_append]
    ring

theorem ofDigitValues_eq (ds : List Nat) : ofDigitValues ds = digitsValue ds := by
  have hgeneral : ∀ n, ds.foldl (fun n d => 10 * n + d) n = n * 10 ^ ds.length + digitsValue ds := by
    induction ds with
    | nil => simp [digitsValue]
    | cons d ds ih =>
      intro n
      rw [List.foldl_cons, ih, digitsValue, List.length_cons]
      ring
  rw [ofDigitValues, hgeneral, Nat.zero_mul, Nat.zero_add]

/-! ## Reading -/

theorem splitSign_of_spellsSign {sign rest : List Char} {negative : Bool}
    (h : SpellsSign sign negative) (hp : rest.head? ≠ some '+') (hm : rest.head? ≠ some '-') :
    splitSign (sign ++ rest) = (negative, rest) := by
  cases h with
  | plus | minus => rfl
  | none =>
    rw [List.nil_append]
    unfold splitSign
    split
    · simp at hm
    · simp at hp
    · rfl

theorem spellsSign_splitSign (cs : List Char) :
    ∃ sign, cs = sign ++ (splitSign cs).2 ∧ SpellsSign sign (splitSign cs).1 := by
  unfold splitSign
  split
  · exact ⟨['-'], rfl, .minus⟩
  · exact ⟨['+'], rfl, .plus⟩
  · exact ⟨[], rfl, .none⟩

/-- No padding goes on into a sign or into digits. -/
theorem isPadding_head {sign digits : List Char} {negative : Bool} {ds : List Nat}
    (hsign : SpellsSign sign negative) (hdigits : SpellsDigits digits ds) (rest : List Char) :
    ∀ c, (sign ++ (digits ++ rest)).head? = some c → isPadding c = false := by
  intro c hc
  cases hsign with
  | plus | minus =>
    obtain rfl := Option.some.inj hc
    decide
  | none =>
    obtain ⟨c', d, cs, rfl, hd⟩ := hdigits.exists_head
    obtain rfl := Option.some.inj hc
    exact isPadding_of_digit hd

/-- Reading succeeds on texts of integers only, and gives the integer. -/
theorem readInteger_eq_ok_iff (cs : List Char) (n : Int) :
    readInteger cs = .ok n ↔ SpellsInteger cs n := by
  constructor
  · intro h
    obtain ⟨sign, hsplit, hsign⟩ := spellsSign_splitSign (cs.dropWhile isPadding)
    have hcs : cs = cs.takeWhile isPadding ++ cs.dropWhile isPadding :=
      List.takeWhile_append_dropWhile.symm
    unfold readInteger at h
    generalize splitSign (cs.dropWhile isPadding) = signed at h hsplit hsign
    obtain ⟨negative, body⟩ := signed
    dsimp only at h hsplit hsign
    have hbody : body = body.takeWhile isDigitOrUnderscore ++ body.dropWhile isDigitOrUnderscore :=
      List.takeWhile_append_dropWhile.symm
    split at h
    · simp at h
    · next ds hds =>
      split at h
      · simp at h
      · next hlimit =>
        split at h
        · next htrail =>
          obtain rfl := Except.ok.inj h
          rw [hcs, hsplit, hbody, ofDigitValues_eq]
          exact .intro (fun c hc => List.mem_takeWhile_imp hc) hsign
            ((readDigits?_eq_some_iff _ ds).mp hds) (Nat.not_lt.mp hlimit) (List.all_eq_true.mp htrail)
        · simp at h
  · rintro @⟨lead, sign, digits, trail, negative, ds, hlead, hsign, hdigits, hlimit, htrail⟩
    have hpadding := dropWhile_append_of_head hlead (isPadding_head hsign hdigits trail)
    have htail : ∀ c, trail.head? = some c → isDigitOrUnderscore c = false :=
      fun c hc => isDigitOrUnderscore_of_isPadding (htrail c (List.mem_of_mem_head? hc))
    have htake := takeWhile_append_of_head hdigits.all htail
    have hdrop := dropWhile_append_of_head hdigits.all htail
    obtain ⟨c, d, cs, hcs, hd⟩ := hdigits.exists_head
    have hne : ∀ k, digitValue? k = none → (digits ++ trail).head? ≠ some k := by
      rintro k hk hhead
      rw [hcs] at hhead
      exact ne_of_digit hd hk (Option.some.inj hhead)
    have hsplit := splitSign_of_spellsSign hsign (hne '+' (by decide)) (hne '-' (by decide))
    simp only [readInteger, hpadding, hsplit, htake, hdrop, readDigits?_of_spellsDigits hdigits,
      if_neg (Nat.not_lt.mpr hlimit), List.all_eq_true.mpr htrail, if_true, ofDigitValues_eq]

/-! ## Writing -/

theorem SpellsDigits.concat {cs : List Char} {ds : List Nat} (h : SpellsDigits cs ds) {c : Char}
    {d : Nat} (hc : digitValue? c = some d) : SpellsDigits (cs ++ [c]) (ds ++ [d]) := by
  induction h with
  | single hd => exact .next hd (.single hc)
  | next hd h ih => exact .next hd ih
  | underscore hd h ih => exact .underscore hd ih

theorem spellsDigits_toDigits (n : Nat) :
    ∃ ds, SpellsDigits (Nat.toDigits 10 n) ds ∧ ds.length = (Nat.toDigits 10 n).length ∧
      digitsValue ds = n := by
  have hvalue : ∀ k < 10, digitValue? (Nat.digitChar k) = some k := by decide
  induction n using Nat.strongRecOn with
  | ind n ih =>
    by_cases hlt : n < 10
    · rw [Nat.toDigits_of_lt_base hlt]
      exact ⟨[n], .single (hvalue n hlt), rfl, by simp [digitsValue]⟩
    · obtain ⟨ds, hds, hlength, heq⟩ := ih (n / 10) (by omega)
      rw [Nat.toDigits_of_base_le (by decide) (by omega)]
      refine ⟨ds ++ [n % 10], hds.concat (hvalue _ (by omega)), by simp [hlength], ?_⟩
      rw [digitsValue_append, heq]
      simp only [digitsValue, List.length_singleton, List.length_nil]
      omega

/-- The text of an integer that has not too many digits. -/
theorem spellsInteger_repr {n : Int} (h : (Nat.toDigits 10 n.natAbs).length ≤ digitLimit) :
    SpellsInteger n.repr.toList n := by
  obtain ⟨ds, hds, hlength, heq⟩ := spellsDigits_toDigits n.natAbs
  have hlimit : ds.length ≤ digitLimit := hlength ▸ h
  have hnil : ∀ c ∈ ([] : List Char), isPadding c = true := by simp
  cases n with
  | ofNat m =>
    have hspells := SpellsInteger.intro hnil .none hds hlimit hnil
    rw [List.append_nil, heq] at hspells
    rw [Int.repr, Nat.toList_repr]
    exact hspells
  | negSucc m =>
    have hspells := SpellsInteger.intro hnil .minus hds hlimit hnil
    rw [List.append_nil, heq] at hspells
    rw [Int.repr, String.toList_append, Nat.toList_repr]
    exact hspells

end Text

end ExprFront
