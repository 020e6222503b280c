import Mathlib.Algebra.Group.Nat.Defs
import ExprFront.Proofs.JsonLexing
import ExprFront.Text.Quoted

/-!
# Quoted texts read back

Every character is read back from the way in which it is quoted, whatever follows it. So no two
texts are quoted alike, and no quoted text has more than one line.
-/

namespace ExprFront.Text
set_option autoImplicit false

/-! ## Codes -/

theorem hexValue?_hex (width n : Nat) : JsonTree.hexValue? (hex width n) = some (n % 16 ^ width) := by
  induction width generalizing n with
  | zero => simp [hex, JsonTree.hexValue?, Nat.mod_one]
  | succ width ih =>
    have hdigit : JsonTree.hexDigit? (hexDigit n) = some (n % 16) :=
      JsonTree.hexDigit?_digitChar _ (Nat.mod_lt n (by decide))
    have hmod : n % 16 ^ (width + 1) = 16 * (n / 16 % 16 ^ width) + n % 16 := by
      rw [Nat.pow_succ', Nat.mod_mul, Nat.add_comm]
    have ih := ih (n / 16)
    rw [JsonTree.hexValue?] at ih
    rw [hex, JsonTree.hexValue?, List.foldlM_append, ih, hmod]
    simp [hdigit]

theorem length_hex (width n : Nat) : (hex width n).length = width := by
  induction width generalizing n with
  | zero => rfl
  | succ width ih => rw [hex, List.length_append, ih]; rfl

theorem newline_notMem_hex (width n : Nat) : '\n' ∉ hex width n := by
  have hdigit : ∀ k < 16, '\n' ≠ Nat.digitChar k := by decide
  induction width generalizing n with
  | zero => simp [hex]
  | succ width ih =>
    rw [hex, List.mem_append, List.mem_singleton, not_or]
    exact ⟨ih (n / 16), hdigit _ (Nat.mod_lt n (by decide))⟩

/-! ## Reading a character -/

/-- The number of digits of the code after a letter. -/
def codeWidth? (c : Char) : Option Nat :=
  if c = 'x' then some 2 else if c = 'u' then some 4 else if c = 'U' then some 8 else none

/-- The character that a letter or a mark after a backslash stands for. -/
def escaped (c : Char) : Char :=
  if c = 't' then '\t' else if c = 'n' then '\n' else if c = 'r' then '\r' else c

/-- The first character of the rest of a quoted text, and what follows it. -/
def readQuotedChar? : List Char → Option (Char × List Char)
  | [] => none
  | [c] => some (c, [])
  | c :: e :: rest =>
    if c = '\x5c' then
      match codeWidth? e with
      | some width =>
        ((JsonTree.hexValue? (rest.take width)).bind JsonTree.char?).map (·, rest.drop width)
      | none => some (escaped e, rest)
    else some (c, e :: rest)

theorem readQuotedChar?_plain {c : Char} (h : c ≠ '\x5c') (rest : List Char) :
    readQuotedChar? (c :: rest) = some (c, rest) := by
  cases rest with
  | nil => rfl
  | cons e rest => rw [readQuotedChar?, if_neg h]

theorem readQuotedChar?_code {e : Char} {width : Nat} (he : codeWidth? e = some width) {c : Char}
    (hc : c.toNat < 16 ^ width) (rest : List Char) :
    readQuotedChar? ('\x5c' :: e :: hex width c.toNat ++ rest) = some (c, rest) := by
  have htake : (hex width c.toNat ++ rest).take width = hex width c.toNat :=
    List.take_left' (length_hex width c.toNat)
  have hdrop : (hex width c.toNat ++ rest).drop width = rest :=
    List.drop_left' (length_hex width c.toNat)
  show readQuotedChar? ('\x5c' :: e :: (hex width c.toNat ++ rest)) = _
  rw [readQuotedChar?, if_pos rfl, he]
  simp only [htake, hdrop, hexValue?_hex, Nat.mod_eq_of_lt hc, Option.bind_some,
    JsonTree.char?_toNat, Option.map_some]

theorem readQuotedChar?_codeEscape (c : Char) (rest : List Char) :
    readQuotedChar? (codeEscape c ++ rest) = some (c, rest) := by
  have hbound : c.toNat < 16 ^ 8 := by
    have := JsonTree.toNat_not_surrogate c
    omega
  simp only [codeEscape]
  split
  · next h => exact readQuotedChar?_code rfl h rest
  · split
    · next h => exact readQuotedChar?_code rfl h rest
    · exact readQuotedChar?_code rfl hbound rest

/-- A mark that encloses quoted texts. -/
def IsQuote (q : Char) : Prop := q = '\x27' ∨ q = '\x22'

theorem isQuote_enclosingQuote (cs : List Char) : IsQuote (enclosingQuote cs) := by
  unfold enclosingQuote
  split
  · exact .inr rfl
  · exact .inl rfl

theorem readQuotedChar?_quotedChar {q : Char} (hq : IsQuote q) (c : Char) (rest : List Char) :
    readQuotedChar? (quotedChar q c ++ rest) = some (c, rest) := by
  unfold quotedChar
  split
  · next h =>
    have hmark : c = '\x27' ∨ c = '\x22' ∨ c = '\x5c' := by
      rcases hq with rfl | rfl <;> simp at h <;> grind
    rcases hmark with rfl | rfl | rfl <;> rfl
  · next hmark =>
    split
    · next h => subst h; rfl
    · split
      · next h => subst h; rfl
      · split
        · next h => subst h; rfl
        · split
          · exact readQuotedChar?_plain (fun h => hmark (by simp [h])) rest
          · exact readQuotedChar?_codeEscape c rest

/-! ## Texts -/

theorem quotedChars_injective {q : Char} (hq : IsQuote q) {cs ds : List Char}
    (h : cs.flatMap (quotedChar q) = ds.flatMap (quotedChar q)) : cs = ds := by
  have hread := readQuotedChar?_quotedChar hq
  induction cs generalizing ds with
  | nil =>
    cases ds with
    | nil => rfl
    | cons d ds =>
      have hd := hread d (ds.flatMap (quotedChar q))
      rw [← List.flatMap_cons, ← h] at hd
      simp [readQuotedChar?] at hd
  | cons c cs ih =>
    have hc := hread c (cs.flatMap (quotedChar q))
    rw [← List.flatMap_cons, h] at hc
    cases ds with
    | nil => simp [readQuotedChar?] at hc
    | cons d ds =>
      rw [List.flatMap_cons, hread, Option.some.injEq, Prod.mk.injEq] at hc
      rw [hc.1, ih hc.2.symm]

theorem quote_injective {s t : String} (h : quote s = quote t) : s = t := by
  have hquoted : quoted s.toList = quoted t.toList := String.ofList_injective h
  simp only [quoted, List.cons_append, List.cons.injEq] at hquoted
  obtain ⟨hq, hchars⟩ := hquoted
  rw [← hq] at hchars
  have hchars := List.append_cancel_right hchars
  exact String.toList_injective (quotedChars_injective (isQuote_enclosingQuote _) hchars)

theorem newline_notMem_quotedChar {q : Char} (hq : IsQuote q) (c : Char) :
    '\n' ∉ quotedChar q c := by
  have hcode : '\n' ∉ codeEscape c := by
    simp only [codeEscape]
    split
    · simp [newline_notMem_hex]
    · split <;> simp [newline_notMem_hex]
  have hquote : q ≠ '\n' := by rcases hq with rfl | rfl <;> decide
  unfold quotedChar
  split
  · next h =>
    rcases (by simpa using h : c = q ∨ c = '\x5c') with rfl | rfl
    · simpa using hquote.symm
    · decide
  · split
    · decide
    · split
      · decide
      · next hfeed =>
        split
        · decide
        · split
          · simpa using fun h : '\n' = c => hfeed h.symm
          · exact hcode

theorem newline_notMem_quote (s : String) : '\n' ∉ (quote s).toList := by
  have hq := isQuote_enclosingQuote s.toList
  have hquote : '\n' ≠ enclosingQuote s.toList := by rcases hq with h | h <;> rw [h] <;> decide
  rw [quote, String.toList_ofList, quoted, List.mem_append, List.mem_cons, List.mem_flatMap]
  rintro ((h | ⟨c, -, hc⟩) | h)
  · exact hquote h
  · exact newline_notMem_quotedChar hq c hc
  · exact hquote (List.mem_singleton.mp h)

end ExprFront.Text
