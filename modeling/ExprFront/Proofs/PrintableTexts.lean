import ExprFront.Proofs.NumberTexts
import ExprFront.Proofs.Quoting
import ExprFront.Text.Terminal

/-!
# Printable texts

Quoted texts and the texts of numbers hold printable characters only. So they have no line break of
any kind in them, nor an escape character, and output that is no terminal shows them as they are.
-/

namespace ExprFront
set_option autoImplicit false

namespace Text

/-- The characters at which a text may be broken into lines. -/
def lineBreaks : List Char :=
  ['\n', '\x0b', '\x0c', '\r', '\x1c', '\x1d', '\x1e', '\x85', '\u2028', '\u2029']

/-- All characters are printable. -/
def AllPrintable (cs : List Char) : Prop := ∀ c ∈ cs, isPrintable c = true

theorem allPrintable_append {cs ds : List Char} :
    AllPrintable (cs ++ ds) ↔ AllPrintable cs ∧ AllPrintable ds :=
  List.forall_mem_append

theorem AllPrintable.notMem {cs : List Char} (h : AllPrintable cs) {c : Char}
    (hc : isPrintable c = false) : c ∉ cs := by
  intro hmem
  rw [h c hmem] at hc
  exact Bool.noConfusion hc

theorem not_isPrintable_of_mem_lineBreaks : ∀ c ∈ lineBreaks, isPrintable c = false := by
  have hall : (lineBreaks.all fun c => !isPrintable c) = true := by decide +kernel
  intro c hc
  simpa using List.all_eq_true.mp hall c hc

theorem AllPrintable.lineBreak_notMem {cs : List Char} (h : AllPrintable cs) :
    ∀ c ∈ lineBreaks, c ∉ cs :=
  fun c hc => h.notMem (not_isPrintable_of_mem_lineBreaks c hc)

/-! ## Quoted texts -/

theorem isPrintable_hexDigit (n : Nat) : isPrintable (hexDigit n) = true := by
  have hdigit : ∀ k < 16, isPrintable (Nat.digitChar k) = true := by decide
  exact hdigit _ (Nat.mod_lt n (by decide))

theorem allPrintable_hex (width n : Nat) : AllPrintable (hex width n) := by
  induction width generalizing n with
  | zero => exact List.forall_mem_nil _
  | succ width ih =>
    rw [hex, allPrintable_append]
    exact ⟨ih (n / 16), List.forall_mem_singleton.mpr (isPrintable_hexDigit n)⟩

theorem allPrintable_codeEscape (c : Char) : AllPrintable (codeEscape c) := by
  have hmarked : ∀ e width, isPrintable e = true →
      AllPrintable ('\x5c' :: e :: hex width c.toNat) := fun e width he =>
    List.forall_mem_cons.mpr
      ⟨by decide, List.forall_mem_cons.mpr ⟨he, allPrintable_hex width c.toNat⟩⟩
  simp only [codeEscape]
  split
  · exact hmarked 'x' 2 (by decide)
  · split
    · exact hmarked 'u' 4 (by decide)
    · exact hmarked 'U' 8 (by decide)

theorem IsQuote.isPrintable {q : Char} (hq : IsQuote q) : isPrintable q = true := by
  rcases hq with rfl | rfl <;> decide

theorem allPrintable_quotedChar {q : Char} (hq : IsQuote q) (c : Char) :
    AllPrintable (quotedChar q c) := by
  have hescape : ∀ e, isPrintable e = true → AllPrintable ['\x5c', e] := fun e he =>
    List.forall_mem_cons.mpr ⟨by decide, List.forall_mem_singleton.mpr he⟩
  unfold quotedChar
  split
  · next h =>
    rcases (by simpa using h : c = q ∨ c = '\x5c') with rfl | rfl
    · exact hescape c hq.isPrintable
    · exact hescape '\x5c' (by decide)
  · split
    · exact hescape 't' (by decide)
    · split
      · exact hescape 'n' (by decide)
      · split
        · exact hescape 'r' (by decide)
        · split
          · next h => exact List.forall_mem_singleton.mpr h
          · exact allPrintable_codeEscape c

theorem allPrintable_quote (s : String) : AllPrintable (quote s).toList := by
  have hq := isQuote_enclosingQuote s.toList
  have hmark : AllPrintable [enclosingQuote s.toList] :=
    List.forall_mem_singleton.mpr hq.isPrintable
  have hchars : AllPrintable (s.toList.flatMap (quotedChar (enclosingQuote s.toList))) := by
    intro d hd
    obtain ⟨c, -, hd⟩ := List.mem_flatMap.mp hd
    exact allPrintable_quotedChar hq c d hd
  rw [quote, String.toList_ofList]
  exact allPrintable_append.mpr ⟨List.forall_mem_cons.mpr ⟨hq.isPrintable, hchars⟩, hmark⟩

/-! ## Numbers -/

theorem isPrintable_of_isLiteralChar {c : Char} (h : JsonTree.isLiteralChar c = true) :
    isPrintable c = true := by
  have hrange : 32 ≤ c.toNat ∧ c.toNat < 127 := by
    simp only [JsonTree.isLiteralChar, Bool.or_eq_true, Bool.and_eq_true, decide_eq_true_eq,
      isAsciiDigit_iff, char_le_iff] at h
    have hbounds : '0'.toNat = 48 ∧ 'a'.toNat = 97 ∧ 'z'.toNat = 122 ∧ 'A'.toNat = 65 ∧
        'Z'.toNat = 90 := by decide
    rcases h with ((((h | h) | h) | rfl) | rfl) | rfl
    · omega
    · omega
    · omega
    · decide
    · decide
    · decide
  have hlt : c.toNat < 128 := by omega
  rw [isPrintable, if_pos hlt, Bool.and_eq_true, decide_eq_true_eq, decide_eq_true_eq]
  exact hrange

theorem isLiteralChar_of_mem_repr (n : Int) :
    ∀ c ∈ n.repr.toList, JsonTree.isLiteralChar c = true := by
  have hnat : ∀ m : Nat, ∀ c ∈ m.repr.toList, JsonTree.isLiteralChar c = true := by
    intro m c hc
    rw [Nat.toList_repr] at hc
    exact JsonTree.isLiteralChar_of_isAsciiDigit (Decimal.isAsciiDigit_of_mem_digitsOf c hc)
  cases n with
  | ofNat m => exact hnat m
  | negSucc m =>
    rw [Int.repr, String.toList_append]
    exact List.forall_mem_append.mpr ⟨List.all_eq_true.mp rfl, hnat (m + 1)⟩

theorem isLiteralChar_text (x : Binary64) :
    ∀ c ∈ x.text.toList, JsonTree.isLiteralChar c = true := by
  cases hx : x.isFinite with
  | true =>
    rw [← Binary64.jsonText_of_finite hx]
    exact (Binary64.isLiteralChar_jsonText x).2
  | false =>
    obtain ⟨-, h⟩ | ⟨-, h⟩ | ⟨-, h⟩ := Binary64.jsonText_of_not_finite hx <;> rw [h] <;>
      exact List.all_eq_true.mp rfl

theorem allPrintable_of_isLiteralChar {cs : List Char}
    (h : ∀ c ∈ cs, JsonTree.isLiteralChar c = true) : AllPrintable cs :=
  fun c hc => isPrintable_of_isLiteralChar (h c hc)

/-! ## Output -/

/-- A line of printable characters is written as it is. -/
theorem plain_line {line : String} (h : AllPrintable line.toList) :
    plain (line ++ "\n") = line ++ "\n" := by
  have hescape : '\x1b' ∉ (line ++ "\n").toList := by
    rw [String.toList_append, List.mem_append, not_or]
    exact ⟨h.notMem (by decide), by decide⟩
  rw [plain, if_neg]
  simpa using hescape

end Text

end ExprFront
