import ExprFront.Json.Reading
import ExprFront.Proofs.Lexing

/-!
# Tokens of JSON texts

Every code point is read back from its escape, but for two halves that make one character. So a
string is one token, with its halves put together. A text that is put together from marks, strings and
literals has the tokens of its parts, if nothing but the end of a literal follows a literal.
-/

namespace ExprFront
set_option autoImplicit false

namespace JsonTree
open Json

/-! ## Strings -/

theorem hexDigit?_digitChar : ∀ k < 16, hexDigit? (Nat.digitChar k) = some k := by decide

theorem readUnit?_unitEscape {n : Nat} (h : n < 0x10000) (rest : List Char) :
    readUnit? (unitEscape n ++ rest) = some (n, rest) := by
  have hdigit : ∀ m, hexDigit? (Text.hexDigit m) = some (m % 16) :=
    fun m => hexDigit?_digitChar _ (Nat.mod_lt m (by decide))
  have hvalue : hexValue? [Text.hexDigit (n / 16 / 16 / 16), Text.hexDigit (n / 16 / 16),
      Text.hexDigit (n / 16), Text.hexDigit n] = some n := by
    simp only [hexValue?, List.foldlM_cons, List.foldlM_nil, hdigit, Option.map_some,
      Option.bind_eq_bind, Option.bind_some, Option.pure_def, Option.some.injEq]
    omega
  show (hexValue? _).map (·, rest) = _
  rw [hvalue]
  rfl

theorem char?_toNat (c : Char) : char? c.toNat = some c := by
  have hvalid : c.toNat.isValidChar := c.valid
  rw [char?, if_pos hvalid, Char.ofNat_toNat]

theorem toNat_not_surrogate (c : Char) :
    c.toNat < 0xD800 ∨ 0xE000 ≤ c.toNat ∧ c.toNat < 0x110000 := by
  have hvalid : c.toNat < 0xD800 ∨ 0xDFFF < c.toNat ∧ c.toNat < 0x110000 := c.valid
  omega

theorem unitPoint?_toNat {c : Char} (h : c.toNat < 0x10000) :
    unitPoint? c.toNat = some (.char c) := by
  have hrange := toNat_not_surrogate c
  rw [unitPoint?, dif_neg (by omega), dif_neg (by omega), char?_toNat]
  rfl

theorem unitPoint?_high (n : Fin 0x400) : unitPoint? (0xD800 + n) = some (.high n) := by
  have hn := n.isLt
  have hval : 0xD800 + n.val - 0xD800 = n := Nat.add_sub_cancel_left _ _
  rw [unitPoint?, dif_pos (by omega)]
  exact congrArg (fun k => some (CodePoint.high k)) (Fin.ext hval)

theorem unitPoint?_low (n : Fin 0x400) : unitPoint? (0xDC00 + n) = some (.low n) := by
  have hn := n.isLt
  have hval : 0xDC00 + n.val - 0xDC00 = n := Nat.add_sub_cancel_left _ _
  rw [unitPoint?, dif_neg (by omega), dif_pos (by omega)]
  exact congrArg (fun k => some (CodePoint.low k)) (Fin.ext hval)

theorem readPoint?_unitEscape {n : Nat} {p : CodePoint} (hn : n < 0x10000)
    (h : unitPoint? n = some p) (rest : List Char) :
    readPoint? (unitEscape n ++ rest) = some (p, rest) := by
  simp only [readPoint?, readUnit?_unitEscape hn, h, Option.bind_eq_bind, Option.bind_some]
  rfl

theorem readPoint?_high (n : Fin 0x400) (rest : List Char) :
    readPoint? (escaped (.high n) ++ rest) = some (.high n, rest) :=
  readPoint?_unitEscape (by have := n.isLt; omega) (unitPoint?_high n) rest

theorem readPoint?_low (n : Fin 0x400) (rest : List Char) :
    readPoint? (escaped (.low n) ++ rest) = some (.low n, rest) :=
  readPoint?_unitEscape (by have := n.isLt; omega) (unitPoint?_low n) rest

theorem readCode?_pair (high low : Fin 0x400) (rest : List Char) :
    readCode? (escaped (.high high) ++ (escaped (.low low) ++ rest)) =
      some (.char (CodePoint.pair high low), rest) := by
  simp only [readCode?, readPoint?_high, readPoint?_low, Option.bind_eq_bind, Option.bind_some]
  rfl

/-- What follows is no low half that would belong to a high one before it. -/
def NoLow (rest : List Char) : Prop := ∀ l r, readPoint? rest ≠ some (.low l, r)

theorem readCode?_of_noLow {cs rest : List Char} {p : CodePoint}
    (h : readPoint? cs = some (p, rest)) (hr : NoLow rest) : readCode? cs = some (p, rest) := by
  simp only [readCode?, h, Option.bind_eq_bind, Option.bind_some]
  split
  · next l r hl => exact absurd hl (hr l r)
  · rfl

theorem readCode?_of_ne_high {cs rest : List Char} {p : CodePoint}
    (h : readPoint? cs = some (p, rest)) (hp : ∀ n, p ≠ .high n) :
    readCode? cs = some (p, rest) := by
  simp only [readCode?, h, Option.bind_eq_bind, Option.bind_some]
  split
  · next n l r hl => exact absurd rfl (hp _)
  · rfl

theorem readChar?_escape {e d : Char} (he : e ≠ 'u') (h : escapes.lookup e = some d)
    (rest : List Char) : readChar? ('\x5c' :: e :: rest) = some (.char d, rest) := by
  simp only [readChar?, if_true, he, if_false, h, Option.map_some]

theorem readChar?_plain {c : Char} (hc : c ≠ '\x5c') (h : 32 ≤ c.toNat) (rest : List Char) :
    readChar? (c :: rest) = some (.char c, rest) := by
  have hlt : ¬ c.toNat < 32 := by omega
  cases rest with
  | nil => simp only [readChar?, hc, hlt, decide_false, Bool.or_self, Bool.false_eq_true, if_false]
  | cons e rest => simp only [readChar?, hc, hlt, if_false]

theorem readChar?_unitEscape (n : Nat) (rest : List Char) :
    readChar? (unitEscape n ++ rest) = readCode? (unitEscape n ++ rest) := rfl

/-- The ways to write a character within a string. -/
inductive Escaped (c : Char) : List Char → Prop
  | short {e : Char} (he : e ≠ 'u') (h : escapes.lookup e = some c) : Escaped c ['\x5c', e]
  | plain (hq : c ≠ '\x22') (hs : c ≠ '\x5c') (h : 32 ≤ c.toNat) : Escaped c [c]
  | unit (h : c.toNat < 0x10000) : Escaped c (unitEscape c.toNat)
  | pair {high low : Fin 0x400} (h : c = CodePoint.pair high low) :
      Escaped c (escaped (.high high) ++ escaped (.low low))

/-- A character outside the basic plane is the pair of its units. -/
theorem exists_pair {c : Char} (h : 0x10000 ≤ c.toNat) : ∃ high low : Fin 0x400,
    c = CodePoint.pair high low ∧ high.val = (c.toNat - 0x10000) / 0x400 ∧
      low.val = (c.toNat - 0x10000) % 0x400 := by
  have hrange := toNat_not_surrogate c
  refine ⟨⟨(c.toNat - 0x10000) / 0x400, by omega⟩, ⟨(c.toNat - 0x10000) % 0x400, by omega⟩, ?_, rfl,
    rfl⟩
  apply Char.toNat_inj.mp
  rw [CodePoint.toNat_pair]
  show c.toNat = 0x10000 + (c.toNat - 0x10000) / 0x400 * 0x400 + (c.toNat - 0x10000) % 0x400
  omega

theorem escaped_escapedChar (c : Char) : Escaped c (escapedChar c) := by
  unfold escapedChar
  by_cases hquote : c = '\x22'
  · subst hquote
    exact .short (by decide) rfl
  by_cases hslash : c = '\x5c'
  · subst hslash
    exact .short (by decide) rfl
  by_cases hn : c = '\n'
  · subst hn
    exact .short (by decide) rfl
  by_cases hr : c = '\r'
  · subst hr
    exact .short (by decide) rfl
  by_cases ht : c = '\t'
  · subst ht
    exact .short (by decide) rfl
  by_cases hb : c.toNat = 8
  · obtain rfl : c = '\x08' := Char.toNat_inj.mp hb
    exact .short (by decide) rfl
  by_cases hf : c.toNat = 12
  · obtain rfl : c = '\x0c' := Char.toNat_inj.mp hf
    exact .short (by decide) rfl
  simp only [hquote, hslash, hn, hr, ht, hb, hf, if_false, Bool.and_eq_true, decide_eq_true_eq]
  split
  · next h => exact .plain hquote hslash h.1
  · split
    · next h => exact .unit h
    · next h =>
      obtain ⟨high, low, hc, hhigh, hlow⟩ := exists_pair (Nat.le_of_not_lt h)
      rw [← hhigh, ← hlow]
      exact .pair hc

/-- A character is read back from its escape. -/
theorem readChar?_escapedChar (c : Char) (rest : List Char) :
    readChar? (escapedChar c ++ rest) = some (.char c, rest) := by
  have hescaped := escaped_escapedChar c
  generalize escapedChar c = cs at hescaped
  cases hescaped with
  | short he h => exact readChar?_escape he h rest
  | plain hq hs h => exact readChar?_plain hs h rest
  | unit h =>
    rw [readChar?_unitEscape]
    exact readCode?_of_ne_high (readPoint?_unitEscape h (unitPoint?_toNat h) rest) (by simp)
  | pair h =>
    rw [List.append_assoc, h]
    exact readCode?_pair _ _ rest

theorem readPoint?_of_ne_slash {c : Char} (hc : c ≠ '\x5c') (rest : List Char) :
    readPoint? (c :: rest) = none := by
  have hunit : readUnit? (c :: rest) = none := by
    unfold readUnit?
    split
    · next h => exact absurd (List.cons.inj h).1 hc
    · rfl
  rw [readPoint?, hunit]
  rfl

/-- Only the escape of a low half begins with one. -/
theorem noLow_escaped {p : CodePoint} (hp : ∀ n, p ≠ .low n) (rest : List Char) :
    NoLow (escaped p ++ rest) := by
  intro l r hread
  cases p with
  | low n => exact hp n rfl
  | high n =>
    rw [readPoint?_high] at hread
    simp at hread
  | char c =>
    have hescaped := escaped_escapedChar c
    rw [escaped] at hread
    generalize escapedChar c = cs at hescaped hread
    cases hescaped with
    | @short e he h =>
      have hunit : readUnit? ('\x5c' :: e :: rest) = none := by
        unfold readUnit?
        split
        · next heq => exact absurd (List.cons.inj (List.cons.inj heq).2).1 he
        · rfl
      have hnone : readPoint? ('\x5c' :: e :: rest) = none := by
        rw [readPoint?, hunit]
        rfl
      simp [hnone] at hread
    | plain hq hs h => simp [readPoint?_of_ne_slash hs] at hread
    | unit h =>
      rw [readPoint?_unitEscape h (unitPoint?_toNat h)] at hread
      simp at hread
    | pair h =>
      rw [List.append_assoc, readPoint?_high] at hread
      simp at hread

theorem noLow_text {t : CodeText} (ht : ∀ n u, t ≠ .low n :: u) (rest : List Char) :
    NoLow (t.flatMap escaped ++ '\x22' :: rest) := by
  cases t with
  | nil =>
    intro l r hread
    rw [List.flatMap_nil, List.nil_append, readPoint?_of_ne_slash (by decide)] at hread
    simp at hread
  | cons p t =>
    rw [List.flatMap_cons, List.append_assoc]
    exact noLow_escaped (fun n hn => ht n t (by rw [hn])) _

/-- A code point is read back from its escape, unless it is the high half of a pair. -/
theorem readChar?_escaped {p : CodePoint} {rest : List Char}
    (h : ∀ n, p = .high n → NoLow rest) : readChar? (escaped p ++ rest) = some (p, rest) := by
  cases p with
  | char c => exact readChar?_escapedChar c rest
  | high n => exact readCode?_of_noLow (readPoint?_high n rest) (h n rfl)
  | low n => exact readCode?_of_ne_high (readPoint?_low n rest) (by simp)

theorem head?_escaped (p : CodePoint) (rest : List Char) :
    (escaped p ++ rest).head? ≠ some '\x22' := by
  cases p with
  | high | low =>
    show some '\x5c' ≠ _
    decide
  | char c =>
    have hescaped := escaped_escapedChar c
    rw [escaped]
    generalize escapedChar c = cs at hescaped
    cases hescaped with
    | plain hq hs h => simpa using hq
    | short | unit | pair =>
      show some '\x5c' ≠ _
      decide

theorem readText_of_readChar? {cs rest : List Char} {p : CodePoint}
    (hq : cs.head? ≠ some '\x22') (h : readChar? cs = some (p, rest)) :
    readText cs = (readText rest).map fun r => (p :: r.1, r.2) := by
  rw [readText, if_neg hq]
  split
  · next q r hread =>
    rw [h] at hread
    obtain ⟨rfl, rfl⟩ := Prod.mk.inj (Option.some.inj hread)
    rfl
  · next hread => simp [h] at hread

/-- A text is read back with its halves put together. -/
theorem readText_escaped (t : CodeText) (rest : List Char) :
    readText (t.flatMap escaped ++ '\x22' :: rest) = some (t.joined, rest) := by
  fun_induction CodeText.joined t with
  | case1 =>
    rw [readText]
    rfl
  | case2 h l t ih =>
    have hread : readChar? (escaped (.high h) ++ (escaped (.low l) ++
        (t.flatMap escaped ++ '\x22' :: rest))) =
        some (.char (CodePoint.pair h l), t.flatMap escaped ++ '\x22' :: rest) :=
      readCode?_pair h l _
    rw [List.flatMap_cons, List.flatMap_cons, List.append_assoc, List.append_assoc,
      readText_of_readChar? (head?_escaped _ _) hread, ih]
    rfl
  | case3 p t hp ih =>
    have hread : readChar? (escaped p ++ (t.flatMap escaped ++ '\x22' :: rest)) =
        some (p, t.flatMap escaped ++ '\x22' :: rest) :=
      readChar?_escaped fun n hn => noLow_text (fun l u ht => hp n l u hn ht) rest
    rw [List.flatMap_cons, List.append_assoc, readText_of_readChar? (head?_escaped _ _) hread, ih]
    rfl

/-! ## Tokens of a text -/

/-- A literal in front of the text ends there. -/
def EndsLiteral (rest : List Char) : Prop := ∀ c, rest.head? = some c → isLiteralChar c = false

theorem endsLiteral_nil : EndsLiteral [] := by simp [EndsLiteral]

theorem endsLiteral_cons {c : Char} (h : isLiteralChar c = false) (rest : List Char) :
    EndsLiteral (c :: rest) := by
  rintro d ⟨⟩
  exact h

/-- The text has the tokens in front of anything that ends a literal. -/
def Splits (cs : List Char) (ts : List JsonToken) : Prop :=
  ∀ rest, EndsLiteral rest → tokens (cs ++ rest) = (tokens rest).map (ts ++ ·)

/-- The text has the tokens and may follow a literal. -/
structure SplitsBehind (cs : List Char) (ts : List JsonToken) : Prop where
  splits : Splits cs ts
  ends : ∀ rest, EndsLiteral rest → EndsLiteral (cs ++ rest)

/-- The text has the tokens whatever follows it, and may follow a literal. -/
structure SplitsApart (cs : List Char) (ts : List JsonToken) : Prop where
  tokens_eq : ∀ rest, tokens (cs ++ rest) = (tokens rest).map (ts ++ ·)
  ends : ∀ rest, EndsLiteral (cs ++ rest)

section
variable {cs ds : List Char} {ts us : List JsonToken}

theorem SplitsApart.behind (h : SplitsApart cs ts) : SplitsBehind cs ts :=
  ⟨fun rest _ => h.tokens_eq rest, fun rest _ => h.ends rest⟩

theorem Splits.append (h : Splits cs ts) (h' : SplitsBehind ds us) :
    Splits (cs ++ ds) (ts ++ us) := by
  intro rest hrest
  rw [List.append_assoc, h _ (h'.ends rest hrest), h'.splits rest hrest, Option.map_map]
  simp only [Function.comp_def, List.append_assoc]

theorem SplitsBehind.append (h : SplitsBehind cs ts) (h' : SplitsBehind ds us) :
    SplitsBehind (cs ++ ds) (ts ++ us) := by
  refine ⟨h.splits.append h', ?_⟩
  intro rest hrest
  rw [List.append_assoc]
  exact h.ends _ (h'.ends rest hrest)

/-- Behind a text that stands apart it does not matter what comes before. -/
theorem SplitsApart.append (h : SplitsApart cs ts) (h' : Splits ds us) :
    SplitsBehind (cs ++ ds) (ts ++ us) := by
  constructor
  · intro rest hrest
    rw [List.append_assoc, h.tokens_eq, h' rest hrest, Option.map_map]
    simp only [Function.comp_def, List.append_assoc]
  · intro rest _
    rw [List.append_assoc]
    exact h.ends _

end

theorem splitsBehind_nil : SplitsBehind [] [] :=
  ⟨fun _ _ => Option.map_id'.symm, fun _ h => h⟩

theorem not_isLiteralChar_of_isSpace {c : Char} (h : isSpace c = true) :
    isLiteralChar c = false := by
  simp only [isSpace, Bool.or_eq_true, decide_eq_true_eq, or_assoc] at h
  obtain rfl | rfl | rfl | rfl := h <;> decide

theorem tokens_blanks {bs : List Char} (h : ∀ c ∈ bs, isSpace c = true) (rest : List Char) :
    tokens (bs ++ rest) = tokens rest := by
  induction bs with
  | nil => rfl
  | cons c bs ih =>
    obtain ⟨hc, hbs⟩ := List.forall_mem_cons.mp h
    rw [List.cons_append, tokens, if_pos hc, ih hbs]

theorem endsLiteral_blanks {bs rest : List Char} (h : ∀ c ∈ bs, isSpace c = true)
    (hr : EndsLiteral rest) : EndsLiteral (bs ++ rest) := by
  cases bs with
  | nil => exact hr
  | cons c bs => exact endsLiteral_cons (not_isLiteralChar_of_isSpace (h c List.mem_cons_self)) _

theorem tokens_of_next? {c : Char} {rest rest' : List Char} {t : JsonToken}
    (hc : isSpace c = false) (h : next? c rest = some (t, rest')) :
    tokens (c :: rest) = (tokens rest').map (t :: ·) := by
  rw [tokens, if_neg (by simp [hc])]
  split
  · next t' r hn =>
    rw [h] at hn
    obtain ⟨rfl, rfl⟩ := Prod.mk.inj (Option.some.inj hn)
    rfl
  · next hn =>
    rw [h] at hn
    simp at hn

/-- A character that is a token by itself, with blanks around it. -/
theorem splitsApart_mark {c : Char} {t : JsonToken} (hc : marks.lookup c = some t)
    {bs es : List Char} (hbs : ∀ c ∈ bs, isSpace c = true) (hes : ∀ c ∈ es, isSpace c = true) :
    SplitsApart (bs ++ c :: es) [t] := by
  have hclass : isSpace c = false ∧ isLiteralChar c = false ∧ c ≠ '\x22' := by
    obtain ⟨before, after, hmarks, -⟩ := List.lookup_eq_some_iff.mp hc
    have hmem : (c, t) ∈ marks := by simp [hmarks]
    have hall : ∀ p ∈ marks, isSpace p.1 = false ∧ isLiteralChar p.1 = false ∧ p.1 ≠ '\x22' := by
      decide
    exact hall _ hmem
  obtain ⟨hblank, hliteral, hquote⟩ := hclass
  constructor
  · intro rest
    have hnext : next? c (es ++ rest) = some (t, es ++ rest) := by
      rw [next?, if_neg hquote, if_neg (by simp [hliteral]), hc]
      rfl
    rw [List.append_assoc, tokens_blanks hbs, List.cons_append, tokens_of_next? hblank hnext,
      tokens_blanks hes]
    rfl
  · intro rest
    rw [List.append_assoc]
    exact endsLiteral_blanks hbs (endsLiteral_cons hliteral _)

theorem splits_quoted (t : CodeText) : Splits (quoted t).toList [.text t.joined] := by
  intro rest _
  have hread : next? '\x22' (t.flatMap escaped ++ '\x22' :: rest) =
      some (.text t.joined, rest) := by
    rw [next?, if_pos rfl, readText_escaped]
    rfl
  have hchars : (quoted t).toList ++ rest =
      '\x22' :: (t.flatMap escaped ++ '\x22' :: rest) := by
    rw [quoted, String.toList_ofList]
    simp
  rw [hchars, tokens_of_next? (by decide) hread]
  rfl

theorem splits_literal {cs : List Char} (hne : cs ≠ []) (h : ∀ c ∈ cs, isLiteralChar c = true) :
    Splits cs [.literal cs] := by
  obtain ⟨c, cs, rfl⟩ := List.exists_cons_of_ne_nil hne
  obtain ⟨hc, hcs⟩ := List.forall_mem_cons.mp h
  intro rest hrest
  have hblank : isSpace c = false := by
    cases hb : isSpace c with
    | false => rfl
    | true => rw [not_isLiteralChar_of_isSpace hb] at hc; exact hc.symm
  have hquote : c ≠ '\x22' := by
    rintro rfl
    exact absurd hc (by decide)
  have hnext : next? c (cs ++ rest) = some (.literal (c :: cs), rest) := by
    rw [next?, if_neg hquote, if_pos hc, takeWhile_append_of_head hcs hrest,
      dropWhile_append_of_head hcs hrest]
  rw [List.cons_append, tokens_of_next? hblank hnext]
  rfl

end JsonTree

end ExprFront
