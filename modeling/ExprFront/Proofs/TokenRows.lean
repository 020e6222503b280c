import ExprFront.Command.Tokens
import ExprFront.Proofs.Interaction
import ExprFront.Proofs.OutlineTexts
import ExprFront.Proofs.PrintableTexts

/-!
# Token listings

A row tells the kind, the value and the place of a token, in printable characters. The place comes
after the last blank and the kind is told by the first characters, so that no two contents have the
same row. Since a row is a line, a listing tells the contents of all tokens of its source.
-/

namespace ExprFront
set_option autoImplicit false
open Text

/-! ## Contents of tokens -/

/-- The value of a lexeme as a text; that of a number is the shortest one that reads back. -/
def Lexeme.value? : Lexeme → Option String
  | .endOfInput => none
  | .define => some "def"
  | .external => some "extern"
  | .name text => some text
  | .number value => some value.text
  | .char c => some (String.singleton c)

namespace Token

/-- What there is to know about a token of a given source. -/
structure Content where
  kind : TokenKind
  value? : Option String
  line : Int
  column : Int
  deriving DecidableEq

def content (t : Token) : Content :=
  ⟨t.kind, t.lexeme.value?, t.location.line, t.location.column⟩

end Token

/-! ## Places -/

theorem Location.mem_place {c : Char} (l : Location) (h : c ∈ l.place.toList) :
    c = ':' ∨ JsonTree.isLiteralChar c = true := by
  rw [place, String.toList_append, String.toList_append] at h
  rcases List.mem_append.mp h with h | h
  · rcases List.mem_append.mp h with h | h
    · exact .inr (isLiteralChar_of_mem_repr _ c h)
    · exact .inl (List.mem_singleton.mp h)
  · exact .inr (isLiteralChar_of_mem_repr _ c h)

theorem Location.blank_notMem_place (l : Location) : ' ' ∉ l.place.toList := by
  intro h
  rcases l.mem_place h with h | h <;> exact absurd h (by decide)

theorem Location.allPrintable_place (l : Location) : AllPrintable l.place.toList := by
  intro c hc
  rcases l.mem_place hc with rfl | h
  · decide
  · exact isPrintable_of_isLiteralChar h

/-- Digits have no sign in front, and read back as their number. -/
theorem Text.repr_inj {m n : Int} (h : m.repr = n.repr) : m = n := by
  have hnat : ∀ a b : Nat, a.repr = b.repr → a = b := by
    intro a b hab
    have hdigits : Nat.toDigits 10 a = Nat.toDigits 10 b := by
      rw [← Nat.toList_repr, ← Nat.toList_repr, hab]
    have hvalue : ∀ k, Nat.ofDigitChars 10 (Nat.toDigits 10 k) 0 = k :=
      fun k => Nat.ofDigitChars_toDigits (by decide) (by decide)
    rw [← hvalue a, hdigits, hvalue]
  have hsign : ∀ a b : Nat, a.repr ≠ "-" ++ b.repr := by
    intro a b hab
    have hmem : '-' ∈ Nat.toDigits 10 a := by
      rw [← Nat.toList_repr, hab, String.toList_append]
      exact List.mem_append_left _ (List.mem_singleton.mpr rfl)
    exact absurd (Decimal.isAsciiDigit_of_mem_digitsOf _ hmem) (by decide)
  cases m with
  | ofNat a =>
    cases n with
    | ofNat b => exact congrArg Int.ofNat (hnat a b h)
    | negSucc b => exact absurd h (hsign a (b + 1))
  | negSucc a =>
    cases n with
    | ofNat b => exact absurd h.symm (hsign b (a + 1))
    | negSucc b =>
      have htail : (a + 1).repr = (b + 1).repr := by
        have hchars := congrArg String.toList h
        rw [Int.repr, Int.repr, String.toList_append, String.toList_append] at hchars
        exact String.toList_inj.mp (List.append_cancel_left hchars)
      exact congrArg Int.negSucc (Nat.succ.inj (hnat (a + 1) (b + 1) htail))

theorem Location.place_inj {l m : Location} (h : l.place = m.place) :
    l.line = m.line ∧ l.column = m.column := by
  have hcolon : ∀ n : Int, ':' ∉ n.repr.toList := by
    intro n hmem
    exact absurd (isLiteralChar_of_mem_repr n _ hmem) (by decide)
  have hchars : l.line.repr.toList ++ ':' :: l.column.repr.toList =
      m.line.repr.toList ++ ':' :: m.column.repr.toList := by
    have h := congrArg String.toList h
    simpa [place] using h
  obtain ⟨hline, hcolumn⟩ := append_cons_inj (hcolon _) (hcolon _) hchars
  exact ⟨repr_inj (String.toList_inj.mp hline), repr_inj (String.toList_inj.mp hcolumn)⟩

/-! ## Rows without their places -/

/-- A row up to the blank in front of the place. -/
def Lexeme.entry : Lexeme → String
  | .char c => quote (String.singleton c)
  | .number value => TokenKind.number.reportName ++ " " ++ value.text
  | .endOfInput => TokenKind.endOfInput.reportName
  | .define => TokenKind.define.reportName ++ " " ++ quote "def"
  | .external => TokenKind.external.reportName ++ " " ++ quote "extern"
  | .name text => TokenKind.name.reportName ++ " " ++ quote text

theorem Token.toList_row (t : Token) :
    t.row.toList = t.lexeme.entry.toList ++ ' ' :: t.location.place.toList := by
  have hrow : t.row = t.lexeme.entry ++ (" " ++ t.location.place) := by
    rcases t with ⟨_ | _ | _ | _ | _ | _, _⟩ <;> rfl
  rw [hrow, String.toList_append, String.toList_append]
  rfl

/-- The kind whose name stands first. There is none in front of a character. -/
def kindOfRow (cs : List Char) : TokenKind :=
  (TokenKind.all.find? fun k => k.reportName.toList.isPrefixOf cs).getD .char

theorem Lexeme.kindOfRow_entry (l : Lexeme) : kindOfRow l.entry.toList = l.kind := by
  cases l with
  | char c =>
    rcases isQuote_enclosingQuote (String.singleton c).toList with h | h <;>
      rw [entry, quote, String.toList_ofList, quoted, h] <;> rfl
  | endOfInput => rfl
  | _ =>
    rw [entry, String.append_assoc, String.toList_append]
    rfl

theorem Lexeme.entry_inj {l m : Lexeme} (h : l.entry = m.entry) :
    l.kind = m.kind ∧ l.value? = m.value? := by
  have hkind : l.kind = m.kind := by rw [← kindOfRow_entry, h, kindOfRow_entry]
  refine ⟨hkind, ?_⟩
  -- The first characters give the kind, and what they leave is the value in a form of that kind.
  cases l <;> cases m <;> simp only [kind, reduceCtorEq] at hkind
  case name.name s t =>
    have hquote : quote s = quote t := by simpa [entry] using h
    rw [quote_injective hquote]
  case number.number x y =>
    have htext : x.text = y.text := by simpa [entry] using h
    exact congrArg some htext
  case char.char c d => exact congrArg some (quote_injective h)
  all_goals rfl

theorem Lexeme.entry_congr {l m : Lexeme} (hkind : l.kind = m.kind) (hvalue : l.value? = m.value?) :
    l.entry = m.entry := by
  cases l <;> cases m <;> simp only [kind, reduceCtorEq] at hkind
  case name.name s t =>
    obtain rfl : s = t := Option.some.inj hvalue
    rfl
  case number.number x y =>
    have htext : x.text = y.text := Option.some.inj hvalue
    rw [entry, entry, htext]
  case char.char c d => exact congrArg quote (Option.some.inj hvalue)
  all_goals rfl

/-! ## Rows -/

theorem append_cons_inj_last {α : Type} {c : α} {xs ys us vs : List α} (hu : c ∉ us) (hv : c ∉ vs)
    (h : xs ++ c :: us = ys ++ c :: vs) : xs = ys ∧ us = vs := by
  have h : us.reverse ++ c :: xs.reverse = vs.reverse ++ c :: ys.reverse := by
    simpa using congrArg List.reverse h
  obtain ⟨hus, hxs⟩ := append_cons_inj (by simpa using hu) (by simpa using hv) h
  exact ⟨List.reverse_injective hxs, List.reverse_injective hus⟩

namespace Token

/-- Tokens have the same row exactly if they have the same content. -/
theorem row_eq_iff (t u : Token) : t.row = u.row ↔ t.content = u.content := by
  rw [← String.toList_inj, toList_row, toList_row]
  constructor
  · intro h
    -- There is no blank in the place, so that the last one of the row stands in front of it.
    obtain ⟨hentry, hplace⟩ := append_cons_inj_last t.location.blank_notMem_place
      u.location.blank_notMem_place h
    obtain ⟨hkind, hvalue⟩ := Lexeme.entry_inj (String.toList_injective hentry)
    obtain ⟨hline, hcolumn⟩ := Location.place_inj (String.toList_injective hplace)
    simp only [content, kind, hkind, hvalue, hline, hcolumn]
  · intro h
    simp only [content, kind, Content.mk.injEq] at h
    obtain ⟨hkind, hvalue, hline, hcolumn⟩ := h
    rw [Lexeme.entry_congr hkind hvalue, Location.place, Location.place, hline, hcolumn]

theorem allPrintable_row (t : Token) : AllPrintable t.row.toList := by
  have hname : ∀ k : TokenKind, AllPrintable (k.reportName ++ " ").toList := by
    intro k
    cases k <;> exact List.all_eq_true.mp rfl
  have hentry : AllPrintable t.lexeme.entry.toList := by
    cases t.lexeme with
    | endOfInput => exact List.all_eq_true.mp rfl
    | char c => exact allPrintable_quote _
    | number value =>
      rw [Lexeme.entry, String.toList_append, allPrintable_append]
      exact ⟨hname _, allPrintable_of_isLiteralChar (isLiteralChar_text value)⟩
    | _ =>
      rw [Lexeme.entry, String.toList_append, allPrintable_append]
      exact ⟨hname _, allPrintable_quote _⟩
  rw [toList_row, allPrintable_append]
  exact ⟨hentry, List.forall_mem_cons.mpr ⟨by decide, t.location.allPrintable_place⟩⟩

end Token

/-- The row of a token, with the value that its scanner holds. -/
def Scanner.row (s : Scanner) (t : Token) : String :=
  let value :=
    match t.lexeme with
    | .char c => quote (String.singleton c)
    | .number _ => t.kind.reportName ++ " " ++ s.number.text
    | .endOfInput => t.kind.reportName
    | _ => t.kind.reportName ++ " " ++ quote s.word
  value ++ " " ++ t.location.place

theorem Scanner.row_next (s : Scanner) : s.next.2.row s.next.1 = s.next.1.row := by
  rw [row, next_word, next_number, Token.row]
  cases hl : s.next.1.lexeme <;>
    simp only [wordAfter, numberAfter, Token.kind, hl, String.append_assoc]

/-- Just after a token has been scanned, the scanner holds its value. -/
theorem Scanner.row_of_mem_tokens {s : Scanner} {r : Token × Scanner} (h : r ∈ s.tokens) :
    r.2.row r.1 = r.1.row := by
  fun_induction tokens s with
  | case1 s hend =>
    obtain rfl := List.mem_singleton.mp h
    exact s.row_next
  | case2 s hend ih =>
    obtain rfl | h := List.mem_cons.mp h
    · exact s.row_next
    · exact ih h

/-! ## Listings -/

/-- Lines are told apart by line feeds, since these stand in none of them. -/
theorem lines_inj {xs ys : List (List Char)} (hx : ∀ x ∈ xs, '\n' ∉ x) (hy : ∀ y ∈ ys, '\n' ∉ y)
    (h : xs.flatMap (· ++ ['\n']) = ys.flatMap (· ++ ['\n'])) : xs = ys := by
  induction xs generalizing ys with
  | nil =>
    cases ys with
    | nil => rfl
    | cons y ys => simp at h
  | cons x xs ih =>
    cases ys with
    | nil => simp at h
    | cons y ys =>
      obtain ⟨hx, hxs⟩ := List.forall_mem_cons.mp hx
      obtain ⟨hy, hys⟩ := List.forall_mem_cons.mp hy
      rw [List.flatMap_cons, List.flatMap_cons, List.append_assoc, List.append_assoc] at h
      obtain ⟨rfl, hrest⟩ := append_cons_inj hx hy h
      rw [ih hxs hys hrest]

/-- The rows of tokens, one line each. -/
def Token.listing (ts : List Token) : List Char :=
  (ts.map fun t => t.row.toList).flatMap (· ++ ['\n'])

theorem Token.map_row_eq_iff (ts us : List Token) :
    (ts.map fun t => t.row.toList) = (us.map fun t => t.row.toList) ↔
      ts.map content = us.map content := by
  induction ts generalizing us with
  | nil => cases us <;> simp
  | cons t ts ih =>
    cases us with
    | nil => simp
    | cons u us =>
      simp only [List.map_cons, List.cons.injEq, String.toList_inj, row_eq_iff, ih]

/-- Listings are the same exactly if they list the same contents. -/
theorem Token.listing_eq_iff (ts us : List Token) :
    listing ts = listing us ↔ ts.map content = us.map content := by
  have hrows : ∀ vs : List Token, ∀ cs ∈ vs.map (fun t => t.row.toList), '\n' ∉ cs := by
    intro vs cs hcs
    obtain ⟨t, -, rfl⟩ := List.mem_map.mp hcs
    exact t.allPrintable_row.notMem (by decide)
  rw [← map_row_eq_iff]
  exact ⟨lines_inj (hrows ts) (hrows us), congrArg (List.flatMap (· ++ ['\n']))⟩

/-! ## The token command -/

theorem Console.journalAll_out (verbose : Bool) (c : Console) (rs : List LogRecord) :
    (c.journalAll verbose rs).out = c.out := by
  induction rs generalizing c with
  | nil => rfl
  | cons r rs ih =>
    have hr : (c.journal verbose r).out = c.out := by
      unfold journal
      split
      · rfl
      · split <;> rfl
    exact (ih _).trans hr

namespace TokenCommand

theorem writeToken_out (verbose : Bool) (c : Console) (t : Token) :
    (writeToken verbose c t).out.toList = c.out.toList ++ (t.row.toList ++ ['\n']) := by
  rw [writeToken, Console.say, plain_line t.allPrintable_row, Console.journalAll_out,
    String.toList_append, String.toList_append]
  rfl

theorem writeTokens_out (verbose : Bool) (c : Console) (rs : List (Token × Scanner)) :
    (rs.foldl (fun c r => writeToken verbose c r.1) c).out.toList =
      c.out.toList ++ Token.listing (rs.map Prod.fst) := by
  induction rs generalizing c with
  | nil => simp [Token.listing]
  | cons r rs ih =>
    rw [List.foldl_cons, ih, writeToken_out, List.append_assoc]
    rfl

theorem write_decoded (verbose : Bool) (source : List Char) (name : String) (terminal : Bool) :
    (write verbose ⟨name, ⟨source, none⟩, terminal⟩).exitCode = .success ∧
      (write verbose ⟨name, ⟨source, none⟩, terminal⟩).console.out.toList =
        Token.listing ((Scanner.ofSource source name).tokens.map Prod.fst) := by
  have hout := writeTokens_out verbose .empty (Scanner.ofSource source name).tokens
  refine ⟨rfl, ?_⟩
  cases verbose with
  | true => exact hout
  | false => exact hout

/-- The invocation asks for nothing but the tokens of a source that can be opened and decoded. -/
def Lists (i : Invocation) (source : List Char) (name : String) : Prop :=
  ∃ a terminal, Arguments.read spec.options i.arguments = .ok a ∧
    (a.settings.find? fun e => e.1 = .version || e.1 = .help) = none ∧
    i.open? a.operands = .ok ⟨name, ⟨source, none⟩, terminal⟩ ∧ a.operands.drop 1 = []

theorem run_of_lists {i : Invocation} {source : List Char} {name : String}
    (h : Lists i source name) :
    (run i).exitCode = .success ∧
      (run i).console.out.toList =
        Token.listing ((Scanner.ofSource source name).tokens.map Prod.fst) := by
  obtain ⟨a, terminal, hread, hask, hopen, hoperands⟩ := h
  have hrun : run i = write (a.has .verbose) ⟨name, ⟨source, none⟩, terminal⟩ := by
    simp only [run, CommandSpec.run, hread, hask, body, hopen, Invocation.checkOperands, hoperands]
    rfl
  rw [hrun]
  exact write_decoded _ source name terminal

/-- The token command lists every token up to the first end of the input by a row of its own. A row
is one line however texts are broken into lines, its value is the one the scanner holds just then,
and two listings are the same exactly if their tokens have the same contents. -/
theorem run_lossless {i : Invocation} {source : List Char} {name : String}
    (h : Lists i source name) :
    let tokens := (Scanner.ofSource source name).tokens
    (run i).exitCode = .success ∧
      (run i).console.out.toList = Token.listing (tokens.map Prod.fst) ∧
      (∃ body e, tokens = body ++ [e] ∧ (∀ r ∈ body, r.1.isEnd = false) ∧ e.1.isEnd = true) ∧
      (∀ r ∈ tokens, r.2.row r.1 = r.1.row ∧ ∀ c ∈ lineBreaks, c ∉ r.1.row.toList) ∧
      ∀ (j : Invocation) (source' : List Char) (name' : String), Lists j source' name' →
        ((run j).console.out = (run i).console.out ↔
          ((Scanner.ofSource source' name').tokens.map fun r => r.1.content) =
            tokens.map fun r => r.1.content) := by
  intro tokens
  obtain ⟨hcode, hout⟩ := run_of_lists h
  obtain ⟨body, e, htokens, hbody, hend, -⟩ := (Scanner.ofSource source name).tokens_end
  refine ⟨hcode, hout, ⟨body, e, htokens, hbody, hend⟩, ?_, ?_⟩
  · intro r hr
    exact ⟨Scanner.row_of_mem_tokens hr, r.1.allPrintable_row.lineBreak_notMem⟩
  · intro j source' name' hj
    rw [← String.toList_inj, (run_of_lists hj).2, hout, Token.listing_eq_iff, List.map_map,
      List.map_map]
    rfl

/-- A tab shows as little as a comment at the end, but a second blank moves what follows. -/
theorem run_lossless_tab :
    let i (text : String) : Invocation :=
      ⟨[], fun _ => none, text.toList.map Char.toNat, false, fun _ => .error "", fun _ => none⟩
    (run (i "a\t1.50")).console.out = (run (i "a 1.5#")).console.out ∧
      (run (i "a  1.5")).console.out ≠ (run (i "a 1.5#")).console.out := by
  intro i
  have hlists : ∀ text : String,
      SourceText.decode (text.toList.map Char.toNat) = ⟨text.toList, none⟩ →
      Lists (i text) text.toList "<stdin>" := by
    intro text hdecode
    have hopen : (i text).open? [] = .ok ⟨"<stdin>", ⟨text.toList, none⟩, false⟩ :=
      hdecode ▸ rfl
    exact ⟨⟨[], []⟩, false, rfl, rfl, hopen, rfl⟩
  have h := run_lossless (hlists "a 1.5#" (by decide +kernel))
  have htab := h.2.2.2.2 _ _ _ (hlists "a\t1.50" (by decide +kernel))
  have hblanks := h.2.2.2.2 _ _ _ (hlists "a  1.5" (by decide +kernel))
  exact ⟨htab.mpr (by decide +kernel), fun hout => absurd (hblanks.mp hout) (by decide +kernel)⟩

end TokenCommand

end ExprFront
