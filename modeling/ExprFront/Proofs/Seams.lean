import ExprFront.Proofs.Layout
import ExprFront.Proofs.Resumption

/-!
# Where one program goes on as another

A program that has no errors may have another one on the next lines, behind a semicolon. Up to the
semicolon a session reads the tokens of the first program alone and makes the same units of them,
since an expression ends in front of a semicolon as it does at the end of the input.
-/

namespace ExprFront
set_option autoImplicit false
open Grammar

/-! ## Behind the first program -/

/-- What follows the first of two programs. -/
def following (b : List Char) : List Char := '\n' :: ';' :: '\n' :: b

theorem apart_following (b : List Char) : Apart (following b) := by
  rintro c ⟨⟩
  exact apart_of_isBlank rfl

/-- The line feed closes a comment that was open at the end. -/
theorem IsGap.closed {g : List Char} (hg : IsGap [] g) (rest : List Char) :
    IsGap rest (g ++ ['\n']) := by
  induction hg with
  | nil => exact .blank rfl .nil
  | blank hc hg ih => exact .blank hc ih
  | @comment body g hbody hend hg ih =>
    rw [List.cons_append, List.append_assoc]
    refine .comment hbody ?_ ih
    cases g with
    | nil =>
      rintro c ⟨⟩
      rfl
    | cons d g => exact fun c hc => hend c hc

/-- A lexeme does not go on into what follows the program. -/
theorem lexemeAt_following {rest : List Char} (hne : rest ≠ []) (hr : NoGap rest) (b : List Char) :
    lexemeAt (rest ++ following b) = lexemeAt rest := by
  obtain ⟨l, rest, rfl, hl⟩ := exists_isLexeme hne hr
  rw [List.append_assoc]
  refine (hl.congr ?_).2
  cases rest with
  | nil => exact .inr (apart_following b)
  | cons c rest => exact .inl rfl

theorem NoGap.append {rest : List Char} (h : NoGap rest) (hne : rest ≠ []) (cs : List Char) :
    NoGap (rest ++ cs) := by
  obtain ⟨c, rest, rfl⟩ := List.exists_cons_of_ne_nil hne
  exact h

theorem head?_append_of_ne_nil {rest : List Char} (hne : rest ≠ []) (cs : List Char) :
    (rest ++ cs).head? = rest.head? := by
  obtain ⟨c, rest, rfl⟩ := List.exists_cons_of_ne_nil hne
  rfl

/-! ## Lookaheads on the first program -/

/-- The first lookahead is on the program `a` with `following b` behind it, the second one on `a`
alone. They stand at the same token, or at the semicolon and at the end. -/
inductive Seam (filename : String) (a b : List Char) (l m : Lookahead) : Prop
  | inside {before rest : List Char} (ha : a = before ++ rest) (hne : rest ≠ [])
      (hl : l.Stands filename before (rest ++ following b)) (hm : m.Stands filename before rest)
      (hcount : l.scanner.count = m.scanner.count)
  | behind (hl : l.Stands filename (a ++ ['\n']) (';' :: '\n' :: b)) (hm : m.token.isEnd = true)
      (hcount : l.scanner.count = m.scanner.count)

section
variable {filename : String} {a b : List Char} {l m : Lookahead}

/-- Behind the next gap both stand at the same token, unless that gap goes on to the end. -/
theorem seam_of_gap {before r : List Char} (ha : a = before ++ r)
    (hl : ∀ g rest, r ++ following b = g ++ rest → IsGap rest g → NoGap rest →
      l.Stands filename (before ++ g) rest)
    (hm : ∀ g rest, r = g ++ rest → IsGap rest g → NoGap rest → m.Stands filename (before ++ g) rest)
    (hcount : l.scanner.count = m.scanner.count) : Seam filename a b l m := by
  obtain ⟨g, rest, rfl, hg, hr⟩ := (exists_isGap r).1
  have hstands := hm g rest rfl hg hr
  by_cases hne : rest = []
  · -- The gap at the end goes on over the line feed up to the semicolon.
    subst hne
    have hsemicolon : NoGap (';' :: '\n' :: b) := by
      rintro c ⟨⟩
      decide
    have hend : m.token.isEnd = true := by
      rw [Token.isEnd, hstands.token]
      rfl
    have hbehind := hl (g ++ ['\n']) (';' :: '\n' :: b) (by simp [following]) (hg.closed _) hsemicolon
    rw [List.append_nil] at ha
    rw [← List.append_assoc, ← ha] at hbehind
    exact .behind hbehind hend hcount
  · have hinside := hl g (rest ++ following b) (List.append_assoc _ _ _)
      (hg.congr (head?_append_of_ne_nil hne _)) (hr.append hne _)
    rw [← List.append_assoc] at ha
    exact .inside ha hne hinside hstands hcount

theorem seam_ofSource (filename : String) (a b : List Char) :
    Seam filename a b (.ofScanner (.ofSource (a ++ following b) filename))
      (.ofScanner (.ofSource a filename)) := by
  refine seam_of_gap (List.nil_append a).symm ?_ ?_ rfl
  · intro g rest hsource hg hr
    rw [hsource]
    exact Scanner.stands_ofSource filename hg hr
  · intro g rest hsource hg hr
    rw [hsource]
    exact Scanner.stands_ofSource filename hg hr

namespace Seam

theorem token_eq (h : Seam filename a b l m) (he : m.token.isEnd = false) : l.token = m.token := by
  cases h with
  | inside ha hne hl hm => rw [hl.token, hm.token, lexemeAt_following hne hm.noGap]
  | behind hl hm => rw [hm] at he; simp at he

theorem stands (h : Seam filename a b l m) (he : m.token.isEnd = true) :
    l.Stands filename (a ++ ['\n']) (';' :: '\n' :: b) := by
  cases h with
  | inside ha hne hl hm =>
    rw [Token.isEnd, hm.token, beq_iff_eq, lexemeAt_eq_end_iff] at he
    exact absurd he hne
  | behind hl => exact hl

theorem separator (h : Seam filename a b l m) (he : m.token.isEnd = true) :
    l.token.lexeme = .char ';' := by
  rw [(h.stands he).token]
  rfl

theorem count (h : Seam filename a b l m) : l.scanner.count = m.scanner.count := by
  cases h <;> assumption

theorem advance (h : Seam filename a b l m) (he : m.token.isEnd = false) :
    Seam filename a b l.advance m.advance := by
  have hcount := h.count
  cases h with
  | behind hl hm => rw [hm] at he; simp at he
  | @inside before rest ha hne hl hm =>
    have hlexeme := lexemeAt_following hne hm.noGap b
    have hle := lexemeAt_length_le rest
    have hahead :
        a = before ++ rest.take (lexemeAt rest).2 ++ rest.drop (lexemeAt rest).2 := by
      rw [ha, List.append_assoc, List.take_append_drop]
    refine seam_of_gap hahead ?_ ?_ ?_
    · intro g rest' hsplit hg hr
      have hdrop : (rest ++ following b).drop (lexemeAt (rest ++ following b)).2 = g ++ rest' := by
        rw [hlexeme, List.drop_append_of_le_length hle, hsplit]
      have hadvance := hl.advance hdrop hg hr
      rwa [hlexeme, List.take_append_of_le_length hle] at hadvance
    · intro g rest' hsplit hg hr
      exact hm.advance hsplit hg hr
    · rw [l.advance_count, m.advance_count, hcount]

theorem reads (h : Seam filename a b l m) {ts : List Token} {m' : Lookahead} (hr : m.Reads ts m') :
    ∃ l', l.Reads ts l' ∧ Seam filename a b l' m' := by
  induction ts generalizing l m with
  | nil =>
    obtain rfl : m = m' := hr
    exact ⟨l, rfl, h⟩
  | cons t ts ih =>
    obtain ⟨rfl, he, hr⟩ := hr
    obtain ⟨l', hl', hseam⟩ := ih (h.advance he) hr
    exact ⟨l', ⟨h.token_eq he, he, hl'⟩, hseam⟩

end Seam

/-! ## Units of the first program -/

/-- Every expression stops in front of a semicolon. -/
theorem Grammar.stops_of_separator {table : OperatorTable} (h : table.precedence ';' ≤ 0) {t : Token}
    (ht : t.lexeme = .char ';') (ts : List Token) : Stops table ts t := by
  constructor
  · simp only [Token.isOperator, ht, decide_eq_false_iff_not]
    omega
  · simp [NoCall, ht]

/-- A parse that ends at the end of the input also ends in front of a semicolon. -/
def EndsAtSeparator {σ α : Type} (step : σ → Token → Step σ α) (s : σ) : Prop :=
  ∀ (ts : List Token) (e t : Token) (r : α), t.lexeme = .char ';' → Ends step (step s) ts e r →
    Ends step (step s) ts t r

section
variable {table : OperatorTable}

theorem ExpressionState.endsAtSeparator (h : table.precedence ';' ≤ 0) :
    EndsAtSeparator (step table (some 0)) .start := by
  intro ts e t r ht hends
  rw [ends_start_iff] at hends ⊢
  exact ⟨hends.1, stops_of_separator h ht ts⟩

theorem SignatureState.endsAtSeparator : EndsAtSeparator step .start := by
  intro ts e t r ht hends
  rw [ends_start_iff] at hends ⊢
  exact hends

theorem DefinitionState.endsAtSeparator (h : table.precedence ';' ≤ 0) :
    EndsAtSeparator (step table) (.signature .start) := by
  intro ts e t r ht hends
  rw [ends_start_iff] at hends ⊢
  obtain ⟨ss, es, p, body, hts, hs, he, -, hr⟩ := hends
  exact ⟨ss, es, p, body, hts, hs, he, stops_of_separator h ht es, hr⟩

end

namespace Parser
variable {p q q' : Parser} {u : SourceUnit}

/-- An attempt that succeeds on the first program alone also succeeds if another one follows. -/
theorem concludeUnit_of_seam {σ α : Type} {step : σ → Token → Step σ α} {s : σ}
    (hstep : EndsAtSeparator step s) (hlm : Seam filename a b l m) (hp : p.At l) (hq : q.At m)
    {make : α → SourceUnit} (hu : u.kind ≠ .failure)
    (h : concludeUnit make q.errors.count (q.attempt step s) = (u, q')) :
    ∃ ts l' m', l.Reads ts l' ∧ Seam filename a b l' m' ∧ q' = q.moveTo m' ∧
      concludeUnit make p.errors.count (p.attempt step s) = (u, p.moveTo l') := by
  cases hr : q.attempt step s with
  | mk r q₁ =>
    rw [hr] at h
    cases r with
    | refused | unprimed => exact absurd (congrArg (fun r => r.1.kind) h).symm hu
    | parsed r =>
      obtain ⟨rfl, rfl⟩ : make r = u ∧ q₁ = q' := Prod.mk.inj h
      obtain ⟨m₁, ts, m', hat, hreads, hends, rfl⟩ := attempt_eq_parsed_iff.mp hr
      obtain rfl : m = m₁ := by rw [← lookahead_of_at hq, lookahead_of_at hat]
      obtain ⟨l', hreads', hseam⟩ := hlm.reads hreads
      -- Where the first program ends, the parse stands at the semicolon instead.
      have hends' : Ends step (step s) ts l'.token r := by
        cases he : m'.token.isEnd with
        | true => exact hstep ts _ _ r (hseam.separator he) hends
        | false => rwa [hseam.token_eq he]
      have hparsed := attempt_eq_parsed_iff.mpr ⟨l, ts, l', hp, hreads', hends', rfl⟩
      exact ⟨ts, l', m', hreads', hseam, rfl, congrArg (concludeUnit make _) hparsed⟩

theorem unit_of_seam (hlm : Seam filename a b l m) (hp : p.At l) (hq : q.At m)
    (htable : p.table = q.table) (hanonymous : p.anonymous = q.anonymous)
    (hsemicolon : q.table.precedence ';' ≤ 0) (he : m.token.isEnd = false)
    (hu : u.kind ≠ .failure) (h : q.unit m.token = (u, q')) :
    ∃ ts l' m', l.Reads ts l' ∧ Seam filename a b l' m' ∧ q' = q.moveTo m' ∧
      p.unit l.token = (u, p.moveTo l') := by
  have htoken := hlm.token_eq he
  have hfirst : ∀ {ts l'}, l.advance.Reads ts l' → l.Reads (m.token :: ts) l' :=
    fun hr => ⟨htoken, he, hr⟩
  rw [htoken]
  by_cases hd : m.token.lexeme = .define
  · rw [unit_define hd, definition, advance_of_at hq] at h
    rw [unit_define hd, definition, advance_of_at hp, htable]
    obtain ⟨ts, l', m', hr, hunit⟩ :=
      concludeUnit_of_seam (DefinitionState.endsAtSeparator hsemicolon) (hlm.advance he)
        (p.moveTo_at _) (q.moveTo_at _) hu h
    exact ⟨_, l', m', hfirst hr, hunit⟩
  · by_cases hx : m.token.lexeme = .external
    · rw [unit_external hx, declaration, advance_of_at hq] at h
      rw [unit_external hx, declaration, advance_of_at hp]
      obtain ⟨ts, l', m', hr, hunit⟩ :=
        concludeUnit_of_seam SignatureState.endsAtSeparator (hlm.advance he)
          (p.moveTo_at _) (q.moveTo_at _) hu h
      exact ⟨_, l', m', hfirst hr, hunit⟩
    · rw [unit_expression hd hx] at h
      rw [unit_expression hd hx, expression, htable, hanonymous]
      exact concludeUnit_of_seam (ExpressionState.endsAtSeparator hsemicolon) hlm hp hq hu h

end Parser

/-! ## Turns on the first program -/

namespace Session

/-- The session `s` makes the units `us` and goes on as the session `t`. -/
structure Reaches (s : Session) (us : List SourceUnit) (t : Session) : Prop where
  units : unitsOf s.beats = us ++ unitsOf t.beats
  final : s.final = t.final
  ready : t.Ready
  table : t.parser.table = s.parser.table
  anonymous : t.parser.anonymous = s.parser.anonymous
  errors : t.parser.errors = s.parser.errors
  aborted : t.aborted = s.aborted
  keeps : ∀ P : Lookahead → Prop, (∀ l, P l → P l.advance) → P s.lookahead → P t.lookahead

theorem Ready.reaches {s : Session} (h : s.Ready) : s.Reaches [] s where
  units := rfl
  final := rfl
  ready := h
  table := rfl
  anonymous := rfl
  errors := rfl
  aborted := rfl
  keeps := fun _ _ hs => hs

theorem Reaches.live {s t : Session} {us : List SourceUnit} (h : s.Reaches us t) (hs : s.Live) :
    t.Live where
  unfinished := by
    obtain hstage | ⟨hstage, -⟩ := h.ready <;> simp [hstage]
  scanned := h.keeps _ (fun l _ => .advance l) hs.scanned

theorem Reaches.trans {s t r : Session} {us vs : List SourceUnit} (h : s.Reaches us t)
    (h' : t.Reaches vs r) : s.Reaches (us ++ vs) r where
  units := by rw [h.units, h'.units, List.append_assoc]
  final := h.final.trans h'.final
  ready := h'.ready
  table := h'.table.trans h.table
  anonymous := h'.anonymous.trans h.anonymous
  errors := h'.errors.trans h.errors
  aborted := h'.aborted.trans h.aborted
  keeps := fun P hadvance hs => h'.keeps P hadvance (h.keeps P hadvance hs)

theorem Reaches.turn {s t : Session} {us : List SourceUnit} {turn : Turn} {ts : List Token}
    {m : Lookahead} (h : (s.moveTo m).Reaches us t) (ht : s.turn = (turn, s.moveTo m))
    (hc : continues turn = true) (hr : s.lookahead.Reads ts m) :
    s.Reaches (turn.unit?.toList ++ us) t where
  units := by rw [unitsOf_of_turn ht hc, h.units, List.append_assoc]
  final := by rw [final_of_turn ht hc, h.final]
  ready := h.ready
  table := by rw [h.table, table_moveTo]
  anonymous := by rw [h.anonymous, anonymous_moveTo]
  errors := by rw [h.errors, errors_moveTo]
  aborted := h.aborted
  keeps := fun P hadvance hs => h.keeps P hadvance (hr.keeps hadvance hs)

theorem Ready.reaches_separator {s : Session} (h : s.Ready)
    (hs : s.lookahead.token.lexeme = .char ';') :
    s.Reaches [] (s.moveTo s.lookahead.advance) :=
  (s.ready_moveTo _).reaches.turn (h.turn_of_separator hs) rfl (.single (Token.isEnd_of_char hs))

/-- A unit that is no failure is made in the same way if another program follows. -/
theorem Ready.turn_of_seam {s s' : Session} (h : s.Ready) (h' : s'.Ready)
    (hseam : Seam filename a b s.lookahead s'.lookahead)
    (htable : s.parser.table = s'.parser.table)
    (hanonymous : s.parser.anonymous = s'.parser.anonymous)
    (hsemicolon : s'.parser.table.precedence ';' ≤ 0) {ts : List Token} {u : SourceUnit}
    (hr : s'.lookahead.Reads ts m) (hu : UnitOf s'.parser.table s'.parser.anonymous ts u)
    (ht : s'.turn = (.unit u, s'.moveTo m)) :
    ∃ us l, s.lookahead.Reads us l ∧ Seam filename a b l m ∧ s.turn = (.unit u, s.moveTo l) := by
  obtain ⟨t, ts, rfl, hopens⟩ := hu.opens
  obtain ⟨rfl, he, -⟩ := hr
  have hseparator := hopens.ne_separator
  have htoken := hseam.token_eq he
  rw [h'.turn_eq_dispatch, dispatch_unit he hseparator rfl] at ht
  obtain ⟨hmade, hafter⟩ := Prod.mk.inj ht
  have hunit : s'.parser.prime.unit s'.lookahead.token = (u, s'.parser.prime.moveTo m) :=
    Prod.ext (Turn.unit.inj hmade) (congrArg Session.parser hafter)
  obtain ⟨us, l, m', hr', hseam', hmove, hunit'⟩ := Parser.unit_of_seam hseam s.parser.prime_at
    s'.parser.prime_at (by rw [Parser.prime_table, Parser.prime_table, htable])
    (by rw [Parser.prime_anonymous, Parser.prime_anonymous, hanonymous])
    (by rwa [Parser.prime_table]) he hu.ne_failure hunit
  have hm : m = m' := by
    rw [← Parser.lookahead_of_at (s'.parser.prime.moveTo_at m), hmove]
    exact Parser.lookahead_of_at (s'.parser.prime.moveTo_at m')
  refine ⟨us, l, hr', hm ▸ hseam', ?_⟩
  rw [h.turn_eq_dispatch, dispatch_unit (htoken ▸ he) (htoken ▸ hseparator) hunit',
    stageAfter_of_unitOf hu]
  rfl

/-- The session makes the units of the first program and stands at the semicolon. -/
theorem Steady.reaches_seam {s' : Session} (h' : s'.Steady) {s : Session} (h : s.Ready)
    (hsuccess : ∀ u ∈ unitsOf s'.beats, u.kind ≠ .failure)
    (hseam : Seam filename a b s.lookahead s'.lookahead)
    (htable : s.parser.table = s'.parser.table)
    (hanonymous : s.parser.anonymous = s'.parser.anonymous)
    (hsemicolon : s'.parser.table.precedence ';' ≤ 0) :
    ∃ t, s.Reaches (unitsOf s'.beats) t ∧
      t.lookahead.Stands filename (a ++ ['\n']) (';' :: '\n' :: b) ∧
      t.lookahead.scanner.count = s'.final.parser.scanner.count := by
  induction s', h' using Steady.induction generalizing s with
  | endOfInput s' h' he ht =>
    rw [unitsOf_of_last_turn ht rfl, final_of_last_turn ht rfl]
    refine ⟨s, h.reaches, hseam.stands he, hseam.count.trans ?_⟩
    exact congrArg Scanner.count s'.parser.prime_at.2.symm
  | separator s' h' hsep ht _ ih =>
    have he := Token.isEnd_of_char hsep
    have htoken := hseam.token_eq he
    have hturn := h.turn_of_separator (htoken ▸ hsep)
    rw [unitsOf_of_turn ht rfl] at hsuccess ⊢
    rw [final_of_turn ht rfl]
    obtain ⟨t, hreaches, hstands⟩ := ih (s.ready_moveTo s.lookahead.advance) hsuccess
      (hseam.advance he)
      (by rw [table_moveTo, table_moveTo, htable])
      (by rw [anonymous_moveTo, anonymous_moveTo, hanonymous]) (by rwa [table_moveTo])
    exact ⟨t, hreaches.turn hturn rfl (.single (htoken ▸ he)), hstands⟩
  | derived s' h' ts m u hr hu ht _ ih =>
    obtain ⟨us, l, hr', hseam', hturn⟩ :=
      h.turn_of_seam h'.ready hseam htable hanonymous hsemicolon hr hu ht
    rw [unitsOf_of_turn ht rfl, List.forall_mem_append] at hsuccess
    rw [unitsOf_of_turn ht rfl, final_of_turn ht rfl]
    obtain ⟨t, hreaches, hstands⟩ := ih (s.ready_moveTo l) hsuccess.2 hseam'
      (by rw [table_moveTo, table_moveTo, htable])
      (by rw [anonymous_moveTo, anonymous_moveTo, hanonymous]) (by rwa [table_moveTo])
    exact ⟨t, hreaches.turn hturn rfl hr', hstands⟩
  | failed s' h' ts m cause he hr ht _ ih =>
    rw [unitsOf_of_turn ht rfl] at hsuccess
    exact absurd rfl (hsuccess _ List.mem_cons_self)

end Session

end

end ExprFront
