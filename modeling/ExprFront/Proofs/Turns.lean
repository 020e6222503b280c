import ExprFront.Program.Result
import ExprFront.Proofs.Attempts

/-!
# Turns

What a turn does at the lookahead of its session. The end of the input ends the session, a
semicolon is dropped, and any other token starts a unit, which either is derived or fails. Only
failures report diagnostics, one each.
-/

namespace ExprFront
set_option autoImplicit false
open Grammar

/-! ## Parsers between turns -/

namespace Parser

def lookahead (p : Parser) : Lookahead :=
  match p.current with
  | some t => ⟨t, p.scanner⟩
  | none => .ofScanner p.scanner

theorem prime_at (p : Parser) : p.prime.At p.lookahead := by
  unfold prime lookahead
  cases h : p.current with
  | none => exact p.moveTo_at _
  | some t => exact ⟨h, rfl⟩

theorem lookahead_of_at {p : Parser} {l : Lookahead} (h : p.At l) : p.lookahead = l := by
  simp only [lookahead, h.1, h.2]

theorem prime_errors (p : Parser) : p.prime.errors = p.errors := by
  unfold prime
  split <;> rfl

theorem prime_table (p : Parser) : p.prime.table = p.table := by
  unfold prime
  split <;> rfl

theorem prime_anonymous (p : Parser) : p.prime.anonymous = p.anonymous := by
  unfold prime
  split <;> rfl

end Parser

/-! ## Dispatching -/

theorem Turn.eq_unit_of_unit? {t : Turn} {u : SourceUnit} (h : t.unit? = some u) :
    t = .unit u := by
  cases t with
  | unit v => exact congrArg Turn.unit (Option.some.inj h)
  | endOfInput | separator | aborted | idle => simp [Turn.unit?] at h

namespace Session

def lookahead (s : Session) : Lookahead := s.parser.lookahead

theorem lookahead_scanner {s : Session} (h : s.parser.current.isSome = true) :
    s.lookahead.scanner = s.parser.scanner := by
  obtain ⟨t, ht⟩ := Option.isSome_iff_exists.mp h
  simp only [lookahead, Parser.lookahead, ht]

theorem current_prime (s : Session) : s.parser.prime.current = some s.lookahead.token :=
  s.parser.prime_at.1

theorem dispatch_end {s : Session} (he : s.lookahead.token.isEnd = true) :
    s.dispatch = (.endOfInput, { s with parser := s.parser.prime, stage := .finished }) := by
  simp only [dispatch, s.current_prime, he, if_true]

theorem dispatch_separator {s : Session} (hs : s.lookahead.token.lexeme = .char ';') :
    s.dispatch = (.separator, { s with parser := s.parser.prime.advance, stage := .running }) := by
  have he := Token.isEnd_of_char hs
  simp only [dispatch, s.current_prime, he, hs, if_true, Bool.false_eq_true, if_false]

theorem dispatch_unit {s : Session} (he : s.lookahead.token.isEnd = false)
    (hs : s.lookahead.token.lexeme ≠ .char ';') {u : SourceUnit} {q : Parser}
    (hu : s.parser.prime.unit s.lookahead.token = (u, q)) :
    s.dispatch = (.unit u, { s with parser := q, stage := stageAfter u }) := by
  simp only [dispatch, s.current_prime, he, hs, hu, Bool.false_eq_true, if_false]

/-- The session takes its next turn at its lookahead. -/
def Ready (s : Session) : Prop :=
  s.stage = .running ∨ s.stage = .afterFailure ∧ s.parser.errors.isFull = false

theorem Ready.turn_eq_dispatch {s : Session} (h : s.Ready) : s.turn = s.dispatch := by
  obtain h | ⟨h, hf⟩ := h
  · simp only [turn, h]
  · simp only [turn, h, hf, Bool.false_eq_true, if_false]

/-! ## What a turn comes to -/

def atEnd (s : Session) : Session :=
  ⟨s.parser.prime, .finished, s.aborted⟩

/-- The session moved on to a lookahead. -/
def moveTo (s : Session) (m : Lookahead) : Session :=
  ⟨s.parser.prime.moveTo m, .running, s.aborted⟩

/-- The session with the refusal of a token reported and the token skipped. -/
def skip (s : Session) (m : Lookahead) (cause : Refusal) : Session :=
  ⟨(s.parser.prime.reported m cause).moveTo m.advance, .afterFailure, s.aborted⟩

theorem lookahead_atEnd (s : Session) : s.atEnd.lookahead = s.lookahead :=
  Parser.lookahead_of_at s.parser.prime_at

theorem lookahead_moveTo (s : Session) (m : Lookahead) : (s.moveTo m).lookahead = m := rfl

theorem lookahead_skip (s : Session) (m : Lookahead) (cause : Refusal) :
    (s.skip m cause).lookahead = m.advance := rfl

theorem ready_moveTo (s : Session) (m : Lookahead) : (s.moveTo m).Ready := .inl rfl

theorem errors_moveTo (s : Session) (m : Lookahead) :
    (s.moveTo m).parser.errors = s.parser.errors := s.parser.prime_errors

theorem errors_skip (s : Session) (m : Lookahead) (cause : Refusal) :
    (s.skip m cause).parser.errors = s.parser.errors.add (m.diagnostic cause) :=
  congrArg (Collector.add · (m.diagnostic cause)) s.parser.prime_errors

theorem table_moveTo (s : Session) (m : Lookahead) :
    (s.moveTo m).parser.table = s.parser.table := s.parser.prime_table

theorem anonymous_moveTo (s : Session) (m : Lookahead) :
    (s.moveTo m).parser.anonymous = s.parser.anonymous := s.parser.prime_anonymous

theorem table_skip (s : Session) (m : Lookahead) (cause : Refusal) :
    (s.skip m cause).parser.table = s.parser.table := s.parser.prime_table

theorem anonymous_skip (s : Session) (m : Lookahead) (cause : Refusal) :
    (s.skip m cause).parser.anonymous = s.parser.anonymous := s.parser.prime_anonymous

/-- What a turn has come to, and the session after it. -/
inductive Taken (s : Session) : Turn × Session → Prop
  | endOfInput (he : s.lookahead.token.isEnd = true) : Taken s (.endOfInput, s.atEnd)
  | separator (hs : s.lookahead.token.lexeme = .char ';') :
      Taken s (.separator, s.moveTo s.lookahead.advance)
  | derived {ts : List Token} {m : Lookahead} {u : SourceUnit} (hr : s.lookahead.Reads ts m)
      (hu : UnitOf s.parser.table s.parser.anonymous ts u) : Taken s (.unit u, s.moveTo m)
  | failed {ts : List Token} {m : Lookahead} {cause : Refusal}
      (he : s.lookahead.token.isEnd = false) (hr : s.lookahead.Reads ts m)
      (hf : Parser.Refuses s.parser.table (.ofLexeme s.lookahead.token.lexeme) ts m.token) :
      Taken s (.unit (.failure (some (m.diagnostic cause))), s.skip m cause)

theorem stageAfter_of_unitOf {table : OperatorTable} {anonymous : String} {ts : List Token}
    {u : SourceUnit} (h : UnitOf table anonymous ts u) : stageAfter u = .running := by
  cases h <;> rfl

theorem Ready.taken {s : Session} (h : s.Ready) : s.Taken s.turn := by
  rw [h.turn_eq_dispatch]
  by_cases he : s.lookahead.token.isEnd = true
  · rw [dispatch_end he]
    exact .endOfInput he
  · by_cases hs : s.lookahead.token.lexeme = .char ';'
    · rw [dispatch_separator hs, Parser.advance_of_at s.parser.prime_at]
      exact .separator hs
    · have he : s.lookahead.token.isEnd = false := by simpa using he
      obtain ⟨ts, m, u, hr, hu, hunit⟩ | ⟨ts, m, cause, hr, hf, hunit⟩ :=
        Parser.unit_cases s.parser.prime_at he
      · rw [dispatch_unit he hs hunit, stageAfter_of_unitOf hu]
        rw [s.parser.prime_table, s.parser.prime_anonymous] at hu
        exact .derived hr hu
      · rw [dispatch_unit he hs hunit, Parser.advance_of_at (Parser.reported_at _ m cause)]
        rw [s.parser.prime_table] at hf
        exact .failed he hr hf

theorem Ready.turn_of_derived {s : Session} (h : s.Ready) {ts : List Token} {m : Lookahead}
    {u : SourceUnit} (hr : s.lookahead.Reads ts m)
    (hu : UnitOf s.parser.table s.parser.anonymous ts u)
    (hs : Stops s.parser.table ts m.token) : s.turn = (.unit u, s.moveTo m) := by
  have hstage := stageAfter_of_unitOf hu
  have hread := hr
  obtain ⟨t, us, rfl, ht⟩ := hu.opens
  obtain ⟨rfl, he, -⟩ := hread
  rw [← s.parser.prime_table] at hs
  rw [← s.parser.prime_table, ← s.parser.prime_anonymous] at hu
  have hunit := Parser.unit_of_derived s.parser.prime_at hr hu hs
  rw [h.turn_eq_dispatch, dispatch_unit he ht.ne_separator hunit, hstage]
  rfl

theorem Ready.turn_of_isEnd {s : Session} (h : s.Ready) (he : s.lookahead.token.isEnd = true) :
    s.turn = (.endOfInput, s.atEnd) := by
  rw [h.turn_eq_dispatch, dispatch_end he]
  rfl

theorem Ready.turn_of_separator {s : Session} (h : s.Ready)
    (hs : s.lookahead.token.lexeme = .char ';') :
    s.turn = (.separator, s.moveTo s.lookahead.advance) := by
  rw [h.turn_eq_dispatch, dispatch_separator hs, Parser.advance_of_at s.parser.prime_at]
  rfl

/-! ## Sequences of turns -/

def final (s : Session) : Session := s.afterBeats s.beats

theorem beats_of_turn {s s' : Session} {t : Turn} (h : s.turn = (t, s'))
    (hc : continues t = true) : s.beats = ⟨s, t, s'⟩ :: s'.beats := by
  rw [beats, dif_pos (by rw [h]; exact hc), h]

theorem beats_of_last_turn {s s' : Session} {t : Turn} (h : s.turn = (t, s'))
    (hc : continues t = false) : s.beats = [⟨s, t, s'⟩] := by
  rw [beats, dif_neg (by rw [h]; simp [hc]), h]

theorem afterBeats_cons (s : Session) (b : Beat) (bs : List Beat) :
    s.afterBeats (b :: bs) = b.after.afterBeats bs := by
  unfold afterBeats
  rw [List.getLast?_cons]
  cases bs.getLast? <;> rfl

theorem final_of_turn {s s' : Session} {t : Turn} (h : s.turn = (t, s'))
    (hc : continues t = true) : s.final = s'.final := by
  rw [final, final, beats_of_turn h hc, afterBeats_cons]

theorem final_of_last_turn {s s' : Session} {t : Turn} (h : s.turn = (t, s'))
    (hc : continues t = false) : s.final = s' := by
  rw [final, beats_of_last_turn h hc]
  rfl

theorem unitsOf_cons (b : Beat) (bs : List Beat) :
    unitsOf (b :: bs) = b.turn.unit?.toList ++ unitsOf bs := by
  rw [unitsOf, unitsOf, List.filterMap_cons]
  cases b.turn.unit? <;> rfl

theorem unitsOf_of_turn {s s' : Session} {t : Turn} (h : s.turn = (t, s'))
    (hc : continues t = true) : unitsOf s.beats = t.unit?.toList ++ unitsOf s'.beats := by
  rw [beats_of_turn h hc, unitsOf_cons]

theorem unitsOf_of_last_turn {s s' : Session} {t : Turn} (h : s.turn = (t, s'))
    (hc : continues t = false) : unitsOf s.beats = [] := by
  rw [beats_of_last_turn h hc]
  cases t with
  | separator | unit => simp [continues] at hc
  | endOfInput | aborted | idle => rfl

/-! ## Whole sessions -/

/-- The session has not ended and stands at what its scanner has scanned last. -/
structure Live (s : Session) : Prop where
  unfinished : s.stage ≠ .finished
  scanned : s.lookahead.Scanned

def stop (s : Session) : Session :=
  ⟨s.parser, .finished, true⟩

theorem turn_of_isFull {s : Session} (hs : s.stage = .afterFailure)
    (hf : s.parser.errors.isFull = true) : s.turn = (.aborted, s.stop) := by
  simp only [turn, hs, hf, if_true]
  rfl

theorem Live.ready_or_isFull {s : Session} (h : s.Live) :
    s.Ready ∨ s.stage = .afterFailure ∧ s.parser.errors.isFull = true := by
  cases hs : s.stage with
  | running => exact .inl (.inl hs)
  | finished => exact absurd hs h.unfinished
  | afterFailure =>
    cases hf : s.parser.errors.isFull with
    | true => exact .inr ⟨rfl, rfl⟩
    | false => exact .inl (.inr ⟨hs, hf⟩)

theorem live_moveTo (s : Session) {m : Lookahead} (hm : m.Scanned) : (s.moveTo m).Live :=
  ⟨Stage.noConfusion, hm⟩

theorem live_skip (s : Session) (m : Lookahead) (cause : Refusal) : (s.skip m cause).Live :=
  ⟨Stage.noConfusion, .advance m⟩

/-- What holds of a session whose next turn is the last one, and of a session before any other turn
if it holds after that, holds of every live session. -/
theorem Live.induction {motive : ∀ s : Session, s.Live → Prop}
    (aborted : ∀ (s : Session) (h : s.Live), s.turn = (.aborted, s.stop) → motive s h)
    (endOfInput : ∀ (s : Session) (h : s.Live), s.lookahead.token.isEnd = true →
      s.turn = (.endOfInput, s.atEnd) → motive s h)
    (separator : ∀ (s : Session) (h : s.Live), s.lookahead.token.lexeme = .char ';' →
      s.turn = (.separator, s.moveTo s.lookahead.advance) →
      ∀ h' : (s.moveTo s.lookahead.advance).Live, motive _ h' → motive s h)
    (derived : ∀ (s : Session) (h : s.Live) (ts : List Token) (m : Lookahead) (u : SourceUnit),
      s.lookahead.Reads ts m → UnitOf s.parser.table s.parser.anonymous ts u →
      s.turn = (.unit u, s.moveTo m) → ∀ h' : (s.moveTo m).Live, motive _ h' → motive s h)
    (failed : ∀ (s : Session) (h : s.Live) (ts : List Token) (m : Lookahead) (cause : Refusal),
      s.lookahead.token.isEnd = false → s.lookahead.Reads ts m →
      Parser.Refuses s.parser.table (.ofLexeme s.lookahead.token.lexeme) ts m.token →
      s.turn = (.unit (.failure (some (m.diagnostic cause))), s.skip m cause) →
      ∀ h' : (s.skip m cause).Live, motive _ h' → motive s h)
    (s : Session) (h : s.Live) : motive s h := by
  -- By the recursion of `beats`. No turn leaves the live sessions but the last one.
  fun_induction beats s with
  | case1 s beat hc ih =>
    obtain hready | ⟨hs, hf⟩ := h.ready_or_isFull
    · have ht := hready.taken
      generalize hr : s.turn = r at ht hc ih
      cases ht with
      | endOfInput => simp [continues] at hc
      | separator hs => exact separator s h hs hr (s.live_moveTo (.advance _)) (ih _)
      | derived hreads hu =>
        exact derived s h _ _ _ hreads hu hr (s.live_moveTo (hreads.scanned h.scanned)) (ih _)
      | @failed ts m cause he hreads hf =>
        exact failed s h _ _ _ he hreads hf hr (s.live_skip m cause) (ih _)
    · rw [turn_of_isFull hs hf] at hc
      simp [continues] at hc
  | case2 s beat hc =>
    obtain hready | ⟨hs, hf⟩ := h.ready_or_isFull
    · have ht := hready.taken
      generalize hr : s.turn = r at ht hc
      cases ht with
      | endOfInput he => exact endOfInput s h he hr
      | separator | derived | failed => simp [continues] at hc
    · exact aborted s h (turn_of_isFull hs hf)

theorem Live.taken {s s' : Session} {t : Turn} (h : s.Live) (ht : s.turn = (t, s'))
    (hne : t ≠ .aborted) : s.Taken (t, s') := by
  obtain hready | ⟨hs, hf⟩ := h.ready_or_isFull
  · rw [← ht]
    exact hready.taken
  · rw [turn_of_isFull hs hf] at ht
    exact absurd (congrArg Prod.fst ht).symm hne

/-- A unit that is no failure is derived from the tokens that its turn reads. -/
theorem Live.derived_of_unit {s s' : Session} {u : SourceUnit} (h : s.Live)
    (ht : s.turn = (.unit u, s')) (hu : u.kind ≠ .failure) :
    ∃ ts, s.lookahead.Reads ts s'.lookahead ∧
      UnitOf s.parser.table s.parser.anonymous ts u := by
  have htaken := h.taken ht (by simp)
  cases htaken with
  | derived hr hunit => exact ⟨_, hr, hunit⟩
  | failed => exact absurd rfl hu

/-- Every beat is the turn of a live session, and no turn changes the table or the name of bare
expressions. -/
theorem Live.forall_beats {s : Session} (h : s.Live) :
    ∀ b ∈ s.beats, b.before.Live ∧ b.before.turn = (b.turn, b.after) ∧
      b.before.parser.table = s.parser.table ∧
      b.before.parser.anonymous = s.parser.anonymous := by
  induction s, h using Live.induction with
  | aborted s h ht =>
    rw [beats_of_last_turn ht rfl, List.forall_mem_singleton]
    exact ⟨h, ht, rfl, rfl⟩
  | endOfInput s h he ht =>
    rw [beats_of_last_turn ht rfl, List.forall_mem_singleton]
    exact ⟨h, ht, rfl, rfl⟩
  | separator s h hs ht h' ih =>
    rw [beats_of_turn ht rfl, List.forall_mem_cons]
    rw [table_moveTo, anonymous_moveTo] at ih
    exact ⟨⟨h, ht, rfl, rfl⟩, ih⟩
  | derived s h ts m u hr hu ht h' ih =>
    rw [beats_of_turn ht rfl, List.forall_mem_cons]
    rw [table_moveTo, anonymous_moveTo] at ih
    exact ⟨⟨h, ht, rfl, rfl⟩, ih⟩
  | failed s h ts m cause he hr hf ht h' ih =>
    rw [beats_of_turn ht rfl, List.forall_mem_cons]
    rw [table_skip, anonymous_skip] at ih
    exact ⟨⟨h, ht, rfl, rfl⟩, ih⟩

/-- What every advance keeps holds before and after every turn. -/
theorem Live.keeps {P : Lookahead → Prop} (hadvance : ∀ l, P l → P l.advance) {s : Session}
    (h : s.Live) (hs : P s.lookahead) :
    ∀ b ∈ s.beats, P b.before.lookahead ∧ P b.after.lookahead := by
  induction s, h using Live.induction with
  | aborted s h ht =>
    rw [beats_of_last_turn ht rfl, List.forall_mem_singleton]
    exact ⟨hs, hs⟩
  | endOfInput s h he ht =>
    rw [beats_of_last_turn ht rfl, List.forall_mem_singleton, lookahead_atEnd]
    exact ⟨hs, hs⟩
  | separator s h hsep ht h' ih =>
    have hs' := hadvance _ hs
    rw [beats_of_turn ht rfl, List.forall_mem_cons]
    exact ⟨⟨hs, hs'⟩, ih hs'⟩
  | derived s h ts m u hr hu ht h' ih =>
    have hs' := hr.keeps hadvance hs
    rw [beats_of_turn ht rfl, List.forall_mem_cons]
    exact ⟨⟨hs, hs'⟩, ih hs'⟩
  | failed s h ts m cause he hr hf ht h' ih =>
    have hs' := hadvance m (hr.keeps hadvance hs)
    rw [beats_of_turn ht rfl, List.forall_mem_cons]
    exact ⟨⟨hs, hs'⟩, ih hs'⟩

/-- A live session that takes its next turn at its lookahead and has no limit to abort it later. -/
structure Steady (s : Session) : Prop extends Live s where
  ready : s.Ready
  unlimited : s.parser.errors.limit = none

theorem Steady.moveTo {s : Session} (h : s.Steady) {m : Lookahead} (hm : m.Scanned) :
    (s.moveTo m).Steady where
  toLive := s.live_moveTo hm
  ready := s.ready_moveTo m
  unlimited := by rw [errors_moveTo, h.unlimited]

theorem Steady.skip {s : Session} (h : s.Steady) (m : Lookahead) (cause : Refusal) :
    (s.skip m cause).Steady where
  toLive := s.live_skip m cause
  ready := .inr ⟨rfl, by
    rw [Collector.isFull, errors_skip]
    simp only [Collector.add, h.unlimited]⟩
  unlimited := by rw [errors_skip, ← h.unlimited]; rfl

/-- What holds of a session at the end of its input, and of a session before a turn if it holds
after that, holds of every steady session. -/
theorem Steady.induction {motive : ∀ s : Session, s.Steady → Prop}
    (endOfInput : ∀ (s : Session) (h : s.Steady), s.lookahead.token.isEnd = true →
      s.turn = (.endOfInput, s.atEnd) → motive s h)
    (separator : ∀ (s : Session) (h : s.Steady), s.lookahead.token.lexeme = .char ';' →
      s.turn = (.separator, s.moveTo s.lookahead.advance) →
      ∀ h' : (s.moveTo s.lookahead.advance).Steady, motive _ h' → motive s h)
    (derived : ∀ (s : Session) (h : s.Steady) (ts : List Token) (m : Lookahead) (u : SourceUnit),
      s.lookahead.Reads ts m → UnitOf s.parser.table s.parser.anonymous ts u →
      s.turn = (.unit u, s.moveTo m) → ∀ h' : (s.moveTo m).Steady, motive _ h' → motive s h)
    (failed : ∀ (s : Session) (h : s.Steady) (ts : List Token) (m : Lookahead) (cause : Refusal),
      s.lookahead.token.isEnd = false → s.lookahead.Reads ts m →
      s.turn = (.unit (.failure (some (m.diagnostic cause))), s.skip m cause) →
      ∀ h' : (s.skip m cause).Steady, motive _ h' → motive s h)
    (s : Session) (h : s.Steady) : motive s h := by
  induction s, h.toLive using Live.induction with
  | aborted s _ ht =>
    -- Without a limit the collector is never full.
    have htaken := h.ready.taken
    rw [ht] at htaken
    cases htaken
  | endOfInput s _ he ht => exact endOfInput s h he ht
  | separator s _ hs ht _ ih =>
    have h' := h.moveTo (.advance s.lookahead)
    exact separator s h hs ht h' (ih h')
  | derived s _ ts m u hr hu ht _ ih =>
    have h' := h.moveTo (hr.scanned h.scanned)
    exact derived s h ts m u hr hu ht h' (ih h')
  | failed s _ ts m cause he hr _ ht _ ih =>
    have h' := h.skip m cause
    exact failed s h ts m cause he hr ht h' (ih h')

theorem Steady.final_aborted {s : Session} (h : s.Steady) : s.final.aborted = s.aborted := by
  induction s, h using Steady.induction with
  | endOfInput s h he ht => rw [final_of_last_turn ht rfl]; rfl
  | separator s h hs ht h' ih => rw [final_of_turn ht rfl, ih]; rfl
  | derived s h ts m u hr hu ht h' ih => rw [final_of_turn ht rfl, ih]; rfl
  | failed s h ts m cause he hr ht h' ih => rw [final_of_turn ht rfl, ih]; rfl

theorem Live.final_current {s : Session} (h : s.Live)
    (hs : s.stage = .running ∨ s.parser.current.isSome = true) :
    s.final.parser.current.isSome = true := by
  induction s, h using Live.induction with
  | aborted s h ht =>
    rw [final_of_last_turn ht rfl]
    obtain hs | hs := hs
    · have htaken := Ready.taken (.inl hs)
      rw [ht] at htaken
      cases htaken
    · exact hs
  | endOfInput s h he ht =>
    rw [final_of_last_turn ht rfl, atEnd, s.current_prime]
    rfl
  | separator s h hsep ht h' ih =>
    rw [final_of_turn ht rfl]
    exact ih (.inl rfl)
  | derived s h ts m u hr hu ht h' ih =>
    rw [final_of_turn ht rfl]
    exact ih (.inl rfl)
  | failed s h ts m cause he hr hf ht h' ih =>
    rw [final_of_turn ht rfl]
    exact ih (.inr rfl)

end Session

/-! ## Sessions on a source -/

namespace Options

theorem ready_session (o : Options) (source : List Char) (name : Option String) :
    (o.session source name).Ready := .inl rfl

theorem live_session (o : Options) (source : List Char) (name : Option String) :
    (o.session source name).Live :=
  ⟨Stage.noConfusion, .ofScanner _⟩

theorem steady_session {o : Options} (h : o.limit = none) (source : List Char)
    (name : Option String) : (o.session source name).Steady :=
  ⟨o.live_session source name, .inl rfl, h⟩

/-- The tokens of a source before its end. -/
def tokensOf (o : Options) (source : List Char) (name : Option String) : List Token :=
  (Scanner.ofSource source (o.nameOf name)).tokensBeforeEnd

theorem upcoming_session (o : Options) (source : List Char) (name : Option String) :
    (o.session source name).lookahead.upcoming = o.tokensOf source name :=
  Scanner.upcoming_ofScanner _

end Options

end ExprFront
