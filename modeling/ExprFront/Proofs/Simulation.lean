import ExprFront.Proofs.Relocation
import ExprFront.Proofs.Turns

/-!
# Sessions that look alike

Two sessions over different texts can be compared if their locations can be moved to common places.
A relation between lookaheads that reading keeps, and under which tokens are the same once they are
moved, carries over to parses, units and whole sessions.
-/

namespace ExprFront
set_option autoImplicit false

/-! ## Moving units -/

/-- The diagnostic with its location moved. The source line is left out, since it may hold what the
other text does not. -/
def Diagnostic.relocate (f : Location → Location) (d : Diagnostic) : Diagnostic :=
  ⟨d.detail, d.location.map f, none⟩

@[simp] theorem Diagnostic.relocate_detail (f : Location → Location) (d : Diagnostic) :
    (d.relocate f).detail = d.detail := rfl

namespace SourceUnit

def relocate (f : Location → Location) : SourceUnit → SourceUnit
  | .definition d => .definition (d.relocate f)
  | .declaration p => .declaration (p.relocate f)
  | .expression d => .expression (d.relocate f)
  | .failure d => .failure (d.map (Diagnostic.relocate f))

@[simp] theorem relocate_kind (f : Location → Location) (u : SourceUnit) :
    (u.relocate f).kind = u.kind := by
  cases u <;> rfl

@[simp] theorem relocate_diagnostic? (f : Location → Location) (u : SourceUnit) :
    (u.relocate f).diagnostic? = u.diagnostic?.map (Diagnostic.relocate f) := by
  cases u <;> rfl

end SourceUnit

def Turn.relocate (f : Location → Location) : Turn → Turn
  | .unit u => .unit (u.relocate f)
  | t => t

@[simp] theorem Turn.relocate_unit? (f : Location → Location) (t : Turn) :
    (t.relocate f).unit? = t.unit?.map (SourceUnit.relocate f) := by
  cases t <;> rfl

theorem Session.stageAfter_relocate (f : Location → Location) (u : SourceUnit) :
    stageAfter (u.relocate f) = stageAfter u := by
  rw [stageAfter, stageAfter, u.relocate_kind]

theorem Session.continues_relocate (f : Location → Location) (t : Turn) :
    continues (t.relocate f) = continues t := by
  cases t <;> rfl

/-! ## Relations that reading keeps -/

/-- Reading keeps the relation between lookaheads, and related ones have the same token once it is
moved. Reporting on both sides keeps the relation between collectors, and related ones are full
together. -/
structure Simulation (f g : Location → Location) (R : Lookahead → Lookahead → Prop)
    (E : Collector → Collector → Prop) : Prop where
  token : ∀ {l m}, R l m → l.token.relocate f = m.token.relocate g
  advance : ∀ {l m}, R l m → R l.advance m.advance
  add : ∀ {c c'} d d', E c c' → E (c.add d) (c'.add d')
  full : ∀ {c c'}, E c c' → c.isFull = c'.isFull

/-- The collectors hold as many diagnostics and have the same limit. -/
def SameCounts (c c' : Collector) : Prop := c.count = c'.count ∧ c.limit = c'.limit

theorem SameCounts.add {c c' : Collector} (h : SameCounts c c') (d d' : Diagnostic) :
    SameCounts (c.add d) (c'.add d') := by
  refine ⟨?_, h.2⟩
  rw [Collector.count_add, Collector.count_add, h.1]

theorem SameCounts.isFull_eq {c c' : Collector} (h : SameCounts c c') : c.isFull = c'.isFull := by
  simp only [Collector.isFull, h.1, h.2]

section
variable {f g : Location → Location} {R : Lookahead → Lookahead → Prop}
  {E : Collector → Collector → Prop}

namespace Simulation

theorem lexeme (h : Simulation f g R E) {l m : Lookahead} (hlm : R l m) :
    l.token.lexeme = m.token.lexeme := by
  have hlexeme := congrArg Token.lexeme (h.token hlm)
  rwa [Token.relocate_lexeme, Token.relocate_lexeme] at hlexeme

theorem isEnd (h : Simulation f g R E) {l m : Lookahead} (hlm : R l m) :
    l.token.isEnd = m.token.isEnd := by
  simp only [Token.isEnd, h.lexeme hlm]

theorem diagnostic (h : Simulation f g R E) {l m : Lookahead} (hlm : R l m) (cause : Refusal) :
    (l.diagnostic cause).relocate f = (m.diagnostic cause).relocate g := by
  have hlocation := congrArg Token.location (h.token hlm)
  simp only [Token.relocate_location] at hlocation
  simp only [Lookahead.diagnostic, Diagnostic.relocate, h.lexeme hlm, Option.map_some, hlocation]

/-! ## Parses -/

section Parses
variable {σ α : Type} {onState : (Location → Location) → σ → σ}
  {onResult : (Location → Location) → α → α} {step : σ → Token → Step σ α}

/-- Related lookaheads have the same kind of step taken at them. -/
theorem step_cases (h : Simulation f g R E) (hstep : Natural onState onResult step)
    {l m : Lookahead} (hlm : R l m) {s s' : σ}
    (hs : onState f s = onState g s') :
    (∃ a b, step s l.token = .done a ∧ step s' m.token = .done b ∧
        onResult f a = onResult g b) ∨
      (∃ cause, step s l.token = .refuse cause ∧ step s' m.token = .refuse cause) ∨
      ∃ r r', step s l.token = .shift r ∧ step s' m.token = .shift r' ∧
        onState f r = onState g r' := by
  have hmap : (step s l.token).map (onState f) (onResult f) =
      (step s' m.token).map (onState g) (onResult g) := by
    rw [← hstep, ← hstep, h.token hlm, hs]
  cases hl : step s l.token with
  | done a =>
    cases hm : step s' m.token <;> simp [hl, hm, Step.map] at hmap
    exact .inl ⟨_, _, rfl, rfl, hmap⟩
  | refuse cause =>
    cases hm : step s' m.token <;> simp [hl, hm, Step.map] at hmap
    exact .inr (.inl ⟨_, rfl, by rw [hmap]⟩)
  | shift r =>
    cases hm : step s' m.token <;> simp [hl, hm, Step.map] at hmap
    exact .inr (.inr ⟨_, _, rfl, rfl, hmap⟩)

/-- Runs from related lookaheads stop at related ones, with results that look the same. -/
theorem run (h : Simulation f g R E) (hstep : Natural onState onResult step) {l m : Lookahead}
    (hlm : R l m) {s s' : σ} (hs : onState f s = onState g s') :
    (l.run step s).1.map (onResult f) = (m.run step s').1.map (onResult g) ∧
      R (l.run step s).2 (m.run step s').2 := by
  induction hn : l.remaining using Nat.strongRecOn generalizing l m s s' with
  | ind n ih =>
    obtain ⟨a, b, hl, hm, hab⟩ | ⟨cause, hl, hm⟩ | ⟨r, r', hl, hm, hr⟩ := h.step_cases hstep hlm hs
    · rw [Lookahead.run_of_done hl, Lookahead.run_of_done hm]
      exact ⟨congrArg Except.ok hab, hlm⟩
    · rw [Lookahead.run_of_refuse hl, Lookahead.run_of_refuse hm]
      exact ⟨rfl, hlm⟩
    · have hend := h.isEnd hlm
      cases he : l.token.isEnd with
      | true =>
        rw [he] at hend
        rw [Lookahead.run, hl, Lookahead.run, hm]
        simp only [he, ← hend, ↓reduceDIte]
        exact ⟨rfl, hlm⟩
      | false =>
        rw [he] at hend
        rw [Lookahead.run_of_shift hl he, Lookahead.run_of_shift hm hend.symm]
        have hlt := l.advance_remaining_lt he
        exact ih _ (hn ▸ hlt) (h.advance hlm) hr rfl

end Parses

end Simulation

/-! ## Parsers -/

/-- The parsers stand at related lookaheads and differ in nothing else but what they reported. -/
structure Parser.Related (R : Lookahead → Lookahead → Prop) (E : Collector → Collector → Prop)
    (p q : Parser) : Prop where
  lookahead : R p.lookahead q.lookahead
  table : p.table = q.table
  anonymous : p.anonymous = q.anonymous
  errors : E p.errors q.errors

namespace Parser

theorem Related.moveTo {p q : Parser} (h : p.Related R E q) {l m : Lookahead} (hlm : R l m) :
    (p.moveTo l).Related R E (q.moveTo m) :=
  ⟨hlm, h.table, h.anonymous, h.errors⟩

theorem Related.prime {p q : Parser} (h : p.Related R E q) : p.prime.Related R E q.prime where
  lookahead := by
    rw [lookahead_of_at p.prime_at, lookahead_of_at q.prime_at]
    exact h.lookahead
  table := by rw [p.prime_table, q.prime_table, h.table]
  anonymous := by rw [p.prime_anonymous, q.prime_anonymous, h.anonymous]
  errors := by
    rw [p.prime_errors, q.prime_errors]
    exact h.errors

/-- What becomes of a unit, from where its parse stops. -/
theorem concludeUnit_settle {α : Type} (make : α → SourceUnit) (p : Parser)
    (r : Except Refusal α × Lookahead) :
    concludeUnit make p.errors.count (p.settle r) =
      match r with
      | (.ok a, m) => (make a, p.moveTo m)
      | (.error cause, m) =>
        (.failure (some (m.diagnostic cause)), (p.reported m cause).moveTo m.advance) := by
  rcases r with ⟨cause | a, m⟩
  · have hreported := concludeUnit_reported make p m cause
    rw [advance_of_at (p.reported_at m cause)] at hreported
    exact hreported
  · rfl

end Parser

namespace Simulation

theorem concludeUnit {σ α : Type} {onState : (Location → Location) → σ → σ}
    {onResult : (Location → Location) → α → α} {step : σ → Token → Step σ α}
    (h : Simulation f g R E) (hstep : Natural onState onResult step) {p q : Parser}
    (hpq : p.Related R E q) {l m : Lookahead} (hlm : R l m) {s s' : σ}
    (hs : onState f s = onState g s') {make make' : α → SourceUnit}
    (hmake : ∀ a b, onResult f a = onResult g b →
      (make a).relocate f = (make' b).relocate g) :
    (Parser.concludeUnit make p.errors.count (p.settle (l.run step s))).1.relocate f =
        (Parser.concludeUnit make' q.errors.count (q.settle (m.run step s'))).1.relocate g ∧
      (Parser.concludeUnit make p.errors.count (p.settle (l.run step s))).2.Related R E
        (Parser.concludeUnit make' q.errors.count (q.settle (m.run step s'))).2 := by
  obtain ⟨hresult, hstop⟩ := h.run hstep hlm hs
  rw [Parser.concludeUnit_settle, Parser.concludeUnit_settle]
  generalize l.run step s = r at hresult hstop ⊢
  generalize m.run step s' = r' at hresult hstop ⊢
  rcases r with ⟨cause | a, l'⟩
  · rcases r' with ⟨cause' | b, m'⟩
    · obtain rfl : cause = cause' := by simpa [Except.map] using hresult
      have hdiagnostic := h.diagnostic hstop cause
      refine ⟨congrArg (fun d => SourceUnit.failure (some d)) hdiagnostic, ?_⟩
      exact ⟨h.advance hstop, hpq.table, hpq.anonymous, h.add _ _ hpq.errors⟩
    · simp [Except.map] at hresult
  · rcases r' with ⟨cause' | b, m'⟩
    · simp [Except.map] at hresult
    · have hab : onResult f a = onResult g b := by
        simpa [Except.map] using hresult
      exact ⟨hmake a b hab, hpq.moveTo hstop⟩

/-- Units of related parsers look the same. -/
theorem unit (h : Simulation f g R E) {p q : Parser} (hpq : p.Related R E q) {l m : Lookahead}
    (hp : p.At l) (hq : q.At m) :
    (p.unit l.token).1.relocate f = (q.unit m.token).1.relocate g ∧
      (p.unit l.token).2.Related R E (q.unit m.token).2 := by
  have hlm : R l m := by
    have hlookahead := hpq.lookahead
    rwa [Parser.lookahead_of_at hp, Parser.lookahead_of_at hq] at hlookahead
  have hlexeme := h.lexeme hlm
  have hnext := hpq.moveTo (h.advance hlm)
  by_cases hd : l.token.lexeme = .define
  · have hd' : m.token.lexeme = .define := hlexeme ▸ hd
    rw [Parser.unit_define hd, Parser.unit_define hd', Parser.definition, Parser.definition,
      Parser.advance_of_at hp, Parser.advance_of_at hq, Parser.attempt_of_at (p.moveTo_at _),
      Parser.attempt_of_at (q.moveTo_at _)]
    rw [← hpq.table]
    exact h.concludeUnit (DefinitionState.step_natural p.table) hnext (h.advance hlm) rfl
      fun a b hab => congrArg SourceUnit.definition hab
  · have hd' : m.token.lexeme ≠ .define := hlexeme ▸ hd
    by_cases hx : l.token.lexeme = .external
    · have hx' : m.token.lexeme = .external := hlexeme ▸ hx
      rw [Parser.unit_external hx, Parser.unit_external hx', Parser.declaration,
        Parser.declaration, Parser.advance_of_at hp, Parser.advance_of_at hq, Parser.signature,
        Parser.signature, Parser.attempt_of_at (p.moveTo_at _),
        Parser.attempt_of_at (q.moveTo_at _)]
      exact h.concludeUnit SignatureState.step_natural hnext (h.advance hlm) rfl
        fun a b hab => congrArg SourceUnit.declaration hab
    · have hx' : m.token.lexeme ≠ .external := hlexeme ▸ hx
      rw [Parser.unit_expression hd hx, Parser.unit_expression hd' hx', Parser.expression,
        Parser.expression, Parser.attempt_of_at hp, Parser.attempt_of_at hq, ← hpq.table,
        ← hpq.anonymous]
      apply h.concludeUnit (ExpressionState.step_natural p.table (some 0)) hpq hlm rfl
      intro a b hab
      show SourceUnit.expression _ = SourceUnit.expression _
      rw [Definition.relocate_wrap, Definition.relocate_wrap, hab]

end Simulation

/-! ## Sessions -/

/-- The parsers of the sessions are related, and the sessions are as far as each other. -/
structure Session.Related (R : Lookahead → Lookahead → Prop) (E : Collector → Collector → Prop)
    (s s' : Session) : Prop where
  parser : s.parser.Related R E s'.parser
  stage : s.stage = s'.stage
  aborted : s.aborted = s'.aborted

namespace Simulation

theorem dispatch (h : Simulation f g R E) {s s' : Session} (hs : s.Related R E s') :
    s.dispatch.1.relocate f = s'.dispatch.1.relocate g ∧
      s.dispatch.2.Related R E s'.dispatch.2 := by
  have hprime := hs.parser.prime
  have hlm : R s.lookahead s'.lookahead := hs.parser.lookahead
  have hlexeme := h.lexeme hlm
  have hisEnd := h.isEnd hlm
  by_cases he : s.lookahead.token.isEnd = true
  · rw [Session.dispatch_end he, Session.dispatch_end (hisEnd ▸ he)]
    exact ⟨rfl, hprime, rfl, hs.aborted⟩
  · by_cases hsep : s.lookahead.token.lexeme = .char ';'
    · rw [Session.dispatch_separator hsep, Session.dispatch_separator (hlexeme ▸ hsep),
        Parser.advance_of_at s.parser.prime_at, Parser.advance_of_at s'.parser.prime_at]
      exact ⟨rfl, hprime.moveTo (h.advance hlm), rfl, hs.aborted⟩
    · have he : s.lookahead.token.isEnd = false := by simpa using he
      obtain ⟨hunit, hparser⟩ := h.unit hprime s.parser.prime_at s'.parser.prime_at
      rw [Session.dispatch_unit he hsep rfl,
        Session.dispatch_unit (hisEnd ▸ he) (hlexeme ▸ hsep) rfl]
      have hstage := congrArg Session.stageAfter hunit
      rw [Session.stageAfter_relocate, Session.stageAfter_relocate] at hstage
      exact ⟨congrArg Turn.unit hunit, hparser, hstage, hs.aborted⟩

theorem turn (h : Simulation f g R E) {s s' : Session} (hs : s.Related R E s') :
    s.turn.1.relocate f = s'.turn.1.relocate g ∧ s.turn.2.Related R E s'.turn.2 := by
  have hdispatch := h.dispatch hs
  unfold Session.turn
  rw [← hs.stage, ← h.full hs.parser.errors]
  cases hstage : s.stage with
  | finished => exact ⟨rfl, hs⟩
  | running => exact hdispatch
  | afterFailure =>
    cases s.parser.errors.isFull with
    | true => exact ⟨rfl, hs.parser, rfl, rfl⟩
    | false => exact hdispatch

/-- Related sessions make units that look the same, and end in related sessions. -/
theorem beats (h : Simulation f g R E) {s s' : Session} (hs : s.Related R E s') :
    (unitsOf s.beats).map (SourceUnit.relocate f) = (unitsOf s'.beats).map (SourceUnit.relocate g) ∧
      s.final.Related R E s'.final := by
  induction hn : s.parser.remaining using Nat.strongRecOn generalizing s s' with
  | ind n ih =>
    have hlt := s.turn_remaining_lt
    obtain ⟨hturn, hnext⟩ := h.turn hs
    generalize ht : s.turn = r at hlt hturn hnext
    generalize ht' : s'.turn = r' at hturn hnext
    have hc : Session.continues r.1 = Session.continues r'.1 := by
      rw [← Session.continues_relocate f, hturn, Session.continues_relocate g]
    cases hc' : Session.continues r'.1 with
    | true =>
      rw [hc'] at hc
      have hunit := congrArg (fun t => t.unit?.toList) hturn
      simp only [Turn.relocate_unit?, Option.toList_map] at hunit
      obtain ⟨hunits, hfinal⟩ := ih _ (hn ▸ hlt hc) hnext rfl
      rw [Session.unitsOf_of_turn ht hc, Session.unitsOf_of_turn ht' hc', List.map_append,
        List.map_append, hunit, hunits, Session.final_of_turn ht hc, Session.final_of_turn ht' hc']
      exact ⟨rfl, hfinal⟩
    | false =>
      rw [hc'] at hc
      rw [Session.unitsOf_of_last_turn ht hc, Session.unitsOf_of_last_turn ht' hc',
        Session.final_of_last_turn ht hc, Session.final_of_last_turn ht' hc']
      exact ⟨rfl, hnext⟩

end Simulation
end
end ExprFront
