import ExprFront.Proofs.Turns

/-!
# Pulling units

Units can be pulled from a session one by one, and at any time the session can be given up for a
new one over the same parser. What is left of a session without a limit is the same for both, so
that each pull takes the next unit whatever was given up before it.
-/

namespace ExprFront
set_option autoImplicit false

namespace Session

/-! ## Restarting -/

/-- A new session over the parser of the old one. -/
def restart (s : Session) : Session := .ofParser s.parser

theorem Ready.turn_restart {s : Session} (h : s.Ready) (ha : s.aborted = false) :
    s.restart.turn = s.turn := by
  have hready : s.restart.Ready := .inl rfl
  rw [h.turn_eq_dispatch, hready.turn_eq_dispatch]
  obtain ⟨p, stage, aborted⟩ := s
  obtain rfl : aborted = false := ha
  have hcurrent : p.prime.current = some p.lookahead.token := p.prime_at.1
  simp only [dispatch, restart, ofParser, hcurrent]

/-- The parser has found the end of the input. -/
def Exhausted (s : Session) : Prop := ∃ t, s.parser.current = some t ∧ t.isEnd = true

theorem Exhausted.prime {s : Session} (h : s.Exhausted) : s.parser.prime = s.parser := by
  obtain ⟨t, ht, -⟩ := h
  simp only [Parser.prime, ht, Option.isNone_some, Bool.false_eq_true, if_false]

theorem Exhausted.isEnd {s : Session} (h : s.Exhausted) : s.lookahead.token.isEnd = true := by
  obtain ⟨t, ht, he⟩ := h
  simpa only [lookahead, Parser.lookahead, ht] using he

/-! ## Pulling -/

/-- The next unit, if there is one, and the session behind it. -/
def pull (s : Session) : Option SourceUnit × Session :=
  ((unitsOf s.beatsToUnit).head?, s.afterBeats s.beatsToUnit)

section Pull
variable {s s' : Session} {t : Turn}

theorem pull_of_unit {u : SourceUnit} (h : s.turn = (.unit u, s')) : s.pull = (some u, s') := by
  have hbeats : s.beatsToUnit = [⟨s, .unit u, s'⟩] := by
    rw [beatsToUnit, h]
    rfl
  rw [pull, hbeats]
  rfl

theorem pull_of_separator (h : s.turn = (.separator, s')) : s.pull = s'.pull := by
  have hbeats : s.beatsToUnit = ⟨s, .separator, s'⟩ :: s'.beatsToUnit := by
    rw [beatsToUnit, h]
    rfl
  rw [pull, hbeats, afterBeats_cons]
  rfl

theorem pull_of_last_turn (h : s.turn = (t, s')) (hc : continues t = false) :
    s.pull = (none, s') := by
  have hbeats : s.beatsToUnit = [⟨s, t, s'⟩] := by
    rw [beatsToUnit, h]
    simp only [hc, Bool.false_eq_true, dite_false]
  have hnone : unitsOf [⟨s, t, s'⟩] = [] := by
    cases t with
    | separator | unit => simp [continues] at hc
    | endOfInput | aborted | idle => rfl
  rw [pull, hbeats, hnone]
  rfl

end Pull

/-- A session without a limit, between two pulls. -/
structure Paused (s : Session) : Prop where
  unaborted : s.aborted = false
  unlimited : s.parser.errors.limit = none
  scanned : s.lookahead.Scanned
  exhausted : s.stage = .finished → s.Exhausted

theorem Steady.paused {s : Session} (h : s.Steady) (ha : s.aborted = false) : s.Paused where
  unaborted := ha
  unlimited := h.unlimited
  scanned := h.scanned
  exhausted := fun hs => absurd hs h.unfinished

theorem Paused.restart_steady {s : Session} (h : s.Paused) : s.restart.Steady :=
  ⟨⟨Stage.noConfusion, h.scanned⟩, .inl rfl, h.unlimited⟩

/-- A paused session either goes on or has come to its end. -/
theorem Paused.steady_or_finished {s : Session} (h : s.Paused) :
    s.Steady ∨ s.stage = .finished ∧ s.Exhausted := by
  cases hs : s.stage with
  | finished => exact .inr ⟨rfl, h.exhausted hs⟩
  | running => exact .inl ⟨⟨by simp [hs], h.scanned⟩, .inl hs, h.unlimited⟩
  | afterFailure =>
    have hfull : s.parser.errors.isFull = false := by
      simp only [Collector.isFull, h.unlimited]
    exact .inl ⟨⟨by simp [hs], h.scanned⟩, .inr ⟨hs, hfull⟩, h.unlimited⟩

theorem turn_of_finished {s : Session} (hs : s.stage = .finished) : s.turn = (.idle, s) := by
  rw [turn, hs]

theorem exhausted_atEnd {s : Session} (he : s.lookahead.token.isEnd = true) :
    s.atEnd.Exhausted := ⟨s.lookahead.token, s.current_prime, he⟩

theorem Steady.paused_atEnd {s : Session} (h : s.Steady) (ha : s.aborted = false)
    (he : s.lookahead.token.isEnd = true) : s.atEnd.Paused where
  unaborted := ha
  unlimited := by
    rw [← h.unlimited]
    exact congrArg Collector.limit s.parser.prime_errors
  scanned := by
    have hlookahead : s.atEnd.lookahead = s.lookahead := Parser.lookahead_of_at s.parser.prime_at
    rw [hlookahead]
    exact h.scanned
  exhausted := fun _ => exhausted_atEnd he

/-- No unit is left at the end, and nothing is scanned or reported there any more. -/
theorem Paused.last_turn {s : Session} (h : s.Paused) (he : s.Exhausted) :
    ∃ t s', s.turn = (t, s') ∧ continues t = false ∧ s'.parser = s.parser ∧ s'.Paused := by
  obtain hsteady | ⟨hs, -⟩ := h.steady_or_finished
  · exact ⟨_, _, hsteady.ready.turn_of_isEnd he.isEnd, rfl, he.prime,
      hsteady.paused_atEnd h.unaborted he.isEnd⟩
  · exact ⟨.idle, s, turn_of_finished hs, rfl, rfl, h⟩

/-! ## What is left -/

/-- The same is left of both sessions: the units to come and the session in the end. -/
structure LeavesSame (s s' : Session) : Prop where
  units : unitsOf s'.beats = unitsOf s.beats
  final : s'.final = s.final

theorem leavesSame_of_turn {s s' : Session} (h : s'.turn = s.turn) : s.LeavesSame s' := by
  cases hc : continues s.turn.1 with
  | true =>
    constructor
    · rw [unitsOf_of_turn h hc, unitsOf_of_turn rfl hc]
    · rw [final_of_turn h hc, final_of_turn rfl hc]
  | false =>
    constructor
    · rw [unitsOf_of_last_turn h hc, unitsOf_of_last_turn rfl hc]
    · rw [final_of_last_turn h hc, final_of_last_turn rfl hc]

theorem Paused.restart {s : Session} (h : s.Paused) :
    s.restart.Paused ∧ s.LeavesSame s.restart := by
  have hsteady := h.restart_steady
  refine ⟨hsteady.paused rfl, ?_⟩
  obtain hgoes | ⟨hs, he⟩ := h.steady_or_finished
  · exact leavesSame_of_turn (hgoes.ready.turn_restart h.unaborted)
  · have ht := hsteady.ready.turn_of_isEnd (Exhausted.isEnd he)
    have hfinal : s.restart.atEnd = s := by
      obtain ⟨p, stage, aborted⟩ := s
      obtain rfl : stage = .finished := hs
      obtain rfl : aborted = false := h.unaborted
      exact congrArg (Session.mk · .finished false) he.prime
    constructor
    · rw [unitsOf_of_last_turn ht rfl, unitsOf_of_last_turn (turn_of_finished hs) rfl]
    · rw [final_of_last_turn ht rfl, final_of_last_turn (turn_of_finished hs) rfl, hfinal]

/-- A pull takes the first unit of those that are left, or finds the end. -/
structure Pulls (s : Session) (r : Option SourceUnit × Session) : Prop where
  answer : r.1 = (unitsOf s.beats).head?
  paused : r.2.Paused
  rest : unitsOf r.2.beats = (unitsOf s.beats).tail
  final : r.2.final = s.final
  exhausted : r.1 = none → r.2.Exhausted

theorem Pulls.of_unit {s s' : Session} {u : SourceUnit} (ht : s.turn = (.unit u, s'))
    (h : s'.Paused) : s.Pulls s.pull := by
  have hunits := unitsOf_of_turn ht rfl
  rw [pull_of_unit ht]
  constructor
  · rw [hunits]
    rfl
  · exact h
  · rw [hunits]
    rfl
  · exact (final_of_turn ht rfl).symm
  · simp

theorem Steady.pulls {s : Session} (h : s.Steady) (ha : s.aborted = false) : s.Pulls s.pull := by
  induction s, h using Steady.induction with
  | endOfInput s h he ht =>
    have hpaused := h.paused_atEnd ha he
    have hturn := turn_of_finished (s := s.atEnd) rfl
    have hunits := unitsOf_of_last_turn ht rfl
    rw [pull_of_last_turn ht rfl]
    constructor
    · rw [hunits]
      rfl
    · exact hpaused
    · rw [hunits, unitsOf_of_last_turn hturn rfl]
      rfl
    · rw [final_of_last_turn ht rfl, final_of_last_turn hturn rfl]
    · exact fun _ => exhausted_atEnd he
  | separator s h hs ht h' ih =>
    have hpulls := ih ha
    have hunits := unitsOf_of_turn ht rfl
    rw [pull_of_separator ht]
    constructor
    · rw [hunits]
      exact hpulls.answer
    · exact hpulls.paused
    · rw [hunits]
      exact hpulls.rest
    · rw [final_of_turn ht rfl]
      exact hpulls.final
    · exact hpulls.exhausted
  | derived s h ts m u hr hu ht h' ih => exact .of_unit ht (h'.paused ha)
  | failed s h ts m cause he hr ht h' ih => exact .of_unit ht (h'.paused ha)

theorem Paused.pulls {s : Session} (h : s.Paused) : s.Pulls s.pull := by
  obtain hsteady | ⟨hs, he⟩ := h.steady_or_finished
  · exact hsteady.pulls h.unaborted
  · have hunits := unitsOf_of_last_turn (turn_of_finished hs) rfl
    rw [pull_of_last_turn (turn_of_finished hs) rfl]
    exact ⟨by rw [hunits]; rfl, h, by rw [hunits]; rfl, rfl, fun _ => he⟩

theorem Paused.exhausted_units {s : Session} (h : s.Paused) (he : s.Exhausted) :
    unitsOf s.beats = [] ∧ s.final.parser = s.parser := by
  obtain ⟨t, s', ht, hc, hparser, -⟩ := h.last_turn he
  exact ⟨unitsOf_of_last_turn ht hc, by rw [final_of_last_turn ht hc, hparser]⟩

/-! ## Schedules -/

inductive Action
  | pull
  | restart
  deriving DecidableEq

/-- The answers to the pulls, in order, and the session behind the last action. -/
def follow : List Action → Session → List (Option SourceUnit) × Session
  | [], s => ([], s)
  | .pull :: rest, s => (s.pull.1 :: (follow rest s.pull.2).1, (follow rest s.pull.2).2)
  | .restart :: rest, s => follow rest s.restart

/-- The answers are the units that are left one by one, whatever was given up between them. -/
theorem Paused.follow {s : Session} (h : s.Paused) (actions : List Action) :
    (follow actions s).1 = (List.range (actions.count .pull)).map (fun i => (unitsOf s.beats)[i]?) ∧
      (follow actions s).2.Paused ∧ (follow actions s).2.final = s.final ∧
      (s.Exhausted ∨ none ∈ (follow actions s).1 → (follow actions s).2.Exhausted) := by
  induction actions generalizing s with
  | nil => exact ⟨rfl, h, rfl, fun he => he.resolve_right (List.not_mem_nil)⟩
  | cons action rest ih =>
    cases action with
    | restart =>
      obtain ⟨hpaused, hleaves⟩ := h.restart
      obtain ⟨hanswers, hlast, hfinal, hend⟩ := ih hpaused
      rw [hleaves.units] at hanswers
      rw [hleaves.final] at hfinal
      exact ⟨hanswers, hlast, hfinal, hend⟩
    | pull =>
      have hpulls := h.pulls
      obtain ⟨hanswers, hlast, hfinal, hend⟩ := ih hpulls.paused
      refine ⟨?_, hlast, hfinal.trans hpulls.final, ?_⟩
      · rw [List.count_cons_self, List.range_succ_eq_map, List.map_cons, List.map_map]
        show s.pull.1 :: (Session.follow rest s.pull.2).1 = _
        rw [hanswers, hpulls.answer, hpulls.rest, List.head?_eq_getElem?]
        simp only [List.getElem?_tail]
        rfl
      · intro he
        apply hend
        obtain he | he := he
        · have hnone := hpulls.answer
          rw [(h.exhausted_units he).1] at hnone
          exact .inl (hpulls.exhausted hnone)
        · obtain he | he := List.mem_cons.mp he
          · exact .inl (hpulls.exhausted he.symm)
          · exact .inr he

end Session

theorem filterMap_getElem?_range {α : Type} (us : List α) (n : Nat) (h : us.length ≤ n) :
    (List.range n).filterMap (fun i => us[i]?) = us := by
  induction n generalizing us with
  | zero =>
    rw [List.eq_nil_of_length_eq_zero (Nat.le_zero.mp h)]
    rfl
  | succ n ih =>
    rw [List.range_succ_eq_map, List.filterMap_cons, List.filterMap_map]
    cases us with
    | nil => simp
    | cons u us => exact congrArg (u :: ·) (ih us (Nat.le_of_succ_le_succ h))

theorem none_mem_getElem?_range {α : Type} (us : List α) (n : Nat) :
    none ∈ (List.range n).map (fun i => us[i]?) ↔ us.length < n := by
  rw [List.mem_map]
  constructor
  · rintro ⟨i, hi, hnone⟩
    exact Nat.lt_of_le_of_lt (List.getElem?_eq_none_iff.mp hnone) (List.mem_range.mp hi)
  · intro hlt
    exact ⟨us.length, List.mem_range.mpr hlt, List.getElem?_eq_none (Nat.le_refl _)⟩

/-- Without a limit, the pulls of any schedule are answered by the units of the run in order, and
those behind the last one find the end. By then the parser has scanned and reported what the run
has, however often the session was given up. -/
theorem Options.run_pulled (table : OperatorTable) (anonymous filename : String)
    (source : List Char) (name : Option String) (actions : List Session.Action) :
    let o : Options := ⟨table, anonymous, filename, none⟩
    let r := o.run source name
    let pulled := (o.session source name).follow actions
    pulled.1 = (List.range (actions.count .pull)).map (fun i => r.units[i]?) ∧
    (none ∈ pulled.1 ↔ r.units.length < actions.count .pull) ∧
    (none ∈ pulled.1 →
      pulled.1.filterMap id = r.units ∧ pulled.2.parser.scanner.count = r.tokenCount ∧
      pulled.2.parser.errors.diagnostics = r.diagnostics) := by
  intro o r pulled
  have hpaused : (o.session source name).Paused :=
    (steady_session (o := o) rfl source name).paused rfl
  obtain ⟨hunits, hlast, hfinal, hend⟩ := hpaused.follow actions
  have hanswers : pulled.1 = (List.range (actions.count .pull)).map (fun i => r.units[i]?) :=
    hunits
  have hnone : none ∈ pulled.1 ↔ r.units.length < actions.count .pull := by
    rw [hanswers]
    exact none_mem_getElem?_range r.units _
  refine ⟨hanswers, hnone, ?_⟩
  intro he
  have hlength := hnone.mp he
  have hparser := (hlast.exhausted_units (hend (.inr he))).2
  rw [hfinal] at hparser
  refine ⟨?_, ?_, ?_⟩
  · rw [hanswers, List.filterMap_map]
    exact filterMap_getElem?_range r.units _ (Nat.le_of_lt hlength)
  · rw [← hparser]
    rfl
  · rw [← hparser]
    rfl

/-- A session given up before its first unit and between two others. -/
theorem Options.run_pulled_default :
    let r := Options.default.run "1;)2".toList none
    let pulled := (Options.default.session "1;)2".toList none).follow
      [.restart, .pull, .pull, .restart, .pull, .pull]
    r.units.map SourceUnit.kind = [.expression, .failure, .expression] ∧
      pulled.1.filterMap id = r.units ∧ pulled.2.parser.scanner.count = r.tokenCount ∧
      pulled.2.parser.errors.diagnostics = r.diagnostics := by
  intro r pulled
  have hkinds : r.units.map SourceUnit.kind = [.expression, .failure, .expression] := by
    decide +kernel
  have hlength : r.units.length < 4 := by
    have h := congrArg List.length hkinds
    rw [List.length_map] at h
    exact Nat.lt_of_le_of_lt (Nat.le_of_eq h) (by decide)
  obtain ⟨-, hnone, hend⟩ := Options.run_pulled .default anonymousName "<stdin>" "1;)2".toList none
    [.restart, .pull, .pull, .restart, .pull, .pull]
  exact ⟨hkinds, hend (hnone.mpr hlength)⟩

end ExprFront
