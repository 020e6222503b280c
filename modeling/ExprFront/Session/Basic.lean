import ExprFront.Session.SourceUnit

/-!
# Sessions

A session takes a program apart into turns. Each turn looks at the current token: it finds the
end of the input, drops a semicolon, or parses a unit. Before its first turn a session reads
the first token, if there is none yet. When the collector is full after a failure, the session
is aborted instead of taking another turn.
-/

namespace ExprFront
set_option autoImplicit false

inductive Stage
  | running
  /-- The last turn was a failure, and the limit is yet to be looked at. -/
  | afterFailure
  | finished
  deriving DecidableEq

/-- A parser and the state of taking units from it. -/
structure Session where
  parser : Parser
  stage : Stage
  aborted : Bool

inductive Turn
  | endOfInput
  | separator
  | unit (u : SourceUnit)
  /-- The limit was reached before the turn. -/
  | aborted
  /-- The session had ended before the turn. -/
  | idle

namespace Turn

/-- Whether the turn waited for input, so that a prompt went before it. -/
def prompts : Turn → Bool
  | .endOfInput | .separator | .unit _ => true
  | .aborted | .idle => false

def unit? : Turn → Option SourceUnit
  | .unit u => some u
  | _ => none

end Turn

namespace Session

def ofParser (p : Parser) : Session := ⟨p, .running, false⟩

def stageAfter (u : SourceUnit) : Stage :=
  if u.kind = .failure then .afterFailure else .running

/-- Takes the turn that the current token calls for. -/
def dispatch (s : Session) : Turn × Session :=
  let p := s.parser.prime
  match p.current with
  | some t =>
    if t.isEnd then (.endOfInput, { s with parser := p, stage := .finished })
    else if t.lexeme = .char ';' then
      (.separator, { s with parser := p.advance, stage := .running })
    else
      let (u, q) := p.unit t
      (.unit u, { s with parser := q, stage := stageAfter u })
  | none => (.idle, s)

def turn (s : Session) : Turn × Session :=
  match s.stage with
  | .finished => (.idle, s)
  | .afterFailure =>
    if s.parser.errors.isFull then (.aborted, { s with stage := .finished, aborted := true })
    else s.dispatch
  | .running => s.dispatch

/-! ## Progress -/

def continues : Turn → Bool
  | .separator | .unit _ => true
  | .endOfInput | .aborted | .idle => false

theorem dispatch_remaining_lt (s : Session) (h : continues s.dispatch.1 = true) :
    s.dispatch.2.parser.remaining < s.parser.remaining := by
  have hle := s.parser.prime_remaining_le
  unfold dispatch at h ⊢
  simp only at h ⊢
  split
  · next t ht =>
    simp only [ht] at h
    by_cases he : t.isEnd = true
    · simp [he, continues] at h
    · have he : t.isEnd = false := by simpa using he
      simp only [he, Bool.false_eq_true, ↓reduceIte]
      by_cases hs : t.lexeme = .char ';'
      · simp only [hs, ↓reduceIte]
        exact Nat.lt_of_lt_of_le (s.parser.prime.advance_remaining_lt ht he) hle
      · simp only [hs, ↓reduceIte]
        exact Nat.lt_of_lt_of_le (s.parser.prime.unit_remaining_lt ht he) hle
  · next hn => simp [hn, continues] at h

/-- A turn after which the session goes on has taken at least one token. -/
theorem turn_remaining_lt (s : Session) (h : continues s.turn.1 = true) :
    s.turn.2.parser.remaining < s.parser.remaining := by
  unfold turn at h ⊢
  split
  · next hs => simp [hs, continues] at h
  · next hs =>
    simp only [hs] at h
    split
    · next hf => simp [hf, continues] at h
    · next hf =>
      simp only [hf, Bool.false_eq_true, ↓reduceIte] at h
      exact s.dispatch_remaining_lt h
  · next hs =>
    simp only [hs] at h
    exact s.dispatch_remaining_lt h

/-! ## Sequences of turns -/

/-- A turn and the sessions around it. -/
structure Beat where
  before : Session
  turn : Turn
  after : Session

def beats (s : Session) : List Beat :=
  let beat : Beat := ⟨s, s.turn.1, s.turn.2⟩
  if _h : continues s.turn.1 = true then beat :: beats s.turn.2 else [beat]
termination_by s.parser.remaining
decreasing_by exact s.turn_remaining_lt _h

/-- The turns up to the next unit, or up to the end if there is none. -/
def beatsToUnit (s : Session) : List Beat :=
  let beat : Beat := ⟨s, s.turn.1, s.turn.2⟩
  if _h : continues s.turn.1 = true then
    if s.turn.1.unit?.isSome then [beat] else beat :: beatsToUnit s.turn.2
  else [beat]
termination_by s.parser.remaining
decreasing_by exact s.turn_remaining_lt _h

def afterBeats (s : Session) (bs : List Beat) : Session :=
  (bs.getLast?.map Beat.after).getD s

end Session

def unitsOf (bs : List Session.Beat) : List SourceUnit :=
  bs.filterMap fun b => b.turn.unit?

def promptsOf (bs : List Session.Beat) : Nat :=
  bs.countP fun b => b.turn.prompts

end ExprFront
