import ExprFront.Token.Scanner

/-!
# Parsing with one token of lookahead

A parse is a state that is fed tokens. Looking at the current token it reads it, is done
without reading it, or refuses it. The end of the input is never read; a state that asks for it
is refused like any other.
-/

namespace ExprFront
set_option autoImplicit false

/-- Why a token is refused: what should have stood there. -/
inductive Refusal
  | operand
  | groupEnd
  | argumentEnd
  | signatureName
  | parametersStart
  | parametersEnd
  deriving DecidableEq

/-- What a parse in state `σ` does with the current token. -/
inductive Step (σ α : Type)
  /-- The token is read. -/
  | shift (next : σ)
  /-- The parse ends before the token. -/
  | done (result : α)
  | refuse (cause : Refusal)

namespace Step

def map {σ τ α β : Type} (f : σ → τ) (g : α → β) : Step σ α → Step τ β
  | .shift s => .shift (f s)
  | .done a => .done (g a)
  | .refuse cause => .refuse cause

end Step

structure Lookahead where
  token : Token
  scanner : Scanner
  deriving DecidableEq

namespace Lookahead

def ofScanner (s : Scanner) : Lookahead :=
  ⟨s.next.1, s.next.2⟩

def advance (l : Lookahead) : Lookahead := ofScanner l.scanner

/-- A bound for the number of tokens from the current one to the end, which does not count. -/
def remaining (l : Lookahead) : Nat :=
  l.scanner.remaining + if l.token.isEnd then 0 else 1

theorem advance_remaining_le (l : Lookahead) : l.advance.remaining ≤ l.scanner.remaining := by
  have hle := l.scanner.next_remaining_le
  have hlt := l.scanner.next_remaining_lt
  unfold remaining advance ofScanner
  by_cases hn : l.scanner.next.1.isEnd = true
  · rw [if_pos hn]
    exact hle
  · rw [if_neg hn]
    exact hlt (by simpa using hn)

theorem advance_remaining_lt (l : Lookahead) (h : l.token.isEnd = false) :
    l.advance.remaining < l.remaining := by
  have := l.advance_remaining_le
  have hr : l.remaining = l.scanner.remaining + 1 := by simp [remaining, h]
  omega

/-- Feeds tokens to a parse until it is done or refuses one. -/
def run {σ α : Type} (step : σ → Token → Step σ α) (l : Lookahead) (s : σ) :
    Except Refusal α × Lookahead :=
  match step s l.token with
  | .done a => (.ok a, l)
  | .refuse cause => (.error cause, l)
  | .shift s' =>
    if _h : l.token.isEnd then (.error .operand, l)
    else run step l.advance s'
termination_by l.remaining
decreasing_by exact l.advance_remaining_lt (by simpa using _h)

/-- A parse leaves the lookahead alone or makes progress. -/
theorem run_eq_or_remaining_lt {σ α : Type} (step : σ → Token → Step σ α) (l : Lookahead)
    (s : σ) : (l.run step s).2 = l ∨ (l.run step s).2.remaining < l.remaining := by
  fun_induction run step l s with
  | case1 => exact .inl rfl
  | case2 => exact .inl rfl
  | case3 => exact .inl rfl
  | case4 l s s' _ h ih =>
    have hlt := l.advance_remaining_lt (by simpa using h)
    rcases ih with ih | ih
    · exact .inr (by rw [ih]; exact hlt)
    · exact .inr (Nat.lt_trans ih hlt)

/-- A parse that cannot be done at once makes progress if it succeeds. -/
theorem run_remaining_lt {σ α : Type} (step : σ → Token → Step σ α) (l : Lookahead) (s : σ)
    (hs : ∀ t a, step s t ≠ .done a) (a : α) (h : (l.run step s).1 = .ok a) :
    (l.run step s).2.remaining < l.remaining := by
  revert h
  fun_cases run step l s with
  | case1 a' hd => exact absurd hd (hs _ _)
  | case2 => simp
  | case3 => simp
  | case4 s' hd he =>
    intro _
    have hlt := l.advance_remaining_lt (by simpa using he)
    rcases run_eq_or_remaining_lt step l.advance s' with h | h
    · rw [h]; exact hlt
    · exact Nat.lt_trans h hlt

end Lookahead

end ExprFront
