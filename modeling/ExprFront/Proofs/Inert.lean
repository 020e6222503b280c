import ExprFront.Proofs.Turns

/-!
# Changes that reading does not notice

A parser can be changed in what reading does not look at, so that the tokens, the units and the
diagnostics stay as they are. The change can then be made after an attempt, a unit or a turn as well
as before it.
-/

namespace ExprFront
set_option autoImplicit false

namespace Parser

/-- The change leaves alone where the parser stands and what it has reported, and moving on or
reporting goes on behind it as in front of it. -/
structure Inert (f : Parser → Parser) : Prop where
  current : ∀ p, (f p).current = p.current
  scanner : ∀ p, (f p).scanner = p.scanner
  anonymous : ∀ p, (f p).anonymous = p.anonymous
  diagnostics : ∀ p, (f p).errors.diagnostics = p.errors.diagnostics
  moveTo : ∀ p l, (f p).moveTo l = f (p.moveTo l)
  reported : ∀ p l cause, (f p).reported l cause = f (p.reported l cause)

namespace Inert
variable {f : Parser → Parser} (hf : Inert f) {p : Parser} {l : Lookahead}
include hf

theorem at_iff : (f p).At l ↔ p.At l := by
  rw [At, At, hf.current, hf.scanner]

theorem lookahead : (f p).lookahead = p.lookahead := by
  simp only [Parser.lookahead, hf.current, hf.scanner]

theorem count : (f p).errors.count = p.errors.count := congrArg List.length (hf.diagnostics p)

theorem advance : (f p).advance = f p.advance := by
  rw [Parser.advance, hf.scanner, hf.moveTo]
  rfl

theorem prime : (f p).prime = f p.prime := by
  rw [Parser.prime, Parser.prime, hf.current, hf.advance]
  split <;> rfl

theorem settle {α : Type} (r : Except Refusal α × Lookahead) :
    (f p).settle r = Prod.map id f (p.settle r) := by
  rcases r with ⟨cause | a, m⟩
  · exact congrArg (Prod.mk Attempt.refused) (hf.reported p m cause)
  · exact congrArg (Prod.mk (Attempt.parsed a)) (hf.moveTo p m)

theorem attempt {σ α : Type} {step step' : σ → Token → Step σ α} {s : σ} (h : p.At l)
    (hrun : l.run step' s = l.run step s) :
    (f p).attempt step' s = Prod.map id f (p.attempt step s) := by
  rw [attempt_of_at h, attempt_of_at (hf.at_iff.mpr h), hrun, hf.settle]

theorem concludeUnit {α : Type} (make : α → SourceUnit) (reported : Nat) (r : Attempt α × Parser) :
    Parser.concludeUnit make reported (Prod.map id f r) =
      Prod.map id f (Parser.concludeUnit make reported r) := by
  rcases r with ⟨a | _ | _, q⟩
  · rfl
  · simp only [Parser.concludeUnit, Prod.map, id, hf.count, hf.diagnostics, hf.advance]
  · simp only [Parser.concludeUnit, Prod.map, id, hf.count, hf.diagnostics, hf.advance]

theorem unit (h : p.At l)
    (hexpression : l.run (ExpressionState.step (f p).table (some 0)) .start =
      l.run (ExpressionState.step p.table (some 0)) .start)
    (hdefinition : l.advance.run (DefinitionState.step (f p).table) (.signature .start) =
      l.advance.run (DefinitionState.step p.table) (.signature .start)) :
    (f p).unit l.token = Prod.map id f (p.unit l.token) := by
  have hadvance : p.advance.At l.advance := advance_of_at h ▸ p.moveTo_at _
  by_cases hd : l.token.lexeme = .define
  · rw [unit_define hd, unit_define hd, ← hf.concludeUnit, hf.count, definition, hf.advance]
    exact congrArg (Parser.concludeUnit _ _) (hf.attempt hadvance hdefinition)
  · by_cases hx : l.token.lexeme = .external
    · rw [unit_external hx, unit_external hx, ← hf.concludeUnit, hf.count, declaration, hf.advance]
      exact congrArg (Parser.concludeUnit _ _) (hf.attempt hadvance rfl)
    · rw [unit_expression hd hx, unit_expression hd hx, ← hf.concludeUnit, hf.count, hf.anonymous]
      exact congrArg (Parser.concludeUnit _ _) (hf.attempt h hexpression)

end Inert
end Parser

namespace Session

def mapParser (f : Parser → Parser) (s : Session) : Session := { s with parser := f s.parser }

/-- A turn goes with the change if its unit does. -/
theorem dispatch_mapParser {f : Parser → Parser} (hf : Parser.Inert f) {s : Session}
    (hunit : s.lookahead.token.isEnd = false → (f s.parser.prime).unit s.lookahead.token =
      Prod.map id f (s.parser.prime.unit s.lookahead.token)) :
    (s.mapParser f).dispatch = Prod.map id (mapParser f) s.dispatch := by
  have hlookahead : (s.mapParser f).lookahead = s.lookahead := hf.lookahead
  have hprime : (s.mapParser f).parser.prime = f s.parser.prime := hf.prime
  by_cases he : s.lookahead.token.isEnd = true
  · rw [dispatch_end he, dispatch_end (hlookahead ▸ he), hprime]
    rfl
  · by_cases hs : s.lookahead.token.lexeme = .char ';'
    · rw [dispatch_separator hs, dispatch_separator (hlookahead ▸ hs), hprime, hf.advance]
      rfl
    · have he : s.lookahead.token.isEnd = false := by simpa using he
      have hunit' : (s.mapParser f).parser.prime.unit (s.mapParser f).lookahead.token =
          Prod.map id f (s.parser.prime.unit s.lookahead.token) := by
        rw [hprime, hlookahead, hunit he]
      rw [dispatch_unit he hs rfl, dispatch_unit (hlookahead ▸ he) (hlookahead ▸ hs) hunit']
      rfl

end Session
end ExprFront
