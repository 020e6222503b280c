import ExprFront.Diagnostic.Collector
import ExprFront.Parser.Expression
import ExprFront.Parser.Signature

/-!
# The parser

A parser holds the current token, the scanner behind it, an operator table and a collector.
Every attempt either yields a tree and reports nothing, or reports exactly one diagnostic, at
the current token. Before the first token there is nothing to attempt.
-/

namespace ExprFront
set_option autoImplicit false

/-! ## Definitions -/

inductive DefinitionState
  | signature (state : SignatureState)
  | body (signature : Prototype) (state : ExpressionState)

namespace DefinitionState

def bodyStep (table : OperatorTable) (p : Prototype) (s : ExpressionState) (t : Token) :
    Step DefinitionState Definition :=
  (s.step table (some 0) t).map (.body p) (Definition.mk p)

/-- One step of reading a definition. The body starts at the token that ends the signature. -/
def step (table : OperatorTable) : DefinitionState → Token → Step DefinitionState Definition
  | .signature s, t =>
    match s.step t with
    | .shift s' => .shift (.signature s')
    | .refuse cause => .refuse cause
    | .done p => bodyStep table p .start t
  | .body p s, t => bodyStep table p s t

end DefinitionState

/-- A bare expression as the body of a function without parameters, located like it. -/
def Definition.wrap (name : String) (body : Node) : Definition :=
  ⟨⟨name, [], body.location?⟩, body⟩

/-! ## Refusals -/

namespace Refusal

/-- What a refusal is about when it meets the given lexeme. -/
def detail (found : Lexeme) : Refusal → DiagnosticDetail
  | .operand => .unexpected found.describe
  | .groupEnd => .missing "expected ')'" "')'"
  | .argumentEnd => .missing "Expected ')' or ',' in argument list" "')' or ','"
  | .signatureName => .missing "Expected function name in prototype" "function name"
  | .parametersStart => .missing "Expected '(' in prototype" "'('"
  | .parametersEnd => .missing "Expected ')' in prototype" "')'"

end Refusal

/-- The diagnostic for a refused token. The source line is known while the scanner is still on
the line of the token. -/
def Lookahead.diagnostic (l : Lookahead) (cause : Refusal) : Diagnostic where
  detail := cause.detail l.token.lexeme
  location := some l.token.location
  sourceLine :=
    if l.token.location.line = l.scanner.line then some l.scanner.reader.lineText else none

/-! ## Parsers -/

def anonymousName : String := "__anon_expr"

structure Parser where
  scanner : Scanner
  current : Option Token
  table : OperatorTable
  anonymous : String
  errors : Collector

inductive Attempt (α : Type)
  | parsed (result : α)
  /-- The current token was refused, and that was reported. -/
  | refused
  /-- There is no current token yet. -/
  | unprimed

namespace Attempt

def map {α β : Type} (f : α → β) : Attempt α → Attempt β
  | .parsed a => .parsed (f a)
  | .refused => .refused
  | .unprimed => .unprimed

end Attempt

namespace Parser

def ofScanner (scanner : Scanner) (table : OperatorTable) (anonymous : String)
    (limit : Option Int) : Parser :=
  ⟨scanner, none, table, anonymous, .ofLimit limit⟩

def moveTo (p : Parser) (l : Lookahead) : Parser :=
  { p with scanner := l.scanner, current := some l.token }

def advance (p : Parser) : Parser :=
  p.moveTo (.ofScanner p.scanner)

/-- Reads the first token unless that has been done. -/
def prime (p : Parser) : Parser :=
  if p.current.isNone then p.advance else p

def remaining (p : Parser) : Nat :=
  match p.current with
  | some t => (Lookahead.mk t p.scanner).remaining
  | none => p.scanner.remaining

/-- Ends a parse at a lookahead. A refusal is reported. -/
def settle {α : Type} (p : Parser) : Except Refusal α × Lookahead → Attempt α × Parser
  | (.ok a, l) => (.parsed a, p.moveTo l)
  | (.error cause, l) =>
    let q := p.moveTo l
    (.refused, { q with errors := q.errors.add (l.diagnostic cause) })

def attempt {σ α : Type} (p : Parser) (step : σ → Token → Step σ α) (s : σ) :
    Attempt α × Parser :=
  match p.current with
  | none => (.unprimed, p)
  | some t => p.settle ((Lookahead.mk t p.scanner).run step s)

/-! ## Progress -/

theorem moveTo_remaining (p : Parser) (l : Lookahead) : (p.moveTo l).remaining = l.remaining :=
  rfl

theorem settle_remaining {α : Type} (p : Parser) (r : Except Refusal α × Lookahead) :
    (p.settle r).2.remaining = r.2.remaining := by
  rcases r with ⟨_ | _, l⟩ <;> rfl

theorem advance_remaining_le (p : Parser) : p.advance.remaining ≤ p.remaining := by
  rw [advance, moveTo_remaining]
  refine Nat.le_trans (Lookahead.mk ⟨.endOfInput, ⟨"", 0, 0⟩⟩ p.scanner).advance_remaining_le ?_
  unfold remaining
  split
  · simp only [Lookahead.remaining]; omega
  · exact Nat.le_refl _

theorem advance_remaining_lt (p : Parser) {t : Token} (ht : p.current = some t)
    (he : t.isEnd = false) : p.advance.remaining < p.remaining := by
  rw [advance, moveTo_remaining]
  simp only [remaining, ht]
  exact (Lookahead.mk t p.scanner).advance_remaining_lt he

theorem prime_remaining_le (p : Parser) : p.prime.remaining ≤ p.remaining := by
  unfold prime
  split
  · exact p.advance_remaining_le
  · exact Nat.le_refl _

theorem attempt_remaining_le {σ α : Type} (p : Parser) (step : σ → Token → Step σ α) (s : σ) :
    (p.attempt step s).2.remaining ≤ p.remaining := by
  unfold attempt
  split
  · exact Nat.le_refl _
  · next t ht =>
    rw [settle_remaining]
    simp only [remaining, ht]
    rcases Lookahead.run_eq_or_remaining_lt step ⟨t, p.scanner⟩ s with h | h
    · exact Nat.le_of_eq (congrArg Lookahead.remaining h)
    · exact Nat.le_of_lt h

/-- An attempt that cannot end before its first token makes progress if it succeeds. -/
theorem attempt_remaining_lt {σ α : Type} (p : Parser) (step : σ → Token → Step σ α) (s : σ)
    (hs : ∀ t a, step s t ≠ .done a) {a : α} {q : Parser}
    (h : p.attempt step s = (.parsed a, q)) : q.remaining < p.remaining := by
  unfold attempt at h
  split at h
  · simp at h
  · next t ht =>
    have hq := congrArg (fun r => r.2.remaining) h
    have ha := congrArg Prod.fst h
    simp only [settle_remaining] at hq
    rw [← hq]
    simp only [remaining, ht]
    cases hr : ((Lookahead.mk t p.scanner).run step s) with
    | mk r l =>
      cases r with
      | error => rw [hr] at ha; simp [settle] at ha
      | ok b =>
        have := Lookahead.run_remaining_lt step ⟨t, p.scanner⟩ s hs b (by rw [hr])
        rwa [hr] at this

/-- An attempt at a token that is not the end, followed by a skipped token, makes progress. -/
theorem attempt_advance_remaining_lt {σ α : Type} (p : Parser) (step : σ → Token → Step σ α)
    (s : σ) {t : Token} (ht : p.current = some t) (he : t.isEnd = false) :
    (p.attempt step s).2.advance.remaining < p.remaining := by
  have hle := (p.attempt step s).2.advance_remaining_le
  simp only [attempt, ht] at hle ⊢
  rcases Lookahead.run_eq_or_remaining_lt step ⟨t, p.scanner⟩ s with h | h
  · have hc : (p.settle ((Lookahead.mk t p.scanner).run step s)).2.current = some t := by
      generalize (Lookahead.mk t p.scanner).run step s = r at h ⊢
      rcases r with ⟨_ | _, l⟩ <;> simp_all [settle, moveTo]
    have hlt := advance_remaining_lt _ hc he
    rw [settle_remaining, h] at hlt
    simpa only [remaining, ht] using hlt
  · rw [settle_remaining] at hle
    simp only [remaining, ht] at hle ⊢
    exact Nat.lt_of_le_of_lt hle h

/-! ## Attempts -/

def operand (p : Parser) : Attempt Node × Parser :=
  p.attempt (ExpressionState.step p.table none) .start

def expression (p : Parser) : Attempt Node × Parser :=
  p.attempt (ExpressionState.step p.table (some 0)) .start

def signature (p : Parser) : Attempt Prototype × Parser :=
  p.attempt SignatureState.step .start

def definition (p : Parser) : Attempt Definition × Parser :=
  p.advance.attempt (DefinitionState.step p.table) (.signature .start)

def declaration (p : Parser) : Attempt Prototype × Parser :=
  p.advance.signature

def bareExpression (p : Parser) : Attempt Definition × Parser :=
  let (result, q) := p.expression
  (result.map (Definition.wrap p.anonymous), q)

/-- The last number, read at the current token whatever that is. -/
def numberHere (p : Parser) : Attempt Node × Parser :=
  match p.current with
  | none => (.unprimed, p)
  | some t => (.parsed (.number p.scanner.number (some t.location)), p.advance)

/-- The last word as a variable or the callee of a call, at the current token whatever that
is. -/
def nameHere (p : Parser) : Attempt Node × Parser :=
  match p.current with
  | none => (.unprimed, p)
  | some t =>
    p.advance.attempt (ExpressionState.step p.table none)
      ⟨.callOrVariable p.scanner.word t.location, [], []⟩

/-- A group whose opening is the current token, whatever that is. -/
def groupHere (p : Parser) : Attempt Node × Parser :=
  p.advance.attempt (ExpressionState.step p.table none) ⟨.operand, [], [⟨.group, []⟩]⟩

theorem advance_operand_remaining_lt (p : Parser) {e : Node} {q : Parser}
    (h : p.advance.operand = (.parsed e, q)) : q.remaining < p.remaining :=
  Nat.lt_of_lt_of_le
    (attempt_remaining_lt _ _ _ (ExpressionState.step_start_ne_done p.advance.table none) h)
    p.advance_remaining_le

/-- Takes tokens and operands by turns until an operand is refused. -/
def alternate (p : Parser) : Parser :=
  match _h : p.advance.operand with
  | (.parsed _, q) => alternate q
  | (.refused, q) => q
  | (.unprimed, q) => q
termination_by p.remaining
decreasing_by exact p.advance_operand_remaining_lt _h

/-- Continues the chain that starts with the operand `lhs` by operators of precedence at least
`least`. With a negative bound every token passes for an operator, so that the chain can only
end in a refusal. -/
def chain (p : Parser) (least : Int) (lhs : Node) : Attempt Node × Parser :=
  match p.current with
  | some _ =>
    if 0 ≤ least then p.attempt (ExpressionState.step p.table (some least)) (.after lhs)
    else (.refused, p.alternate)
  | none =>
    if 0 ≤ least then (.parsed lhs, p)
    else
      match p.advance.expression with
      | (.parsed _, q) => (.unprimed, q)
      | r => r

end Parser

end ExprFront
