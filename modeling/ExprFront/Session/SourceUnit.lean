import ExprFront.Parser.Basic
import ExprFront.Tree.Fault

/-!
# Units of a program

A program is a sequence of units: definitions, declarations and bare expressions, with
semicolons between them wherever one likes. The first token of a unit decides its kind. A unit
that cannot be parsed is a failure; one token is skipped after it.
-/

namespace ExprFront
set_option autoImplicit false

inductive UnitKind
  | definition
  | declaration
  | expression
  | failure
  deriving DecidableEq

namespace UnitKind

def label : UnitKind → String
  | .definition => "DEFINITION"
  | .declaration => "EXTERN"
  | .expression => "EXPRESSION"
  | .failure => "ERROR"

def all : List UnitKind :=
  [.definition, .declaration, .expression, .failure]

def ofLexeme : Lexeme → UnitKind
  | .define => .definition
  | .external => .declaration
  | _ => .expression

end UnitKind

inductive SourceUnit
  | definition (f : Definition)
  | declaration (p : Prototype)
  | expression (f : Definition)
  | failure (diagnostic : Option Diagnostic)

namespace SourceUnit

def kind : SourceUnit → UnitKind
  | .definition _ => .definition
  | .declaration _ => .declaration
  | .expression _ => .expression
  | .failure _ => .failure

def node? : SourceUnit → Option Node
  | .definition f => some f.node
  | .declaration p => some (.prototype p)
  | .expression f => some f.node
  | .failure _ => none

/-- A unit of a given kind from a tree made by hand, or from a diagnostic. -/
def ofNode (node : Node) (diagnostic : Option Diagnostic) : UnitKind → Except TreeFault SourceUnit
  | .definition => node.definition.map .definition
  | .declaration => node.signature.map .declaration
  | .expression => node.definition.map .expression
  | .failure => .ok (.failure diagnostic)

def diagnostic? : SourceUnit → Option Diagnostic
  | .failure d => d
  | _ => none

end SourceUnit

namespace Parser

/-- Makes a unit of an attempt, before which the given number of diagnostics had been reported. After
a failure one token is skipped, and the last diagnostic belongs to it if there is a new one. -/
def concludeUnit {α : Type} (make : α → SourceUnit) (reported : Nat) :
    Attempt α × Parser → SourceUnit × Parser
  | (.parsed a, q) => (make a, q)
  | (_, q) =>
    (.failure (if reported < q.errors.count then q.errors.diagnostics.getLast? else none), q.advance)

def unit (p : Parser) (t : Token) : SourceUnit × Parser :=
  let reported := p.errors.count
  match UnitKind.ofLexeme t.lexeme with
  | .definition => concludeUnit .definition reported p.definition
  | .declaration => concludeUnit .declaration reported p.declaration
  | _ => concludeUnit .expression reported p.bareExpression

theorem concludeUnit_remaining_le {α : Type} (make : α → SourceUnit) (reported : Nat)
    (r : Attempt α × Parser) : (concludeUnit make reported r).2.remaining ≤ r.2.remaining := by
  rcases r with ⟨_ | _ | _, q⟩
  · exact Nat.le_refl _
  · exact q.advance_remaining_le
  · exact q.advance_remaining_le

/-- Every unit takes at least one token. -/
theorem unit_remaining_lt (p : Parser) {t : Token} (ht : p.current = some t)
    (he : t.isEnd = false) : (p.unit t).2.remaining < p.remaining := by
  have hlt := p.advance_remaining_lt ht he
  unfold unit
  split
  · exact Nat.lt_of_le_of_lt (concludeUnit_remaining_le _ _ _)
      (Nat.lt_of_le_of_lt (attempt_remaining_le _ _ _) hlt)
  · exact Nat.lt_of_le_of_lt (concludeUnit_remaining_le _ _ _)
      (Nat.lt_of_le_of_lt (attempt_remaining_le _ _ _) hlt)
  · have hskip := p.attempt_advance_remaining_lt (ExpressionState.step p.table (some 0)) .start ht he
    have hdone := fun e q => attempt_remaining_lt (a := e) (q := q) p
      (ExpressionState.step p.table (some 0)) .start
      (ExpressionState.step_start_ne_done p.table (some 0))
    simp only [bareExpression, expression]
    generalize p.attempt (ExpressionState.step p.table (some 0)) .start = r at hskip hdone ⊢
    rcases r with ⟨_ | _ | _, q⟩
    · exact hdone _ _ rfl
    · exact hskip
    · exact hskip

end Parser

end ExprFront
