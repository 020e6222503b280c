import ExprFront.Operator.Table
import ExprFront.Parser.Lookahead
import ExprFront.Tree.Node

/-!
# Parsing expressions

An expression is a chain of operands joined by operators. While a chain is read, the operators
that still lack their right operand wait on a stack, each binding tighter than the one below
it; an operator first completes every waiting one that binds at least as tightly, so that
operators of equal precedence associate to the left. Parentheses and argument lists are read
with chains of their own, and the chains around them are kept on a stack of brackets.
-/

namespace ExprFront
set_option autoImplicit false

/-! ## Chains -/

/-- An operator that has its left operand and lacks its right one. -/
structure Waiting where
  lhs : Node
  op : Char
  location : Location

/-- The operation, once its right operand is known. -/
def Waiting.complete (w : Waiting) (rhs : Node) : Node :=
  .binary (some (String.singleton w.op)) w.lhs rhs (some w.location)

namespace OperatorTable

/-- Completes the waiting operators of precedence at least `least`, tightest first. -/
def reduce (table : OperatorTable) (least : Int) :
    List Waiting → Node → List Waiting × Node
  | [], e => ([], e)
  | w :: ws, e =>
    if least ≤ table.precedence w.op then table.reduce least ws (w.complete e)
    else (w :: ws, e)

/-- Puts an operator after the operand `e` on the stack. -/
def push (table : OperatorTable) (ws : List Waiting) (e : Node) (op : Char)
    (location : Location) : List Waiting :=
  let (rest, lhs) := table.reduce (table.precedence op) ws e
  ⟨lhs, op, location⟩ :: rest

end OperatorTable

def completeAll (ws : List Waiting) (e : Node) : Node :=
  ws.foldl (fun rhs w => w.complete rhs) e

/-! ## States -/

inductive Bracket
  | group
  /-- The argument list of a call, with the arguments so far. -/
  | arguments (callee : String) (location : Location) (args : List Node)

/-- An open bracket and the chain around it. -/
structure Enclosure where
  bracket : Bracket
  outer : List Waiting

/-- What the innermost chain is about to take. -/
inductive Expected
  | operand
  /-- An operand, or the end of an argument list that has just been opened. -/
  | firstArgument
  /-- A name was read; it is a call if an argument list follows, and a variable if not. -/
  | callOrVariable (name : String) (location : Location)
  /-- An operand was read; an operator may follow. -/
  | operator (operand : Node)

structure ExpressionState where
  expected : Expected
  chain : List Waiting
  enclosures : List Enclosure

namespace ExpressionState

def start : ExpressionState := ⟨.operand, [], []⟩

def after (operand : Node) : ExpressionState := ⟨.operator operand, [], []⟩

/-- The end of a chain: the operand is complete, and the token belongs to the bracket around
it. Without a bracket the parse is done. -/
def endChain (operand : Node) (enclosures : List Enclosure) (t : Token) :
    Step ExpressionState Node :=
  match enclosures with
  | [] => .done operand
  | ⟨.group, outer⟩ :: rest =>
    if t.lexeme = .char ')' then .shift ⟨.operator operand, outer, rest⟩
    else .refuse .groupEnd
  | ⟨.arguments callee location args, outer⟩ :: rest =>
    if t.lexeme = .char ')' then
      .shift ⟨.operator (.call callee (args ++ [operand]) (some location)), outer, rest⟩
    else if t.lexeme = .char ',' then
      .shift ⟨.operand, [], ⟨.arguments callee location (args ++ [operand]), outer⟩ :: rest⟩
    else .refuse .argumentEnd

/-- The least precedence of the operators that the innermost chain takes. Within brackets it
takes them all; outside it may be a bare operand, which takes none. -/
def threshold (outermost : Option Int) (enclosures : List Enclosure) : Option Int :=
  if enclosures.isEmpty then outermost else some 0

def takes (table : OperatorTable) (least : Option Int) (c : Char) : Bool :=
  match least with
  | none => false
  | some n => n ≤ table.precedence c

def afterOperand (table : OperatorTable) (outermost : Option Int) (operand : Node)
    (chain : List Waiting) (enclosures : List Enclosure) (t : Token) :
    Step ExpressionState Node :=
  match t.lexeme with
  | .char c =>
    if takes table (threshold outermost enclosures) c then
      .shift ⟨.operand, table.push chain operand c t.location, enclosures⟩
    else endChain (completeAll chain operand) enclosures t
  | _ => endChain (completeAll chain operand) enclosures t

def beforeOperand (chain : List Waiting) (enclosures : List Enclosure) (t : Token) :
    Step ExpressionState Node :=
  match t.lexeme with
  | .name name => .shift ⟨.callOrVariable name t.location, chain, enclosures⟩
  | .number value => .shift ⟨.operator (.number value (some t.location)), chain, enclosures⟩
  | .char '(' => .shift ⟨.operand, [], ⟨.group, chain⟩ :: enclosures⟩
  | _ => .refuse .operand

def firstArgument (enclosures : List Enclosure) (t : Token) : Step ExpressionState Node :=
  match enclosures with
  | ⟨.arguments callee location args, outer⟩ :: rest =>
    if t.lexeme = .char ')' then
      .shift ⟨.operator (.call callee args (some location)), outer, rest⟩
    else beforeOperand [] enclosures t
  | _ => beforeOperand [] enclosures t

def step (table : OperatorTable) (outermost : Option Int) (s : ExpressionState) (t : Token) :
    Step ExpressionState Node :=
  match s.expected with
  | .operand => beforeOperand s.chain s.enclosures t
  | .firstArgument => firstArgument s.enclosures t
  | .callOrVariable name location =>
    if t.lexeme = .char '(' then
      .shift ⟨.firstArgument, [], ⟨.arguments name location [], s.chain⟩ :: s.enclosures⟩
    else
      afterOperand table outermost (.variable name (some location)) s.chain s.enclosures t
  | .operator operand => afterOperand table outermost operand s.chain s.enclosures t

theorem step_start_ne_done (table : OperatorTable) (outermost : Option Int) (t : Token)
    (e : Node) : step table outermost start t ≠ .done e := by
  simp only [step, start, beforeOperand]
  split <;> simp

end ExpressionState

end ExprFront
