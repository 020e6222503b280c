import ExprFront.Tree.Outline

/-!
# A printer of outlines

A printer is used for one node after the other. It keeps the lines that it has written and the
level at which it stands, so a node that is refused in the middle of an outline leaves the printer
in the middle of it. The next print starts anew.
-/

namespace ExprFront
set_option autoImplicit false

structure OutlinePrinter where
  output : List String
  level : Nat
  deriving DecidableEq

namespace OutlinePrinter

def new : OutlinePrinter := ⟨[], 0⟩

/-- A part of a print. What was written up to a refusal stays. -/
abbrev Print := EStateM TreeFault OutlinePrinter

def emit (label : String) : Print Unit :=
  modify fun p => { p with output := p.output ++ [OutlineLine.text ⟨p.level, label⟩] }

/-- Visits one level deeper. The level is not left again when the visit is refused. -/
def nested (visits : Print Unit) : Print Unit := do
  modify fun p => { p with level := p.level + 1 }
  visits
  modify fun p => { p with level := p.level - 1 }

mutual

def visit : Node → Print Unit
  | .function s body => do
    let p ← MonadExcept.ofExcept s.signature
    emit ("Function: " ++ p.header ", ")
    nested (visit body)
  | .prototype p => emit ("Extern: " ++ p.header ", ")
  | .number x _ => emit ("Number: " ++ x.briefText)
  | .variable name _ => emit ("Variable: " ++ name)
  | .binary op lhs rhs _ => do
    emit ("Binary " ++ Node.displayOperator op)
    nested do
      visit lhs
      visit rhs
  | .call callee args _ => do
    emit ("Call: " ++ callee)
    nested (visitAll args)
  | .datum d => throw (.notPrintable (.datum d))

def visitAll : List Node → Print Unit
  | [] => pure ()
  | n :: ns => do
    visit n
    visitAll ns

end

def outline (n : Node) : Print String := do
  set new
  visit n
  return String.intercalate "\n" (← get).output

/-- The text of a node, or its refusal, and the printer afterwards. -/
def print (p : OutlinePrinter) (n : Node) : Except TreeFault String × OutlinePrinter :=
  match outline n p with
  | .ok text q => (.ok text, q)
  | .error fault q => (.error fault, q)

/-- Prints nodes in order. A node that is refused does not keep the others from being printed. -/
def printAll (p : OutlinePrinter) : List Node → List (Except TreeFault String) × OutlinePrinter
  | [] => ([], p)
  | n :: ns =>
    let (text, q) := p.print n
    let (texts, r) := q.printAll ns
    (text :: texts, r)

end OutlinePrinter

end ExprFront
