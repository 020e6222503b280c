import ExprFront.Tree.Node

/-!
# Refusals of trees

A tree made by hand may hold any node in any place. Where it is read as an expression, as a
signature or as a function, a node that does not fit is refused.
-/

namespace ExprFront
set_option autoImplicit false

inductive TreeFault
  /-- The node stands where an expression should. -/
  | notExpression (node : Node)
  /-- The node has no outline. -/
  | notPrintable (node : Node)
  /-- The node stands where a signature or a function should, and lacks a part of it. -/
  | lacks (node : Node) (part : String)

def TreeFault.message : TreeFault → String
  | .notExpression n => "not an expression node: " ++ n.display
  | .notPrintable n => "cannot print " ++ n.className
  | .lacks n part => "'" ++ n.className ++ "' object has no attribute " ++ Text.quote part

namespace Node

/-- A node read as a signature. A variable has a name, but no parameters. -/
def signature : Node → Except TreeFault Prototype
  | .prototype p => .ok p
  | .variable name l => .error (.lacks (.variable name l) "params")
  | n => .error (.lacks n "name")

def definition : Node → Except TreeFault Definition
  | .function s body => do
    let p ← s.signature
    return ⟨p, body⟩
  | n => .error (.lacks n "prototype")

end Node

end ExprFront
