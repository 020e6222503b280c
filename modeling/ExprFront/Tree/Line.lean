import ExprFront.Tree.Walk

/-!
# Trees on one line

An expression on one line has parentheses around every operation, so that no precedence is
needed to read it. Numbers take their brief text.
-/

namespace ExprFront
set_option autoImplicit false

namespace Node

mutual

def line : Node → Except TreeFault String
  | .number x _ => .ok x.briefText
  | .variable name _ => .ok name
  | .binary op lhs rhs _ => do
    let l ← line lhs
    let r ← line rhs
    return "(" ++ l ++ " " ++ op.getD Datum.null.display ++ " " ++ r ++ ")"
  | .call callee args _ => do
    let items ← lines args
    return callee ++ "(" ++ String.intercalate ", " items ++ ")"
  | n => .error (.notExpression n)

def lines : List Node → Except TreeFault (List String)
  | [] => .ok []
  | n :: ns => do
    let item ← line n
    let items ← lines ns
    return item :: items

end

/-- A signature, a function with its body shown by `showBody`, or an expression shown by it. -/
def summary (showBody : Node → Except TreeFault String) : Node → Except TreeFault String
  | .prototype p => .ok (p.header " ")
  | .function s body => do
    let p ← s.signature
    let text ← showBody body
    return p.header " " ++ " " ++ text
  | n => showBody n

def countText (n : Node) : Except TreeFault String := do
  let nodes ← n.visited
  return nodes.length.repr

end Node

end ExprFront
