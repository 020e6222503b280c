import ExprFront.Tree.Fault

/-!
# Outlines of trees

An outline has one line for each node, indented by two blanks for each level. A function is
followed by its body one level deeper.
-/

namespace ExprFront
set_option autoImplicit false

structure OutlineLine where
  level : Nat
  label : String
  deriving DecidableEq

def OutlineLine.text (l : OutlineLine) : String :=
  String.ofList (List.replicate (2 * l.level) ' ') ++ l.label

namespace Node

mutual

def outlineAt (level : Nat) : Node → Except TreeFault (List OutlineLine)
  | .number x _ => .ok [⟨level, "Number: " ++ x.briefText⟩]
  | .variable name _ => .ok [⟨level, "Variable: " ++ name⟩]
  | .binary op lhs rhs _ => do
    let l ← outlineAt (level + 1) lhs
    let r ← outlineAt (level + 1) rhs
    return ⟨level, "Binary " ++ displayOperator op⟩ :: (l ++ r)
  | .call callee args _ => do
    let inner ← outlineAllAt (level + 1) args
    return ⟨level, "Call: " ++ callee⟩ :: inner
  | .prototype p => .ok [⟨level, "Extern: " ++ p.header ", "⟩]
  | .function s body => do
    let p ← s.signature
    let inner ← outlineAt (level + 1) body
    return ⟨level, "Function: " ++ p.header ", "⟩ :: inner
  | .datum d => .error (.notPrintable (.datum d))

def outlineAllAt (level : Nat) : List Node → Except TreeFault (List OutlineLine)
  | [] => .ok []
  | n :: ns => do
    let l ← outlineAt level n
    let r ← outlineAllAt level ns
    return l ++ r

end

def outline (n : Node) : Except TreeFault String := do
  let lines ← n.outlineAt 0
  return String.intercalate "\n" (lines.map OutlineLine.text)

end Node

end ExprFront
