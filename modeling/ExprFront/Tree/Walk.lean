import ExprFront.Tree.Fault

/-!
# Walking a tree

Only expressions have sub-expressions. A walk visits an expression before its
sub-expressions and these from left to right, and stops at the first node that is no
expression.
-/

namespace ExprFront
set_option autoImplicit false

namespace Node

def children? : Node → Option (List Node)
  | .number .. => some []
  | .variable .. => some []
  | .binary _ lhs rhs _ => some [lhs, rhs]
  | .call _ args _ => some args
  | _ => none

/-- The direct sub-expressions, or the refusal of what is no expression. -/
def children (n : Node) : Except TreeFault (List Node) :=
  match n.children? with
  | some ns => .ok ns
  | none => .error (.notExpression n)

/-! ## Weight -/

mutual

def weight : Node → Nat
  | .binary _ lhs rhs _ => weight lhs + weight rhs + 1
  | .call _ args _ => weightAll args + 1
  | .function s body => weight s + weight body + 1
  | _ => 1

def weightAll : List Node → Nat
  | [] => 0
  | n :: ns => weight n + weightAll ns

end

theorem weightAll_append (ms ns : List Node) :
    weightAll (ms ++ ns) = weightAll ms + weightAll ns := by
  induction ms with
  | nil => simp [weightAll]
  | cons m ms ih => simp [weightAll, ih]; omega

theorem weightAll_children {n : Node} {ns : List Node} (h : n.children? = some ns) :
    weightAll ns < weight n := by
  cases n <;> simp [children?] at h <;> subst h <;> simp [weight, weightAll]

/-! ## The walk -/

/-- A walk: the nodes in the order of the visits, and the one that stopped it, which is the
last one visited. -/
structure Visits where
  nodes : List Node
  stoppedBy : Option Node

/-- Walks the trees on a stack, the first one on top. -/
def walkAll : List Node → Visits
  | [] => ⟨[], none⟩
  | n :: stack =>
    match _h : n.children? with
    | some ns =>
      let visits := walkAll (ns ++ stack)
      { visits with nodes := n :: visits.nodes }
    | none => ⟨[n], some n⟩
termination_by stack => weightAll stack
decreasing_by
  have := weightAll_children _h
  simp only [weightAll_append, weightAll]
  omega

def walk (n : Node) : Visits := walkAll [n]

/-- The nodes of a whole walk, unless it was stopped. -/
def visited (n : Node) : Except TreeFault (List Node) :=
  let visits := n.walk
  match visits.stoppedBy with
  | none => .ok visits.nodes
  | some m => .error (.notExpression m)

end Node

end ExprFront
