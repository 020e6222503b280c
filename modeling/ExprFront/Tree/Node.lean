import ExprFront.Location
import ExprFront.Tree.Datum

/-!
# Syntax trees

An expression is a number, a variable, a binary operation or a call. Trees made by hand may
hold anything in any place, so one type covers expressions, signatures, functions and plain
data; the parser builds proper trees only. Every location is optional, and no comparison looks
at it.
-/

namespace ExprFront
set_option autoImplicit false

/-- The signature of a function: its name and its parameters in order. -/
structure Prototype where
  name : String
  params : List String
  location : Option Location
  deriving DecidableEq

inductive Node
  | number (value : Binary64) (location : Option Location)
  | variable (name : String) (location : Option Location)
  /-- An operation. Only one made by hand may lack its operator. -/
  | binary (op : Option String) (lhs rhs : Node) (location : Option Location)
  | call (callee : String) (args : List Node) (location : Option Location)
  | prototype (signature : Prototype)
  | function (signature body : Node)
  | datum (value : Datum)

structure Definition where
  signature : Prototype
  body : Node

def Definition.node (f : Definition) : Node :=
  .function (.prototype f.signature) f.body

/-- The signature with its parameters in parentheses, set apart by `separator`. -/
def Prototype.header (separator : String) (p : Prototype) : String :=
  p.name ++ "(" ++ String.intercalate separator p.params ++ ")"

namespace Node

def missing : Node := .datum .null

def location? : Node → Option Location
  | .number _ l => l
  | .variable _ l => l
  | .binary _ _ _ l => l
  | .call _ _ l => l
  | _ => none

def className : Node → String
  | .number .. => "NumberExpr"
  | .variable .. => "VariableExpr"
  | .binary .. => "BinaryExpr"
  | .call .. => "CallExpr"
  | .prototype .. => "Prototype"
  | .function .. => "Function"
  | .datum d => d.typeName

/-! ## Display -/

/-- Items in parentheses; a single one is followed by a comma. -/
def tuple : List String → String
  | [item] => "(" ++ item ++ ",)"
  | items => "(" ++ String.intercalate ", " items ++ ")"

def displayOperator (op : Option String) : String :=
  (op.map Text.quote).getD Datum.null.display

def displaySignature (p : Prototype) : String :=
  "Prototype(name=" ++ Text.quote p.name ++ ", params=" ++ tuple (p.params.map Text.quote) ++ ")"

mutual

def display : Node → String
  | .number x _ => "NumberExpr(value=" ++ x.text ++ ")"
  | .variable name _ => "VariableExpr(name=" ++ Text.quote name ++ ")"
  | .binary op lhs rhs _ =>
    "BinaryExpr(op=" ++ displayOperator op ++ ", lhs=" ++ display lhs ++ ", rhs=" ++ display rhs ++ ")"
  | .call callee args _ =>
    "CallExpr(callee=" ++ Text.quote callee ++ ", args=" ++ tuple (displayAll args) ++ ")"
  | .prototype p => displaySignature p
  | .function s body => "Function(prototype=" ++ display s ++ ", body=" ++ display body ++ ")"
  | .datum d => d.display

def displayAll : List Node → List String
  | [] => []
  | n :: ns => display n :: displayAll ns

end

/-! ## Equality -/

/-- Equality of signatures but for their locations. -/
def sameSignature (p q : Prototype) : Bool :=
  p.name == q.name && p.params == q.params

mutual

/-- Equality of trees but for their locations. -/
def same : Node → Node → Bool
  | .number x _, .number y _ => x.sameValue y
  | .variable s _, .variable t _ => s == t
  | .binary o l r _, .binary p m s _ => o == p && same l m && same r s
  | .call f as _, .call g bs _ => f == g && sameAll as bs
  | .prototype p, .prototype q => sameSignature p q
  | .function s b, .function t c => same s t && same b c
  | .datum d, .datum e => d.same e
  | _, _ => false

def sameAll : List Node → List Node → Bool
  | [], [] => true
  | a :: as, b :: bs => same a b && sameAll as bs
  | _, _ => false

end

end Node

end ExprFront
