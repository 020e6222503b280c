import ExprFront.Json.Value
import ExprFront.Token.Classify
import ExprFront.Tree.Fault

/-!
# Trees in reports

A report writes an expression as an object whose first member tells its kind. Every name of a
signature comes with the kind of token that it would be.
-/

namespace ExprFront
set_option autoImplicit false

def nameEntry (name : CodeText) : Json :=
  .object [("type", .text (reportName (classifyCode name))), ("value", .text name)]

def signatureEntry (name : CodeText) (params : List String) : Json :=
  .object
    [("name", nameEntry name), ("args", .array (params.map fun param : String => nameEntry param))]

def Prototype.entry (p : Prototype) : Json :=
  signatureEntry p.name p.params

namespace Node

mutual

def entry : Node → Except TreeFault Json
  | .number x _ => .ok (.object [("kind", .text "number"), ("value", .number x)])
  | .variable name _ => .ok (.object [("kind", .text "variable"), ("name", .text name)])
  | .binary op lhs rhs _ => do
    let l ← entry lhs
    let r ← entry rhs
    return .object
      [("kind", .text "binary"), ("op", (op.map fun o : String => Json.text o).getD .null),
        ("lhs", l), ("rhs", r)]
  | .call callee args _ => do
    let items ← entries args
    return .object [("kind", .text "call"), ("callee", .text callee), ("args", .array items)]
  | n => .error (.notExpression n)

def entries : List Node → Except TreeFault (List Json)
  | [] => .ok []
  | n :: ns => do
    let item ← entry n
    let items ← entries ns
    return item :: items

end

end Node

end ExprFront
