import ExprFront.Parser.Lookahead
import ExprFront.Tree.Node

/-!
# Parsing signatures

A signature is a name and, in parentheses, any number of parameter names with nothing between
them. It is located at its name.
-/

namespace ExprFront
set_option autoImplicit false

/-- How far a signature has been read. -/
inductive SignatureState
  | start
  | named (name : String) (location : Location)
  | opened (name : String) (location : Location) (params : List String)
  | closed (signature : Prototype)

namespace SignatureState

def step : SignatureState → Token → Step SignatureState Prototype
  | .start, t =>
    match t.lexeme with
    | .name name => .shift (.named name t.location)
    | _ => .refuse .signatureName
  | .named name location, t =>
    if t.lexeme = .char '(' then .shift (.opened name location [])
    else .refuse .parametersStart
  | .opened name location params, t =>
    match t.lexeme with
    | .name param => .shift (.opened name location (params ++ [param]))
    | .char ')' => .shift (.closed ⟨name, params, some location⟩)
    | _ => .refuse .parametersEnd
  | .closed signature, _ => .done signature

end SignatureState

end ExprFront
