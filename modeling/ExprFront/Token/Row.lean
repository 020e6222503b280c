import ExprFront.Token.Basic

/-!
# Token rows

A listing has one row for each token: its kind, its value quoted or in full, and its place. A
token that is a character is shown by that alone.
-/

namespace ExprFront
set_option autoImplicit false

def Token.row (t : Token) : String :=
  let place := " " ++ t.location.place
  match t.lexeme with
  | .char c => Text.quote (String.singleton c) ++ place
  | .number value => t.kind.reportName ++ " " ++ value.text ++ place
  | .endOfInput => t.kind.reportName ++ place
  | .define => t.kind.reportName ++ " " ++ Text.quote "def" ++ place
  | .external => t.kind.reportName ++ " " ++ Text.quote "extern" ++ place
  | .name text => t.kind.reportName ++ " " ++ Text.quote text ++ place

end ExprFront
