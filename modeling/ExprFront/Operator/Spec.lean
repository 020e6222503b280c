import ExprFront.Operator.Table
import ExprFront.Text.Integer

/-!
# Operator specifications

A specification is an operator, an equals sign and a precedence, with white space around the
whole. The last equals sign counts, so that the equals sign itself can be an operator.
-/

namespace ExprFront
set_option autoImplicit false

inductive SpecFault
  /-- There is no equals sign, or no single character before the last one. -/
  | malformed (spec : String)
  /-- What follows the last equals sign is no integer. -/
  | badPrecedence (precedence spec : String)
  deriving DecidableEq

def SpecFault.message : SpecFault → String
  | .malformed spec =>
    "invalid operator spec " ++ Text.quote spec ++ " (expected OP=PREC, e.g. '^=50')"
  | .badPrecedence precedence spec =>
    "invalid precedence " ++ Text.quote precedence ++ " in operator spec " ++ Text.quote spec

/-- Cuts a text at the last occurrence of `c`, which belongs to neither part. -/
def cutAtLast? (c : Char) (cs : List Char) : Option (List Char × List Char) :=
  let after := (cs.reverse.takeWhile (· ≠ c)).reverse
  match cs.reverse.dropWhile (· ≠ c) with
  | _ :: before => some (before.reverse, after)
  | [] => none

def readSpec (spec : String) : Except SpecFault (Char × Int) :=
  match cutAtLast? '=' (Text.trim spec.toList) with
  | some ([c], digits) =>
    match Text.readInteger digits with
    | .ok n => .ok (c, n)
    | .error _ => .error (.badPrecedence (String.ofList digits) spec)
  | _ => .error (.malformed spec)

end ExprFront
