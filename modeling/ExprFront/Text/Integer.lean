import ExprFront.Text.Digit
import ExprFront.Text.Space

/-!
# Reading integers

An integer is written with an optional sign and decimal digits of any script, with single
underscores allowed between digits and padding around the whole. More than `digitLimit`
digits are refused.
-/

namespace ExprFront.Text
set_option autoImplicit false

def digitLimit : Nat := 4300

inductive IntegerFault
  | malformed
  | tooLong (digits : Nat)
  deriving DecidableEq

/-- White space that may stand around an integer: the information separators may not. -/
def isPadding (c : Char) : Bool :=
  isSpace c && !(28 ≤ c.toNat && c.toNat ≤ 31)

/-- Splits off a sign; the flag tells whether it was a minus. -/
def splitSign : List Char → Bool × List Char
  | '-' :: cs => (true, cs)
  | '+' :: cs => (false, cs)
  | cs => (false, cs)

/-- The digits of an unsigned integer: at least one, with single underscores between them. -/
def readDigits? : List Char → Option (List Nat)
  | [] => none
  | [c] => (digitValue? c).map fun d => [d]
  | c :: '_' :: cs => do
    let d ← digitValue? c
    let ds ← readDigits? cs
    return d :: ds
  | c :: cs => do
    let d ← digitValue? c
    let ds ← readDigits? cs
    return d :: ds

def ofDigitValues (ds : List Nat) : Nat :=
  ds.foldl (fun n d => 10 * n + d) 0

def isDigitOrUnderscore (c : Char) : Bool :=
  c = '_' || (digitValue? c).isSome

/-- Reads an integer that fills the whole text but for padding. What follows the digits is looked
at only if there are not too many of them. -/
def readInteger (cs : List Char) : Except IntegerFault Int :=
  let (negative, body) := splitSign (cs.dropWhile isPadding)
  match readDigits? (body.takeWhile isDigitOrUnderscore) with
  | none => .error .malformed
  | some ds =>
    if digitLimit < ds.length then .error (.tooLong ds.length)
    else if (body.dropWhile isDigitOrUnderscore).all isPadding then
      let n : Int := ofDigitValues ds
      .ok (if negative then -n else n)
    else .error .malformed

end ExprFront.Text
