import ExprFront.Decimal.Nearest
import ExprFront.Decimal.Power
import ExprFront.Text.Digit
import ExprFront.Text.Integer

/-!
# Reading decimal numerals

A run of digits and points has the value of its longest beginning of the form `D`, `D.`, `D.D`
or `.D`, each `D` a run of digits, and zero if it has none. A written number, as it stands in
data, may also have a sign, an exponent and underscores between digits, or be one of the words
for infinity and for what is no number.
-/

namespace ExprFront
set_option autoImplicit false

namespace Numeral
open Text

def parts (cs : List Char) : List Char × List Char :=
  let whole := cs.takeWhile isAsciiDigit
  match cs.drop whole.length with
  | '.' :: rest => (whole, rest.takeWhile isAsciiDigit)
  | _ => (whole, [])

/-- The number nearest to the decimal with these digits before and after the point. -/
def ofParts (whole fraction : List Char) : Binary64 :=
  Binary64.nearest false (ofDigits (whole ++ fraction)) (tenPower fraction.length)

/-- The value of the longest valid beginning of a run of digits and points. -/
def value (cs : List Char) : Binary64 :=
  let (whole, fraction) := parts cs
  if whole.isEmpty && fraction.isEmpty then .zero else ofParts whole fraction

/-! ## Written numbers -/

/-- Replaces digits of every script by ASCII digits and drops single underscores between
digits; any other underscore makes the text invalid. -/
def plainDigits? (afterDigit : Bool) : List Char → Option (List Char)
  | [] => some []
  | '_' :: c :: cs =>
    match afterDigit, digitValue? c with
    | true, some d => (plainDigits? true cs).map (Nat.digitChar d :: ·)
    | _, _ => none
  | c :: cs =>
    match digitValue? c with
    | some d => (plainDigits? true cs).map (Nat.digitChar d :: ·)
    | none => if c = '_' then none else (plainDigits? false cs).map (c :: ·)

/-- The number nearest to `coefficient * 10 ^ place`. A magnitude of `10 ^ 400` or more, or
below `10 ^ -400`, is settled without forming the power. -/
def scaled (negative : Bool) (coefficient : Nat) (place : Int) : Binary64 :=
  let leading := place + (Nat.toDigits 10 coefficient).length
  if coefficient = 0 || leading < -400 then .signedZero negative
  else if 400 < leading then .infinity negative
  else if 0 ≤ place then Binary64.nearest negative (coefficient * tenPower place.toNat) 1
  else Binary64.nearest negative coefficient (tenPower (-place).toNat)

/-- An exponent after its mark: an optional sign and digits. -/
def exponent? (cs : List Char) : Option Int :=
  let (negative, ds) := splitSign cs
  if ds.isEmpty || !ds.all isAsciiDigit then none
  else some (if negative then -(ofDigits ds : Int) else (ofDigits ds : Int))

def finite? (negative : Bool) (cs : List Char) : Option Binary64 :=
  let (whole, fraction) := parts cs
  let rest := cs.drop (whole.length)
  let rest := if rest.head? = some '.' then rest.drop (fraction.length + 1) else rest
  if whole.isEmpty && fraction.isEmpty then none
  else
    let coefficient := ofDigits (whole ++ fraction)
    match rest with
    | [] => some (scaled negative coefficient (-(fraction.length : Int)))
    | c :: cs =>
      if c = 'e' || c = 'E' then
        (exponent? cs).map fun e => scaled negative coefficient (e - fraction.length)
      else none

def read? (s : String) : Option Binary64 := do
  let cs ← plainDigits? false (stripBy isPadding s.toList)
  let (negative, body) := splitSign cs
  let word := String.ofList (body.map Char.toLower)
  if word = "inf" || word = "infinity" then return .infinity negative
  else if word = "nan" then return { Binary64.nan with negative := negative }
  else finite? negative body

end Numeral

end ExprFront
