import ExprFront.Decimal.Nearest
import ExprFront.Decimal.Power

/-!
# Decimal approximations of a magnitude

A decimal is a coefficient and a power of ten. For a positive quotient `num / den` and a digit
count there is a grid of decimals around it; `significant` takes the nearest point of it, and
`shortest?` the first point, over grids of growing fineness, that reads back as the same number.
-/

namespace ExprFront
set_option autoImplicit false

/-- The value `coefficient * 10 ^ place`. -/
structure Decimal where
  coefficient : Nat
  place : Int
  deriving DecidableEq

namespace Decimal

def digitsOf (n : Nat) : List Char :=
  Nat.toDigits 10 n

/-- The place `p` of the leading digit of a positive quotient:
`10 ^ p ≤ num / den < 10 ^ (p + 1)`. -/
def leadingPlace (num den : Nat) : Int :=
  if den ≤ num then ((digitsOf (num / den)).length : Int) - 1
  else -((digitsOf ((den - 1) / num)).length : Int)

/-- The quotient `num / den` measured in units of `10 ^ place`, as a quotient again. -/
def scale (place : Int) (num den : Nat) : Nat × Nat :=
  if 0 ≤ place then (num, den * tenPower place.toNat) else (num * tenPower (-place).toNat, den)

/-- The last place of a number of `digits` digits that starts like `num / den`. -/
def lastPlace (digits num den : Nat) : Int :=
  leadingPlace num den - digits + 1

/-- The nearest decimal of `digits` digits; of two, the even one. -/
def significant (digits num den : Nat) : Decimal :=
  let place := lastPlace digits num den
  let (n, d) := scale place num den
  ⟨roundHalfEven n d, place⟩

/-- Whether a decimal lies between the midpoints that bound the numbers of this rank. The
midpoints themselves count for even ranks. -/
def readsBack (rank : Nat) (x : Decimal) : Bool :=
  let below := Binary64.unitsOf (rank - 1) + Binary64.unitsOf rank
  let above := Binary64.unitsOf rank + Binary64.unitsOf (rank + 1)
  let (ln, ld) := scale x.place below (2 * Binary64.unitsInOne)
  let (un, ud) := scale x.place above (2 * Binary64.unitsInOne)
  if rank % 2 = 0 then ln ≤ x.coefficient * ld && x.coefficient * ud ≤ un
  else ln < x.coefficient * ld && x.coefficient * ud < un

/-- The decimal of `digits` digits nearest to a positive magnitude among the two neighbours of
the magnitude that read back, if there is one. -/
def neighbour? (rank digits : Nat) : Option Decimal :=
  let num := Binary64.unitsOf rank
  let place := lastPlace digits num Binary64.unitsInOne
  let (n, d) := scale place num Binary64.unitsInOne
  let lower : Decimal := ⟨n / d, place⟩
  let upper : Decimal := ⟨n / d + 1, place⟩
  match readsBack rank lower, readsBack rank upper with
  | true, true => some ⟨roundHalfEven n d, place⟩
  | true, false => some lower
  | false, true => some upper
  | false, false => none

/-- The shortest decimal that reads back as the positive magnitude of this rank. Seventeen
digits are always enough. -/
def shortest (rank : Nat) : Decimal :=
  ((List.range 17).findSome? fun k => neighbour? rank (k + 1)).getD
    (significant 17 (Binary64.unitsOf rank) Binary64.unitsInOne)

def digits (x : Decimal) : List Char :=
  ((digitsOf x.coefficient).reverse.dropWhile (· == '0')).reverse

def exponent (x : Decimal) : Int :=
  x.place + (digitsOf x.coefficient).length - 1

end Decimal

end ExprFront
