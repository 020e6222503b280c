/-!
# Binary64 numbers

A number is a sign and a rank below `2 ^ 63`. Ranks order the magnitudes: the finite ones come
first, in ascending order, then infinity, then the values that are no numbers. Every finite
magnitude is a whole multiple of `2 ^ -1074`, and `units` is that multiple.
-/

namespace ExprFront
set_option autoImplicit false

structure Binary64 where
  negative : Bool
  rank : Fin 0x8000000000000000
  deriving DecidableEq

namespace Binary64

/-- The number of ranks with one exponent, `2 ^ 52`. -/
def fractionSpan : Nat := 0x10000000000000

/-- The rank of infinity; the finite magnitudes are exactly those of a smaller rank. -/
def infinityRank : Nat := 2047 * fractionSpan

/-- The number of units in one, `2 ^ 1074`. -/
def unitsInOne : Nat := 1 <<< 1074

theorem unitsInOne_pos : 0 < unitsInOne := by
  rw [unitsInOne, Nat.one_shiftLeft]
  exact Nat.two_pow_pos 1074

def unitsOf (rank : Nat) : Nat :=
  let exponent := rank / fractionSpan
  let fraction := rank % fractionSpan
  if exponent = 0 then fraction else (fractionSpan + fraction) <<< (exponent - 1)

def units (x : Binary64) : Nat :=
  unitsOf x.rank

def isFinite (x : Binary64) : Bool :=
  x.rank.val < infinityRank

def isInfinite (x : Binary64) : Bool :=
  x.rank.val == infinityRank

def isNaN (x : Binary64) : Bool :=
  infinityRank < x.rank.val

def isZero (x : Binary64) : Bool :=
  x.rank.val == 0

def word (x : Binary64) : Nat :=
  (if x.negative then 0x8000000000000000 else 0) + x.rank

def signedZero (negative : Bool) : Binary64 := ⟨negative, ⟨0, by decide⟩⟩

def zero : Binary64 := signedZero false

def infinity (negative : Bool) : Binary64 :=
  ⟨negative, ⟨infinityRank, by decide⟩⟩

def nan : Binary64 :=
  ⟨false, ⟨0x7FF8000000000000, by decide⟩⟩

/-- Equality of values: the two zeros are equal, and what is no number equals nothing. -/
def sameValue (x y : Binary64) : Bool :=
  !x.isNaN && !y.isNaN && ((x.isZero && y.isZero) || x == y)

/-- The value of a finite number as a whole number, if it is one. -/
def toInt? (x : Binary64) : Option Int :=
  if x.isFinite && x.units % unitsInOne == 0 then
    let n : Int := (x.units / unitsInOne : Nat)
    some (if x.negative then -n else n)
  else none

def truncate (x : Binary64) : Int :=
  let n : Int := (x.units / unitsInOne : Nat)
  if x.negative then -n else n

end Binary64

end ExprFront
