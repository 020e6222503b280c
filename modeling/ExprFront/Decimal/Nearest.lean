import ExprFront.Decimal.Binary64

/-!
# The nearest binary64 number

A quotient of natural numbers is rounded to the nearest magnitude, a half to the even rank.
Magnitudes that round to `2 ^ 1024` or more are infinite.
-/

namespace ExprFront
set_option autoImplicit false

/-- The whole number nearest to `num / den`; of two, the even one. -/
def roundHalfEven (num den : Nat) : Nat :=
  let q := num / den
  let r := 2 * (num % den)
  if den < r || (r == den && q % 2 == 1) then q + 1 else q

theorem le_roundHalfEven (num den : Nat) : num / den ≤ roundHalfEven num den := by
  unfold roundHalfEven
  dsimp only
  split <;> omega

namespace Binary64

/-- The number of low bits that do not fit in a significand of 53 bits. -/
def excessBits (n : Nat) : Nat :=
  n.log2 + 1 - 53

/-- The rank of the magnitude nearest to `num / den`. A significand of 53 bits scaled by
`2 ^ s` units has the rank `s * 2 ^ 52` above its own, so a carry out of it needs no care. -/
def nearestRank (num den : Nat) : Nat :=
  let scaled := num * unitsInOne
  let s := excessBits (scaled / den)
  min (s * fractionSpan + roundHalfEven scaled (den <<< s)) infinityRank

def nearest (negative : Bool) (num den : Nat) : Binary64 :=
  ⟨negative, ⟨nearestRank num den, Nat.lt_of_le_of_lt (Nat.min_le_right _ _) (by decide)⟩⟩

end Binary64

end ExprFront
