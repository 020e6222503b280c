/-!
# Powers of ten

The unit of a place in a decimal numeral.
-/

namespace ExprFront
set_option autoImplicit false

def tenPower (n : Nat) : Nat := Nat.pow 10 n

theorem tenPower_zero : tenPower 0 = 1 := rfl

theorem tenPower_pos (n : Nat) : 0 < tenPower n := Nat.pow_pos (by decide)

end ExprFront
