/-!
# Hexadecimal digits

Lower-case digits of fixed width, as used in escapes and in dumps of machine words.
-/

namespace ExprFront.Text
set_option autoImplicit false

def hexDigit (n : Nat) : Char :=
  Nat.digitChar (n % 16)

/-- The last `width` hexadecimal digits of `n`, most significant first. -/
def hex : Nat → Nat → List Char
  | 0, _ => []
  | width + 1, n => hex width (n / 16) ++ [hexDigit n]

end ExprFront.Text
