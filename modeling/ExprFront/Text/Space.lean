/-!
# White space around a text

The characters with the Unicode property of white space, together with the four information
separators. Trimming removes them at both ends of a text and nowhere else.
-/

namespace ExprFront.Text
set_option autoImplicit false

def isSpace (c : Char) : Bool :=
  let n := c.toNat
  (9 ≤ n && n ≤ 13) || (28 ≤ n && n ≤ 32) || n == 0x85 || n == 0xA0 || n == 0x1680 ||
    (0x2000 ≤ n && n ≤ 0x200A) || n == 0x2028 || n == 0x2029 || n == 0x202F ||
    n == 0x205F || n == 0x3000

/-- Drops the characters that satisfy `p` at both ends. -/
def stripBy (p : Char → Bool) (cs : List Char) : List Char :=
  ((cs.dropWhile p).reverse.dropWhile p).reverse

def trim (cs : List Char) : List Char :=
  stripBy isSpace cs

end ExprFront.Text
