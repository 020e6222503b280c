/-!
# Line ends of files

A file may end its lines by a line feed, a carriage return, or both in this order; reading it
turns each into one line feed.
-/

namespace ExprFront.Text
set_option autoImplicit false

/-- Replaces every line end by a line feed. -/
def unifyLineEnds : List Char → List Char
  | [] => []
  | '\r' :: '\n' :: cs => '\n' :: unifyLineEnds cs
  | '\r' :: cs => '\n' :: unifyLineEnds cs
  | c :: cs => c :: unifyLineEnds cs

end ExprFront.Text
