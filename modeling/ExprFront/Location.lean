/-!
# Places in a source text

A `Position` is a line and a column, both counted from 1 and in characters; a `Location` adds
the name of the source and is what tokens, nodes and diagnostics carry. Only a line feed ends
a line.
-/

namespace ExprFront
set_option autoImplicit false

structure Position where
  line : Nat
  column : Nat
  deriving DecidableEq

def Position.start : Position := ⟨1, 1⟩

/-- The position of the character that follows `c`, when `c` stands at `p`. -/
def Position.next (p : Position) (c : Char) : Position :=
  if c = '\n' then ⟨p.line + 1, 1⟩ else ⟨p.line, p.column + 1⟩

/-- A place in a named source. Hand-made locations may hold any integers. -/
structure Location where
  filename : String
  line : Int
  column : Int
  deriving DecidableEq

def Position.within (p : Position) (filename : String) : Location :=
  ⟨filename, p.line, p.column⟩

/-- The text `line:column` of a location. -/
def Location.place (l : Location) : String :=
  l.line.repr ++ ":" ++ l.column.repr

def Location.text (l : Location) : String :=
  l.filename ++ ":" ++ l.place

end ExprFront
