/-!
# Paths

A path is a list of names between slashes. With a slash in front it starts at the root, else at
the working directory. Slashes in a row count as one, and one at the end asks for a directory.
-/

namespace ExprFront
set_option autoImplicit false

inductive PathFault
  | missing
  | notDirectory
  | isDirectory
  | tooLong
  deriving DecidableEq

def PathFault.message : PathFault → String
  | .missing => "No such file or directory"
  | .notDirectory => "Not a directory"
  | .isDirectory => "Is a directory"
  | .tooLong => "File name too long"

structure Path where
  absolute : Bool
  /-- The names in order, among them those of the same directory and of the one above. -/
  names : List String
  slashed : Bool
  deriving DecidableEq

namespace Path

/-- The number of bytes that a path may not reach. -/
def byteLimit : Nat := 4096

/-- The greatest number of bytes of a name. -/
def nameLimit : Nat := 255

def namesOf (text : String) : List String :=
  ((text.toList.splitOn '/').map String.ofList).filter fun name => !name.isEmpty

/-- Takes a path apart. An empty one leads nowhere. -/
def read (text : String) : Except PathFault Path :=
  if text.isEmpty then .error .missing
  else if byteLimit ≤ text.utf8ByteSize then .error .tooLong
  else .ok ⟨text.toList.head? = some '/', namesOf text, text.toList.getLast? = some '/'⟩

end Path

end ExprFront
