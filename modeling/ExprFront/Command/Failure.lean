import ExprFront.Text.Terminal

/-!
# Failures of commands

A command ends with an exit code. What stops it is an error in the program it was given, a bad
argument, or anything else; each has a code of its own and a way of being announced.
-/

namespace ExprFront
set_option autoImplicit false

inductive ExitCode
  | success
  | syntaxError
  | invalidArguments
  | internalError
  deriving DecidableEq

namespace ExitCode

def code : ExitCode → Nat
  | .success => 0
  | .syntaxError => 1
  | .invalidArguments => 2
  | .internalError => 3

def label : ExitCode → String
  | .success => "SUCCESS"
  | .syntaxError => "SYNTAX_ERROR"
  | .invalidArguments => "INVALID_ARGS"
  | .internalError => "INTERNAL_ERROR"

def all : List ExitCode :=
  [.success, .syntaxError, .invalidArguments, .internalError]

end ExitCode

inductive Failure
  /-- An error in the program; its text announces itself. -/
  | program (text : String)
  | argument (text : String)
  | internal (text : String)
  deriving DecidableEq

namespace Failure

def exitCode : Failure → ExitCode
  | .program _ => .syntaxError
  | .argument _ => .invalidArguments
  | .internal _ => .internalError

def announcement : Failure → String
  | .program text => text
  | .argument text => "Error: " ++ text
  | .internal text => "Internal error: " ++ text

end Failure

/-! ## Output of a command -/

/-- What a command has written so far. -/
structure Console where
  out : String
  err : String
  /-- The text of the output file, once something has been written to it. -/
  file : Option String
  deriving DecidableEq

namespace Console

def empty : Console := ⟨"", "", none⟩

def say (c : Console) (line : String) : Console :=
  { c with out := c.out ++ Text.plain (line ++ "\n") }

def warn (c : Console) (line : String) : Console :=
  { c with err := c.err ++ Text.plain (line ++ "\n") }

/-- Writes a line of the journal, which is not filtered, to the error output. -/
def log (c : Console) (line : String) : Console :=
  { c with err := c.err ++ line ++ "\n" }

def prompt (c : Console) (text : String) : Console :=
  { c with err := c.err ++ text }

def record (c : Console) (line : String) : Console :=
  { c with file := some (c.file.getD "" ++ Text.plain (line ++ "\n")) }

end Console

structure Transcript where
  exitCode : ExitCode
  console : Console
  deriving DecidableEq

def Console.fail (c : Console) (f : Failure) : Transcript :=
  ⟨f.exitCode, c.warn f.announcement⟩

end ExprFront
