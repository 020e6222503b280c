import ExprFront.Command.Arguments
import ExprFront.Session.Journal
import ExprFront.Text.LineEnd
import ExprFront.Text.Utf8

/-!
# Invocations

What a command is given: arguments, an environment, a standard input that may be a terminal,
and files. Sources are UTF-8 and may end their lines in any way. A source that cannot be
decoded can be read up to its fault, or not at all if the fault is seen with the first bytes.
-/

namespace ExprFront
set_option autoImplicit false

structure Invocation where
  arguments : List String
  environment : String → Option String
  input : List Nat
  terminal : Bool
  /-- The bytes of a file, or why it cannot be read. -/
  read : String → Except String (List Nat)
  /-- Why a file cannot be written, if it cannot. -/
  refusal? : String → Option String

/-- A source as a command reads it: its characters, and the fault met at their end. -/
structure SourceText where
  chars : List Char
  fault : Option String
  deriving DecidableEq

namespace SourceText

/-- Decodes a source. A truncated sequence is met after all before it has been read, but for a
carriage return, which waits for what follows it. -/
def decode (bytes : List Nat) : SourceText :=
  match Text.Utf8.decode bytes with
  | (cs, none) => ⟨Text.unifyLineEnds cs, none⟩
  | (cs, some fault) =>
    if fault.reason.atEnd then
      let cs := if cs.getLast? = some '\r' then cs.dropLast else cs
      ⟨Text.unifyLineEnds cs, some fault.message⟩
    else ⟨[], some fault.message⟩

end SourceText

structure OpenSource where
  name : String
  text : SourceText
  terminal : Bool

namespace Invocation

def standardPath : String := "-"

def open? (i : Invocation) (operands : List String) : Except UsageFault OpenSource :=
  let path := operands.head?.getD standardPath
  if path = standardPath then .ok ⟨"<stdin>", .decode i.input, i.terminal⟩
  else
    match i.read path with
    | .ok bytes => .ok ⟨path, .decode bytes, false⟩
    | .error reason => .error (.badInput path reason)

def checkOperands (operands : List String) : Except UsageFault PUnit :=
  match operands.drop 1 with
  | [] => .ok ⟨⟩
  | extra => .error (.extraOperands extra)

end Invocation

namespace Console

/-- Writes a record to the error output: all of them when verbose, else warnings only. -/
def journal (verbose : Bool) (c : Console) (r : LogRecord) : Console :=
  if verbose then c.log r.fullText
  else if r.level = .warning then c.log r.briefText
  else c

def journalAll (verbose : Bool) (c : Console) (rs : List LogRecord) : Console :=
  rs.foldl (journal verbose) c

end Console

end ExprFront
