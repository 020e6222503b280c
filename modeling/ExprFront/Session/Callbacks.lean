import ExprFront.Session.Basic

/-!
# Callbacks of a session

An interactive session calls its owner before it waits for a unit, and with each unit as soon as that
is there.
-/

namespace ExprFront
set_option autoImplicit false

inductive Callback
  | prompt
  | unit (u : SourceUnit)

namespace Callback

def isPrompt : Callback → Bool
  | .prompt => true
  | .unit _ => false

def label : Callback → String
  | .prompt => "prompt"
  | .unit u => u.kind.label

end Callback

namespace Session

/-- How many characters of a source of the given length the session has read. -/
def charactersRead (length : Nat) (s : Session) : Nat :=
  s.parser.scanner.reader.charactersRead length

/-- The callbacks of a turn, each with the session as it is then. The prompt comes before the first
token is read. -/
def Beat.callbacks (b : Beat) : List (Callback × Session) :=
  (if b.turn.prompts then [(.prompt, b.before)] else []) ++
    (b.turn.unit?.map fun u => (.unit u, b.after)).toList

end Session

def callbacksOf (bs : List Session.Beat) : List (Callback × Session) :=
  bs.flatMap Session.Beat.callbacks

end ExprFront
