import ExprFront.Command.Invocation
import ExprFront.Token.Row

/-!
# The token command

Lists the tokens of a source, one row for each, up to and including the end of the input.
-/

namespace ExprFront.TokenCommand
set_option autoImplicit false

def spec : CommandSpec :=
  ⟨"kslex", "Print the tokens of kscope source.", [.verbose, .version, .help]⟩

def rows (source : List Char) (filename : String) : List String :=
  (Scanner.ofSource source filename).tokens.map fun r => r.1.row

def writeToken (verbose : Bool) (c : Console) (t : Token) : Console :=
  (c.journalAll verbose t.record?.toList).say t.row

def write (verbose : Bool) (source : OpenSource) : Transcript :=
  let tokens := (Scanner.ofSource source.text.chars source.name).tokens
  match source.text.fault with
  | some fault =>
    let whole := tokens.takeWhile fun r => !r.2.reader.pending.isEmpty
    (whole.foldl (fun c r => writeToken verbose c r.1) .empty).fail (.internal fault)
  | none =>
    let c := tokens.foldl (fun c r => writeToken verbose c r.1) .empty
    ⟨.success, if verbose then c.warn (tokens.length.repr ++ " tokens") else c⟩

def body (i : Invocation) (a : Arguments) : Except UsageFault Transcript := do
  let source ← i.open? a.operands
  Invocation.checkOperands a.operands
  return write (a.has .verbose) source

def run (i : Invocation) : Transcript :=
  spec.run i.arguments (body i)

end ExprFront.TokenCommand
