import ExprFront.Command.Tokens
import ExprFront.Command.Trees

/-!
# The program

The first argument names a command, the others are its arguments. Files, streams and the
environment are read and written here and nowhere else.
-/

namespace ExprFront
set_option autoImplicit false

def reasonOf : IO.Error → String
  | .noFileOrDirectory _ _ reason => reason
  | .permissionDenied _ _ reason => reason
  | .inappropriateType _ _ reason => reason
  | .invalidArgument _ _ reason => reason
  | e => toString e

def readBytes (path : String) : IO (Except String (List Nat)) := do
  try
    let bytes ← (← IO.FS.Handle.mk path .read).readBinToEnd
    return .ok (bytes.toList.map UInt8.toNat)
  catch e => return .error (reasonOf e)

def settingNames : List String :=
  ["KSCOPE_BINOPS", "KSCOPE_ANON_NAME", "KSCOPE_MAX_ERRORS"]

def gather (spec : CommandSpec) (arguments : List String) : IO Invocation := do
  let settings ← settingNames.mapM fun name => return (name, ← IO.getEnv name)
  let path :=
    match Arguments.read spec.options arguments with
    | .ok a => a.operands.head?.getD Invocation.standardPath
    | .error _ => ""
  let stdin ← IO.getStdin
  let terminal ← stdin.isTty
  let input ← if path = Invocation.standardPath then stdin.readBinToEnd else pure .empty
  let file ← if path = Invocation.standardPath then pure (.ok []) else readBytes path
  return {
    arguments := arguments
    environment := fun name => (settings.lookup name).join
    input := input.toList.map UInt8.toNat
    terminal := terminal
    read := fun _ => file
    refusal? := fun _ => none }

/-- Runs a command and writes its output file. If that cannot be written, the command is run
again with the reason. -/
def perform (command : Invocation → Transcript) (i : Invocation) (output : Option String) :
    IO Transcript := do
  let t := command i
  match t.console.file, output with
  | some text, some path =>
    try
      IO.FS.writeFile path text
      return t
    catch e => return command { i with refusal? := fun _ => some (reasonOf e) }
  | _, _ => return t

def publish (t : Transcript) : IO UInt32 := do
  (← IO.getStderr).putStr t.console.err
  (← IO.getStdout).putStr t.console.out
  return t.exitCode.code.toUInt32

end ExprFront

open ExprFront in
def main (arguments : List String) : IO UInt32 := do
  match arguments with
  | "ksparse" :: rest =>
    let i ← gather TreeCommand.spec rest
    publish (← perform TreeCommand.run i (TreeCommand.outputPath? i))
  | "kslex" :: rest =>
    let i ← gather TokenCommand.spec rest
    publish (← perform TokenCommand.run i none)
  | _ =>
    (← IO.getStderr).putStr "Usage: (ksparse | kslex) [OPTIONS] [INPUT_FILE]\n"
    return ExitCode.invalidArguments.code.toUInt32
