import ExprFront.Command.Invocation
import ExprFront.Program.Report
import ExprFront.Tree.Outline

/-!
# The tree command

Parses a source and writes the outline of each unit as soon as it is parsed, or at the end a
report on all units. Diagnostics go to the error output as they are found.
-/

namespace ExprFront.TreeCommand
set_option autoImplicit false

def spec : CommandSpec :=
  ⟨"ksparse", "Parse kscope source and print its syntax trees.",
    [⟨.output, some 'o', "--output", some "FILENAME", "Output file (default: stdout)"⟩,
      ⟨.json, none, "--json", none, "Print a JSON report instead of the AST tree"⟩,
      ⟨.operator, some 'b', "--binop", some "OP=PREC",
        "Install a binary operator (can be repeated)"⟩,
      .verbose, .version, .help]⟩

def promptText : String := "ready> "

structure Settings where
  verbose : Bool
  json : Bool
  /-- The output file, unless it is the standard output, and why it cannot be written, if it
  cannot. -/
  output : Option (String × Option String)
  operators : List (Char × Int)

def write (s : Settings) (line : String) (c : Console) : Except String Console :=
  match s.output with
  | none => .ok (c.say line)
  | some (_, none) => .ok (c.record line)
  | some (_, some reason) => .error reason

def writeTurn (s : Settings) (t : Turn) (c : Console) : Except String Console :=
  match t with
  | .unit u =>
    match u.node?, u.diagnostic? with
    | some n, _ =>
      if s.json then .ok c
      else
        match n.outline with
        | .ok text => write s text c
        | .error fault => .error fault.message
    | none, some d => .ok (c.warn d.text)
    | none, none => .ok c
  | _ => .ok c

def readsEnd (b : Session.Beat) : Bool :=
  b.journal.any JournalEntry.readsEnd

/-- Writes the turns of a session. At a fault of the source, or when the output cannot be
written, the command ends. -/
def writeBeats (s : Settings) (source : OpenSource) :
    List Session.Beat → Console → Except Transcript Console
  | [], c => .ok c
  | b :: bs, c =>
    let c := if source.terminal && b.turn.prompts then c.prompt promptText else c
    let entries := b.journal
    match source.text.fault, entries.any JournalEntry.readsEnd with
    | some fault, true =>
      let before := entries.takeWhile fun e => !e.readsEnd
      .error ((c.journalAll s.verbose (before.filterMap JournalEntry.record?)).fail
        (.internal fault))
    | _, _ =>
      let c := c.journalAll s.verbose (entries.filterMap JournalEntry.record?)
      match writeTurn s b.turn c with
      | .ok c => writeBeats s source bs c
      | .error reason => .error (c.fail (.internal reason))

def writeReport (s : Settings) (r : Result) (c : Console) : Except Transcript Console :=
  if s.json then
    match report defaultStyle r.units with
    | .error fault => .error (c.fail (.internal fault.message))
    | .ok text =>
      match write s text c with
      | .ok c => .ok c
      | .error reason =>
        let path := (s.output.map Prod.fst).getD ""
        .error ⟨.syntaxError,
          c.warn ("Error: Could not open file " ++ Text.quote path ++ ": " ++ reason)⟩
  else .ok c

def close (s : Settings) (r : Result) (c : Console) : Transcript :=
  let c :=
    if s.verbose then
      c.warn ("Parsed " ++ r.units.length.repr ++ " units (" ++ r.tokenCount.repr ++ " tokens)")
    else c
  let c :=
    if r.aborted then c.warn ("Stopped after " ++ r.diagnostics.length.repr ++ " errors") else c
  ⟨if r.success then .success else .syntaxError, c⟩

def writeAll (s : Settings) (o : Options) (source : OpenSource) (c : Console) :
    Except Transcript Transcript := do
  let session := o.session source.text.chars (some source.name)
  let beats := session.beats
  let c ← writeBeats s source beats c
  let r := Result.ofBeats session beats
  let c ← writeReport s r (c.journal s.verbose r.record)
  return close s r c

def readOperators (specs : List String) : Except UsageFault (List (Char × Int)) :=
  specs.mapM fun spec =>
    match readSpec spec with
    | .ok e => .ok e
    | .error fault => .error (.badOperator fault)

/-- The output file that the last of the output options names. -/
def outputOf (a : Arguments) : Option String :=
  ((a.values .output).getLast?).filter fun path => path ≠ Invocation.standardPath

/-- Reads the settings and opens the source. A bad operator is noticed before a bad file, and a
bad file before a further operand. -/
def prepare (i : Invocation) (a : Arguments) : Except UsageFault (Settings × OpenSource) := do
  let operators ← readOperators (a.values .operator)
  let source ← i.open? a.operands
  Invocation.checkOperands a.operands
  let output := (outputOf a).map fun path => (path, i.refusal? path)
  return (⟨a.has .verbose, a.has .json, output, operators⟩, source)

def body (i : Invocation) (a : Arguments) : Except UsageFault Transcript := do
  let (s, source) ← prepare i a
  let (o, warnings) := Options.ofEnvironment i.environment
  let table := s.operators.foldl (fun t e => t.insert e.1 e.2) o.table
  let c := Console.empty.journalAll s.verbose warnings
  match writeAll s { o with table := table } source c with
  | .ok transcript => return transcript
  | .error transcript => return transcript

def run (i : Invocation) : Transcript :=
  spec.run i.arguments (body i)

def outputPath? (i : Invocation) : Option String :=
  match Arguments.read spec.options i.arguments with
  | .ok a => outputOf a
  | .error _ => none

end ExprFront.TreeCommand
