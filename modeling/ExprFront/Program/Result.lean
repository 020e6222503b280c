import ExprFront.Program.Options

/-!
# Results

The result of a run: all units and all diagnostics in order, and the number of tokens.
-/

namespace ExprFront
set_option autoImplicit false

structure Result where
  filename : String
  units : List SourceUnit
  diagnostics : List Diagnostic
  tokenCount : Nat
  aborted : Bool

namespace Result

def success (r : Result) : Bool := r.diagnostics.isEmpty

/-- The names of the units that `select` picks. -/
def names (r : Result) (select : SourceUnit → Option Prototype) : List String :=
  (r.units.filterMap select).map Prototype.name

def definitionNames (r : Result) : List String :=
  r.names fun | .definition f => some f.signature | _ => none

def declarationNames (r : Result) : List String :=
  r.names fun | .declaration p => some p | _ => none

def expressionNames (r : Result) : List String :=
  r.names fun | .expression f => some f.signature | _ => none

def ofBeats (s : Session) (bs : List Session.Beat) : Result :=
  let last := s.afterBeats bs
  { filename := s.parser.scanner.filename
    units := unitsOf bs
    diagnostics := last.parser.errors.diagnostics
    tokenCount := last.parser.scanner.count
    aborted := last.aborted }

def ofSession (s : Session) : Result := ofBeats s s.beats

def record (r : Result) : LogRecord :=
  ⟨.info, .program, r.filename ++ ": " ++ r.units.length.repr ++ " units, " ++
    r.diagnostics.length.repr ++ " errors, " ++ r.tokenCount.repr ++ " tokens"⟩

end Result

def Options.run (o : Options) (source : List Char) (filename : Option String) : Result :=
  .ofSession (o.session source filename)

/-- Runs over a source with a given operator table and otherwise default options. -/
def runProgram (source : List Char) (table : OperatorTable) (filename : String) : Result :=
  { Options.default with table := table, filename := filename }.run source (some filename)

end ExprFront
