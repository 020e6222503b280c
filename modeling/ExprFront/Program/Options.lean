import ExprFront.Operator.Spec
import ExprFront.Session.Journal

/-!
# Options

The options of a run, and how the environment sets them. Extra operators are listed with commas
between them; entries that are no specifications are left out with a warning. A limit that is
no positive integer is no limit.
-/

namespace ExprFront
set_option autoImplicit false

structure Options where
  table : OperatorTable
  anonymous : String
  /-- The name of sources that have none. -/
  filename : String
  limit : Option Int
  deriving DecidableEq

namespace Options

def default : Options := ⟨.default, anonymousName, "<stdin>", none⟩

def splitCommas (s : String) : List String :=
  (s.toList.splitOn ',').map String.ofList

/-- Whether an entry is blank, and so is no entry at all. -/
def isBlankEntry (entry : String) : Bool :=
  (Text.trim entry.toList).isEmpty

/-- The warning about an entry that is left out. -/
def leftOut (fault : SpecFault) : LogRecord :=
  ⟨.warning, .program, "ignoring KSCOPE_BINOPS entry: " ++ fault.message⟩

def addEntry (table : OperatorTable) (entry : String) : OperatorTable × List LogRecord :=
  if isBlankEntry entry then (table, [])
  else
    match readSpec entry with
    | .ok (c, n) => (table.insert c n, [])
    | .error fault => (table, [leftOut fault])

def addEntries (table : OperatorTable) : List String → OperatorTable × List LogRecord
  | [] => (table, [])
  | entry :: rest =>
    let (t, first) := addEntry table entry
    let (u, records) := addEntries t rest
    (u, first ++ records)

def limitOf (s : String) : Option Int :=
  match Text.readInteger s.toList with
  | .ok n => if 0 < n then some n else none
  | .error _ => none

/-- A variable that is set and not empty. -/
def setting? (environment : String → Option String) (name : String) : Option String :=
  (environment name).filter fun s => !s.isEmpty

def ofEnvironment (environment : String → Option String) : Options × List LogRecord :=
  let (table, records) :=
    addEntries .default (((setting? environment "KSCOPE_BINOPS").map splitCommas).getD [])
  ({ default with
      table := table
      anonymous := (setting? environment "KSCOPE_ANON_NAME").getD default.anonymous
      limit := (setting? environment "KSCOPE_MAX_ERRORS").bind limitOf },
    records)

/-- The name of a source: an empty name is no name. -/
def nameOf (o : Options) (filename : Option String) : String :=
  match filename with
  | some name => if name.isEmpty then o.filename else name
  | none => o.filename

def session (o : Options) (source : List Char) (filename : Option String) : Session :=
  .ofParser (.ofScanner (.ofSource source (o.nameOf filename)) o.table o.anonymous o.limit)

end Options

end ExprFront
