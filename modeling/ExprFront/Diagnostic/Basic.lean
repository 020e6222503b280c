import ExprFront.Location

/-!
# Diagnostics

A diagnostic says what is wrong, where, and on which source line. Its text puts a caret under
the place and may end in a hint. Summaries of a whole run are diagnostics too; their text is
their message.
-/

namespace ExprFront
set_option autoImplicit false

/-- The general classes of diagnostics, which leave message and hint open. -/
inductive DiagnosticClass
  | frontend
  | syntactic
  | aborted
  deriving DecidableEq

inductive DiagnosticDetail
  /-- A token where an expression was required. -/
  | unexpected (found : String)
  /-- A token that was required and is missing. -/
  | missing (message expected : String)
  | general (diagnosticClass : DiagnosticClass) (message : String) (hint : Option String)
  deriving DecidableEq

structure Diagnostic where
  detail : DiagnosticDetail
  location : Option Location
  sourceLine : Option String
  deriving DecidableEq

namespace Diagnostic

def message (d : Diagnostic) : String :=
  match d.detail with
  | .unexpected _ => "unknown token when expecting an expression"
  | .missing message _ => message
  | .general _ message _ => message

def hint (d : Diagnostic) : Option String :=
  match d.detail with
  | .unexpected found => some ("found " ++ found)
  | .missing _ _ => none
  | .general _ _ hint => hint

def heading (d : Diagnostic) : String :=
  match d.location with
  | some l => l.text ++ ": error: " ++ d.message
  | none => "error: " ++ d.message

def margin : Nat := 4

/-- The caret line for a column; columns before the first have none. -/
def caret (column : Int) : List String :=
  if 0 < column then
    [String.ofList (List.replicate (margin + column.toNat - 1) ' ') ++ "^"]
  else []

def excerpt (d : Diagnostic) : List String :=
  match d.sourceLine, d.location with
  | some line, some l =>
    (String.ofList (List.replicate margin ' ') ++ line) :: caret l.column
  | _, _ => []

/-- The hint line; an empty hint has none. -/
def hintLine (d : Diagnostic) : List String :=
  match d.hint with
  | some hint => if hint.isEmpty then [] else ["hint: " ++ hint]
  | none => []

def text (d : Diagnostic) : String :=
  match d.detail with
  | .general .aborted message _ => message
  | _ => String.intercalate "\n" (d.heading :: d.excerpt ++ d.hintLine)

end Diagnostic

end ExprFront
