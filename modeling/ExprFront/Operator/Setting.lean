import ExprFront.Operator.Table
import ExprFront.Text.Integer
import ExprFront.Tree.Datum

/-!
# Precedences from plain data

A precedence may be given as any value that stands for an integer: an integer, a truth value, a
number, whose fraction is dropped, or a text.
-/

namespace ExprFront
set_option autoImplicit false

inductive SettingFault
  | malformed (text : String)
  | tooLong (digits : Nat)
  | notANumber
  | infinite
  | wrongType (typeName : String)
  deriving DecidableEq

/-- The greatest number of characters of a quoted text that a message shows. -/
def SettingFault.excerptLength : Nat := 200

def SettingFault.message : SettingFault → String
  | .malformed text =>
    "invalid literal for int() with base 10: " ++
      String.ofList ((Text.quote text).toList.take excerptLength)
  | .tooLong digits =>
    "Exceeds the limit (" ++ Text.digitLimit.repr ++
      " digits) for integer string conversion: value has " ++ digits.repr ++
      " digits; use sys.set_int_max_str_digits() to increase the limit"
  | .notANumber => "cannot convert float NaN to integer"
  | .infinite => "cannot convert float infinity to integer"
  | .wrongType typeName =>
    "int() argument must be a string, a bytes-like object or a real number, not '" ++
      typeName ++ "'"

def Datum.toInteger : Datum → Except SettingFault Int
  | .truth b => .ok (if b then 1 else 0)
  | .integer n => .ok n
  | .real x =>
    if x.isNaN then .error .notANumber
    else if x.isInfinite then .error .infinite
    else .ok x.truncate
  | .text s =>
    match Text.readInteger s.toList with
    | .ok n => .ok n
    | .error .malformed => .error (.malformed s)
    | .error (.tooLong digits) => .error (.tooLong digits)
  | d => .error (.wrongType d.typeName)

inductive InstallFault
  | operator (fault : OperatorFault)
  | setting (fault : SettingFault)
  deriving DecidableEq

def InstallFault.message : InstallFault → String
  | .operator fault => fault.message
  | .setting fault => fault.message

namespace OperatorTable

def install (t : OperatorTable) (operator : String) (value : Datum) :
    Except InstallFault OperatorTable :=
  match singleChar? operator with
  | none => .error (.operator (.notOneCharacter operator))
  | some c =>
    match value.toInteger with
    | .ok n => .ok (t.insert c n)
    | .error fault => .error (.setting fault)

theorem install_singleton (t : OperatorTable) (c : Char) (n : Int) :
    t.install (String.singleton c) (.integer n) = .ok (t.insert c n) := by
  rw [install, (singleChar?_eq_some_iff _ c).mpr rfl]
  rfl

/-- Installs operators in order, up to the first that is refused. The table that was reached
comes with the fault. -/
def installAll (t : OperatorTable) : List (String × Datum) → OperatorTable × Option InstallFault
  | [] => (t, none)
  | (operator, value) :: rest =>
    match t.install operator value with
    | .ok u => u.installAll rest
    | .error fault => (t, some fault)

def ofData (entries : List (String × Datum)) : Except InstallFault OperatorTable :=
  match empty.installAll entries with
  | (t, none) => .ok t
  | (_, some fault) => .error fault

end OperatorTable

end ExprFront
