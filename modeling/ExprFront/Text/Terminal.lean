/-!
# Terminal control sequences

A control sequence is an escape character, a bracket, any number of parameters among
semicolons, question marks and digits, and one ASCII letter. Output that is no terminal is
written without them.
-/

namespace ExprFront.Text
set_option autoImplicit false

def isControlParameter (c : Char) : Bool :=
  c = ';' || c = '?' || ('0' ≤ c && c ≤ '9')

def isControlFinal (c : Char) : Bool :=
  ('a' ≤ c && c ≤ 'z') || ('A' ≤ c && c ≤ 'Z')

/-- The length of the control sequence at the head of a text, 0 if there is none. -/
def controlLength : List Char → Nat
  | '\x1b' :: '[' :: cs =>
    let parameters := cs.takeWhile isControlParameter
    match cs.drop parameters.length with
    | c :: _ => if isControlFinal c then parameters.length + 3 else 0
    | [] => 0
  | _ => 0

/-- Drops `skip` characters, then removes every control sequence from the rest. -/
def removeControls : Nat → List Char → List Char
  | _, [] => []
  | skip + 1, _ :: cs => removeControls skip cs
  | 0, c :: cs =>
    match controlLength (c :: cs) with
    | 0 => c :: removeControls 0 cs
    | n + 1 => removeControls n cs

/-- A text without control sequences; most texts have none. -/
def plain (s : String) : String :=
  if s.toList.contains '\x1b' then String.ofList (removeControls 0 s.toList) else s

end ExprFront.Text
