import ExprFront.Decimal.Layout
import ExprFront.Location
import ExprFront.Text.Quoted

/-!
# Tokens

A token is a lexeme and the location of its first character. The two keywords are lexemes of
their own; every character that starts no name, number or comment is a lexeme by itself, and
the operator table alone decides what it means.
-/

namespace ExprFront
set_option autoImplicit false

inductive TokenKind
  | endOfInput
  | define
  | external
  | name
  | number
  | char
  deriving DecidableEq

namespace TokenKind

/-- The kind as it is written in token listings. -/
def label : TokenKind → String
  | .endOfInput => "EOF"
  | .define => "DEF"
  | .external => "EXTERN"
  | .name => "IDENTIFIER"
  | .number => "NUMBER"
  | .char => "CHAR"

/-- The word in reports for what has no kind of its own. -/
def noReportName : String := "none"

def reportName : TokenKind → String
  | .endOfInput => "tok_eof"
  | .define => "tok_def"
  | .external => "tok_extern"
  | .name => "tok_identifier"
  | .number => "tok_number"
  | .char => noReportName

def all : List TokenKind :=
  [.endOfInput, .define, .external, .name, .number, .char]

end TokenKind

inductive Lexeme
  | endOfInput
  | define
  | external
  | name (text : String)
  | number (value : Binary64)
  | char (c : Char)
  deriving DecidableEq

namespace Lexeme

def kind : Lexeme → TokenKind
  | .endOfInput => .endOfInput
  | .define => .define
  | .external => .external
  | .name _ => .name
  | .number _ => .number
  | .char _ => .char

def char? : Lexeme → Option Char
  | .char c => some c
  | _ => none

def describe : Lexeme → String
  | .endOfInput => "end of input"
  | .define => "keyword 'def'"
  | .external => "keyword 'extern'"
  | .name _ => "identifier"
  | .number _ => "number"
  | .char c => "'" ++ String.singleton c ++ "'"

end Lexeme

/-- The keywords and the lexemes that they spell. -/
def keywords : List (String × Lexeme) :=
  [("def", .define), ("extern", .external)]

def Lexeme.ofWord (word : String) : Lexeme :=
  (keywords.lookup word).getD (.name word)

structure Token where
  lexeme : Lexeme
  location : Location
  deriving DecidableEq

namespace Token

def kind (t : Token) : TokenKind := t.lexeme.kind

def isEnd (t : Token) : Bool := t.lexeme == .endOfInput

/-- The token as it is written in messages about recovery. -/
def text (t : Token) : String :=
  let char :=
    match t.lexeme.char? with
    | some c => Text.quote (String.singleton c) ++ ", "
    | none => ""
  "Token(" ++ t.kind.label ++ ", " ++ char ++ t.location.place ++ ")"

end Token

end ExprFront
