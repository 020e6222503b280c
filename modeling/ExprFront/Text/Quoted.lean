import ExprFront.Text.Hex
import ExprFront.Text.Printable

/-!
# Quoted texts

A text is quoted with apostrophes, or with double quotes if it holds an apostrophe and no
double quote. The enclosing quote and the backslash are escaped by a backslash; tab, line feed
and carriage return have letters of their own; every other character that is not printable is
written by its code in two, four or eight hexadecimal digits.
-/

namespace ExprFront.Text
set_option autoImplicit false

def enclosingQuote (cs : List Char) : Char :=
  if cs.contains '\x27' && !cs.contains '\x22' then '\x22' else '\x27'

def codeEscape (c : Char) : List Char :=
  let n := c.toNat
  if n < 0x100 then '\x5c' :: 'x' :: hex 2 n
  else if n < 0x10000 then '\x5c' :: 'u' :: hex 4 n
  else '\x5c' :: 'U' :: hex 8 n

/-- How a character is written between quotes `q`. -/
def quotedChar (q c : Char) : List Char :=
  if c = q || c = '\x5c' then ['\x5c', c]
  else if c = '\t' then ['\x5c', 't']
  else if c = '\n' then ['\x5c', 'n']
  else if c = '\r' then ['\x5c', 'r']
  else if isPrintable c then [c]
  else codeEscape c

def quoted (cs : List Char) : List Char :=
  let q := enclosingQuote cs
  q :: cs.flatMap (quotedChar q) ++ [q]

def quote (s : String) : String :=
  String.ofList (quoted s.toList)

end ExprFront.Text
