import ExprFront.Decimal.Layout
import ExprFront.Text.CodePoint
import ExprFront.Text.Hex

/-!
# JSON texts

A JSON value and its text: ASCII only, object members in order, on indented lines, on one line
or without any blank. Infinity and what is no number have words of their own. Strings hold any code
points.
-/

namespace ExprFront
set_option autoImplicit false

inductive Json
  | null
  | number (value : Binary64)
  | text (value : CodeText)
  | array (items : List Json)
  | object (members : List (String × Json))

namespace Json

/-! ## Strings -/

/-- The escape of a 16-bit unit. -/
def unitEscape (n : Nat) : List Char :=
  '\x5c' :: 'u' :: Text.hex 4 n

/-- How a character is written within a string. Characters outside the basic plane are written
as two units. -/
def escapedChar (c : Char) : List Char :=
  let n := c.toNat
  if c = '\x22' then ['\x5c', '\x22']
  else if c = '\x5c' then ['\x5c', '\x5c']
  else if c = '\n' then ['\x5c', 'n']
  else if c = '\r' then ['\x5c', 'r']
  else if c = '\t' then ['\x5c', 't']
  else if n = 8 then ['\x5c', 'b']
  else if n = 12 then ['\x5c', 'f']
  else if 32 ≤ n && n < 127 then [c]
  else if n < 0x10000 then unitEscape n
  else unitEscape (0xD800 + (n - 0x10000) / 0x400) ++ unitEscape (0xDC00 + (n - 0x10000) % 0x400)

/-- A half that is no part of a character is a unit by itself. -/
def escaped : CodePoint → List Char
  | .char c => escapedChar c
  | .high n => unitEscape (0xD800 + n)
  | .low n => unitEscape (0xDC00 + n)

def quoted (t : CodeText) : String :=
  String.ofList ('\x22' :: t.flatMap escaped ++ ['\x22'])

/-! ## Layout -/

/-- How the items of arrays and objects are set apart. -/
inductive Style
  /-- Each on a line of its own, indented by the given width for each level. -/
  | lines (width : Nat)
  /-- On one line, with a blank between them. -/
  | line
  | compact

namespace Style

/-- What precedes the first item, or the closing bracket, at a level. -/
def lead : Style → Nat → String
  | .lines width, level => String.ofList ('\n' :: List.replicate (width * level) ' ')
  | .line, _ | .compact, _ => ""

def comma : Style → Nat → String
  | .lines width, level => "," ++ (lines width).lead level
  | .line, _ => ", "
  | .compact, _ => ","

def colon : Style → String
  | .lines _ | .line => ": "
  | .compact => ":"

end Style

mutual

/-- Appends the text of a value that stands at a level. Brackets that hold nothing are written
without a lead. -/
def renderOnto (s : Style) (level : Nat) (before : String) : Json → String
  | .null => before ++ "null"
  | .number x => before ++ x.jsonText
  | .text t => before ++ quoted t
  | .array [] => before ++ "[]"
  | .array (item :: items) =>
    renderRest s (level + 1) (renderOnto s (level + 1) (before ++ "[" ++ s.lead (level + 1)) item)
        items ++ s.lead level ++ "]"
  | .object [] => before ++ "\x7b\x7d"
  | .object (member :: members) =>
    renderMembers s (level + 1)
        (renderMember s (level + 1) (before ++ "\x7b" ++ s.lead (level + 1)) member) members ++
      s.lead level ++ "\x7d"

def renderRest (s : Style) (level : Nat) (before : String) : List Json → String
  | [] => before
  | item :: items =>
    renderRest s level (renderOnto s level (before ++ s.comma level) item) items

def renderMembers (s : Style) (level : Nat) (before : String) : List (String × Json) → String
  | [] => before
  | member :: members =>
    renderMembers s level (renderMember s level (before ++ s.comma level) member) members

def renderMember (s : Style) (level : Nat) (before : String) : String × Json → String
  | (key, value) => renderOnto s level (before ++ quoted key ++ s.colon) value

end

def document (s : Style) (j : Json) : String :=
  renderOnto s 0 "" j

end Json

end ExprFront
