import ExprFront.Decimal.Layout
import ExprFront.Text.Quoted

/-!
# Plain data

Values that are no nodes but may stand where a hand-made tree should hold one.
-/

namespace ExprFront
set_option autoImplicit false

inductive Datum
  | null
  | truth (value : Bool)
  | integer (value : Int)
  | real (value : Binary64)
  | text (value : String)
  | list (items : List Datum)
  /-- Values by keys, which differ from one another. -/
  | object (members : List (String × Datum))
  /-- A value of any other type, known by the name of the type and by how it is displayed. -/
  | other (typeName display : String)

namespace Datum

def typeName : Datum → String
  | .null => "NoneType"
  | .truth _ => "bool"
  | .integer _ => "int"
  | .real _ => "float"
  | .text _ => "str"
  | .list _ => "list"
  | .object _ => "dict"
  | .other typeName _ => typeName

mutual

def display : Datum → String
  | .null => "None"
  | .truth true => "True"
  | .truth false => "False"
  | .integer n => n.repr
  | .real x => x.text
  | .text s => Text.quote s
  | .list items => "[" ++ String.intercalate ", " (displayAll items) ++ "]"
  | .object members => "\x7b" ++ String.intercalate ", " (displayMembers members) ++ "\x7d"
  | .other _ shown => shown

def displayAll : List Datum → List String
  | [] => []
  | d :: ds => display d :: displayAll ds

def displayMembers : List (String × Datum) → List String
  | [] => []
  | m :: ms => displayMember m :: displayMembers ms

def displayMember : String × Datum → String
  | (key, d) => Text.quote key ++ ": " ++ display d

end

/-- A number in an equality: a whole number, or a number that is not whole. -/
def numeric? : Datum → Option (Int ⊕ Binary64)
  | .truth b => some (.inl (if b then 1 else 0))
  | .integer n => some (.inl n)
  | .real x => some (match x.toInt? with | some n => .inl n | none => .inr x)
  | _ => none

def sameNumber : Int ⊕ Binary64 → Int ⊕ Binary64 → Bool
  | .inl m, .inl n => m == n
  | .inr x, .inr y => x.sameValue y
  | _, _ => false

mutual

/-- Equality of values: numbers by value, all others by content. The order of the members of an
object does not matter. -/
def same : Datum → Datum → Bool
  | .null, .null => true
  | .text s, .text t => s == t
  | .list xs, .list ys => sameAll xs ys
  | .object ms, .object ns => ms.length == ns.length && sameMembers ms ns
  | .other s x, .other t y => s == t && x == y
  | x, y =>
    match numeric? x, numeric? y with
    | some m, some n => sameNumber m n
    | _, _ => false

def sameAll : List Datum → List Datum → Bool
  | [], [] => true
  | x :: xs, y :: ys => same x y && sameAll xs ys
  | _, _ => false

def sameMembers : List (String × Datum) → List (String × Datum) → Bool
  | [], _ => true
  | m :: ms, ns => sameMember m ns && sameMembers ms ns

def sameMember : String × Datum → List (String × Datum) → Bool
  | (key, x), ns =>
    match ns.lookup key with
    | some y => same x y
    | none => false

end

end Datum

end ExprFront
