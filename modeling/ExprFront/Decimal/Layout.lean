import ExprFront.Decimal.Rounded

/-!
# Number texts

A finite number is written with the digits of a decimal, positionally while its exponent is at
least -4 and below a bound, and otherwise as a significand with an exponent of at least two
digits. The full text takes the shortest digits that read back; the brief text six
significant ones.
-/

namespace ExprFront
set_option autoImplicit false

/-- The choices that tell number texts apart. -/
structure NumberLayout where
  /-- The least exponent that is written as such. -/
  bound : Int
  keepsPoint : Bool
  infinity : String
  nan : String

namespace NumberLayout

/-- Shortest digits, positional below `10 ^ 16`. -/
def full : NumberLayout := ⟨16, true, "inf", "nan"⟩

/-- Six digits, positional below `10 ^ 6`. -/
def brief : NumberLayout := ⟨6, false, "inf", "nan"⟩

/-- The full text with the words of JSON for what is not finite. -/
def json : NumberLayout := ⟨16, true, "Infinity", "NaN"⟩

/-- The text of an exponent: a sign and at least two digits. -/
def exponentText (e : Int) : List Char :=
  let ds := Decimal.digitsOf e.natAbs
  (if e < 0 then '-' else '+') :: (if ds.length < 2 then '0' :: ds else ds)

def fractionText (l : NumberLayout) (ds : List Char) : List Char :=
  if ds.isEmpty then (if l.keepsPoint then ['.', '0'] else []) else '.' :: ds

/-- The text of the value `d.ddd * 10 ^ e` with the digits `ds`. -/
def positive (l : NumberLayout) (ds : List Char) (e : Int) : List Char :=
  if e < -4 || l.bound ≤ e then
    ds.take 1 ++ (if ds.length ≤ 1 then [] else '.' :: ds.drop 1) ++ 'e' :: exponentText e
  else if e < 0 then
    '0' :: '.' :: List.replicate (-e - 1).toNat '0' ++ ds
  else
    let n := e.toNat + 1
    ds.take n ++ List.replicate (n - ds.length) '0' ++ l.fractionText (ds.drop n)

def chars (l : NumberLayout) (decimal : Nat → Decimal) (x : Binary64) : List Char :=
  if x.isNaN then l.nan.toList
  else
    let magnitude :=
      if x.isInfinite then l.infinity.toList
      else if x.isZero then '0' :: l.fractionText []
      else
        let d := decimal x.rank
        l.positive d.digits d.exponent
    if x.negative then '-' :: magnitude else magnitude

end NumberLayout

namespace Binary64

def text (x : Binary64) : String :=
  String.ofList (NumberLayout.full.chars Decimal.shortest x)

def briefText (x : Binary64) : String :=
  String.ofList
    (NumberLayout.brief.chars (fun rank => Decimal.significant 6 (unitsOf rank) unitsInOne) x)

def jsonText (x : Binary64) : String :=
  String.ofList (NumberLayout.json.chars Decimal.shortest x)

end Binary64

end ExprFront
