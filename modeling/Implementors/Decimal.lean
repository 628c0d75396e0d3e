/-! Decimal numbers as messages show them. Main definition: `Decimal.text`, positional while the
first digit stands between the fifth place after the point and the sixteenth before it, and with
an exponent outside that. -/
namespace Implementors

/-- The number `digits * 10 ^ exponent`, with its sign; zero too has one. -/
structure Decimal where
  negative : Bool
  digits : Nat
  exponent : Int
  deriving DecidableEq, Repr

namespace Decimal

/-- The power of ten of the first digit. -/
def leading (d : Decimal) : Int := d.exponent + (Nat.toDigits 10 d.digits).length - 1

def isPositional (d : Decimal) : Bool := d.digits == 0 || (-5 ≤ d.leading && d.leading < 16)

private def zeros (n : Nat) : List Char := List.replicate n '0'

/-- Digits with a point; a whole number keeps one place after it. -/
def positional (d : Decimal) : List Char :=
  let ds := Nat.toDigits 10 d.digits
  if d.digits == 0 then ['0', '.', '0']
  else if 0 ≤ d.exponent then ds ++ zeros d.exponent.toNat ++ ['.', '0']
  else if 0 ≤ d.leading then
    ds.take (d.leading.toNat + 1) ++ '.' :: ds.drop (d.leading.toNat + 1)
  else ['0', '.'] ++ zeros (-d.leading - 1).toNat ++ ds

/-- One digit, the others behind a point, and a signed exponent. -/
def scientific (d : Decimal) : List Char :=
  let ds := Nat.toDigits 10 d.digits
  let mantissa := if ds.length ≤ 1 then ds else ds.take 1 ++ '.' :: ds.drop 1
  let sign := if d.leading < 0 then '-' else '+'
  mantissa ++ 'e' :: sign :: Nat.toDigits 10 d.leading.natAbs

def text (d : Decimal) : String :=
  let body := if d.isPositional then d.positional else d.scientific
  String.ofList (if d.negative then '-' :: body else body)

end Decimal
end Implementors
