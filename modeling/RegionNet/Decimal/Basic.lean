/-!
# Decimals

Numbers in base ten: runs of digits and their value, and decimals `mantissa * 10 ^ exponent` with
the floating-point number nearest to them.
-/

namespace RegionNet

/-- The digits of a natural number in base ten, without leading zeros. -/
def digits (n : Nat) : List Char := Nat.toDigits 10 n

/-- The value of a digit from 0 to 9. -/
def digitValue (c : Char) : Nat := c.toNat - '0'.toNat

/-- The value of a run of digits, read after digits of value `acc`. -/
def valueOfDigits (acc : Nat) (cs : List Char) : Nat :=
  cs.foldl (fun n c => 10 * n + digitValue c) acc

/-- The number `mantissa * 10 ^ exponent`. -/
structure Decimal where
  mantissa : Nat
  exponent : Int
  deriving DecidableEq, Repr

namespace Decimal

/-- The position of the leading digit: the number lies between `10 ^ order` and ten times that. -/
def order (d : Decimal) : Int := d.exponent + ((digits d.mantissa).length : Int) - 1

/-- The floating-point number nearest to a decimal. Orders far outside the range of floating-point
numbers are cut off first, so that no huge power of ten is computed. -/
def toFloat (d : Decimal) : Float :=
  if d.mantissa = 0 then 0.0
  else if 400 < d.order then Float.ofScientific 1 false 400
  else if d.order < -400 then 0.0
  else Float.ofScientific d.mantissa (d.exponent < 0) d.exponent.natAbs

end Decimal

end RegionNet
