import RegionNet.Decimal.Shortest

/-!
# Layout of decimals

How the digits of a number are written down: with all places, or with one digit before the point and
an exponent. What differs from one text format to another is collected in a `Decimal.Style`.
-/

namespace RegionNet.Decimal

/-- The decisions of a text format about its numbers. -/
structure Style where
  /-- The orders of magnitude, lowest and highest, that are written with all places; all of them if
  there is no range. -/
  plainOrders : Option (Int × Int)
  /-- Whole numbers end in `.0`. -/
  wholePoint : Bool
  deriving Repr

/-- All places, with a point only where something follows it. -/
def Style.plain : Style := ⟨none, false⟩

/-- The digits with all places written out. -/
def allPlaces (wholePoint : Bool) (d : Decimal) : List Char :=
  let ds := digits d.mantissa
  if 0 ≤ d.exponent then
    let zeros := if d.mantissa = 0 then [] else List.replicate d.exponent.toNat '0'
    ds ++ zeros ++ if wholePoint then ['.', '0'] else []
  else
    let places := (-d.exponent).toNat
    if ds.length ≤ places then
      ['0', '.'] ++ List.replicate (places - ds.length) '0' ++ ds
    else ds.take (ds.length - places) ++ ['.'] ++ ds.drop (ds.length - places)

/-- One digit before the point, and a signed exponent. -/
def withExponent (d : Decimal) : List Char :=
  let e := d.order
  let sign := if e < 0 then '-' else '+'
  match digits d.mantissa with
  | [] => []
  | [c] => [c, 'e', sign] ++ digits e.natAbs
  | c :: ds => [c, '.'] ++ ds ++ ['e', sign] ++ digits e.natAbs

/-- The text of a decimal. -/
def layout (style : Style) (d : Decimal) : List Char :=
  match style.plainOrders with
  | none => allPlaces style.wholePoint d
  | some (lowest, highest) =>
    if d.mantissa = 0 ∨ (lowest ≤ d.order ∧ d.order ≤ highest) then allPlaces style.wholePoint d
    else withExponent d

example : layout .plain ⟨1, -7⟩ = "0.0000001".toList := by decide

example : layout .plain ⟨25, -1⟩ = "2.5".toList := by decide

/-- The text of a floating-point number. -/
def write (style : Style) (x : Float) : List Char :=
  if x.isNaN then ['N', 'a', 'N']
  else
    let sign := if x.toBits >>> 63 = 0 then [] else ['-']
    if x.isInf then sign ++ ['i', 'n', 'f']
    else sign ++ layout style (Binary.ofFloat x).shortest

end RegionNet.Decimal
