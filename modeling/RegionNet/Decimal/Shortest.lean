import RegionNet.Decimal.Basic

/-!
# Shortest decimals

The decimal with which a finite floating-point number is written: of all decimals that are nearer to
this number than to any other floating-point number, one with the fewest digits, and of those the
nearest. Everything is decided in exact integer arithmetic on the number's bits.
-/

namespace RegionNet

/-- The absolute value `mantissa * 2 ^ exponent` of a finite floating-point number. -/
structure Binary where
  mantissa : Nat
  exponent : Int
  /-- The next smaller number is only half as far away as the next larger one. -/
  lowerIsCloser : Bool
  deriving DecidableEq, Repr

namespace Binary

/-- The parts of a finite floating-point number, given its bits. -/
def ofBits (bits : Nat) : Binary :=
  let fraction : Nat := bits % Nat.pow 2 52
  let scale : Nat := bits / Nat.pow 2 52 % Nat.pow 2 11
  if scale = 0 then ⟨fraction, -1074, false⟩
  else ⟨Nat.pow 2 52 + fraction, (scale : Int) - 1075, fraction == 0 && decide (1 < scale)⟩

def ofFloat (x : Float) : Binary := ofBits x.toBits.toNat

/-- The number in quarters of its last binary place, with the ends of the interval of all numbers
that are rounded to it. -/
def quarters (b : Binary) : Nat × Nat × Nat :=
  (4 * b.mantissa - (if b.lowerIsCloser then 1 else 2), 4 * b.mantissa, 4 * b.mantissa + 2)

/-- Scales `n` quarters of the last binary place to a fraction of `10 ^ k`; the second number is the
denominator, which does not depend on `n`. -/
def scaled (b : Binary) (k : Int) (n : Nat) : Nat × Nat :=
  let e := b.exponent - 2
  (n * Nat.pow 2 e.toNat * Nat.pow 10 (-k).toNat, Nat.pow 2 (-e).toNat * Nat.pow 10 k.toNat)

/-- The multiple of `10 ^ k` that is rounded to the number; of two such the nearer. -/
def onGrid (b : Binary) (k : Int) : Option Nat :=
  let (low, mid, high) := b.quarters
  let (value, unit) := b.scaled k mid
  let first := (b.scaled k low).1
  let last := (b.scaled k high).1
  let even := b.mantissa % 2 = 0
  let hit (c : Nat) : Bool :=
    if even then first ≤ c * unit && c * unit ≤ last else first < c * unit && c * unit < last
  let below := value / unit
  let above := below + 1
  match 0 < below && hit below, hit above with
  | true, true =>
    if value - below * unit < above * unit - value then some below
    else if above * unit - value < value - below * unit then some above
    else if below % 2 = 0 then some below else some above
  | true, false => some below
  | false, true => some above
  | false, false => none

/-- A power of ten above the number. -/
def topExponent (b : Binary) : Int :=
  ((Nat.log2 b.mantissa : Int) + b.exponent + 1) * 30103 / 100000 + 1

/-- The first hit on the grids of `10 ^ k`, `10 ^ (k - 1)` and so on, trying `n` of them. -/
def search (b : Binary) : Nat → Int → Decimal
  | 0, k => ⟨0, k⟩
  | n + 1, k =>
    match b.onGrid k with
    | some c => ⟨c, k⟩
    | none => b.search n (k - 1)

/-- The shortest decimal. A grid with seventeen digits is fine enough for every number. -/
def shortest (b : Binary) : Decimal :=
  if b.mantissa = 0 then ⟨0, 0⟩ else b.search 21 b.topExponent

example : (ofFloat 0.1).shortest = ⟨1, -1⟩ := by decide

example : (ofBits 1).shortest = ⟨5, -324⟩ := by decide +kernel

end Binary

end RegionNet
