/-!
# Quantities

Durations, impacts, probabilities and ages are numbers of one type. Everything that computes with
them is written over the class `Quantity`, so that the same definitions run on `Float` and can be
reasoned about exactly on `Rat`.

The class asks for no laws: `Float` would break most of them. Order and equality are the ones the
program decides with, so on `Float` a comparison with NaN is false and `0.0 == -0.0` holds.
-/

namespace RegionNet

/-- A type of numbers that durations, impacts and probabilities can be measured in. -/
class Quantity (α : Type) extends
    Add α, Sub α, Mul α, Div α, Zero α, One α, NatCast α, LT α, LE α, BEq α where
  decLt : DecidableLT α
  decLe : DecidableLE α
  /-- Neither infinite nor undefined. -/
  isFinite : α → Bool
  /-- The integer part of a number between `0` and `2 ^ 64`, and some natural number elsewhere. -/
  whole : α → Nat

attribute [reducible, instance] Quantity.decLt Quantity.decLe

instance : Quantity Float where
  zero := 0.0
  one := 1.0
  natCast := Float.ofNat
  decLt := inferInstance
  decLe := inferInstance
  isFinite := Float.isFinite
  whole x := x.toUInt64.toNat

instance : Quantity Rat where
  zero := ((0 : Nat) : Rat)
  one := ((1 : Nat) : Rat)
  decLt := inferInstance
  decLe := inferInstance
  isFinite _ := true
  whole x := x.floor.toNat

namespace Quantity

variable {α : Type} [Quantity α]

/-- One part in a thousand million: the slack allowed where times or sums of probabilities are
compared. -/
def slack : α := 1 / ((1000000000 : Nat) : α)

/-- The sum of a list, from left to right. It starts at the first entry and not at zero, so that a
list of negative zeros keeps its sign. -/
def sum : List α → α
  | [] => 0
  | x :: xs => xs.foldl (· + ·) x

/-- The larger of two numbers; the first if they cannot be compared. -/
def larger (x y : α) : α := if x < y then y else x

/-- The smaller of two numbers; the first if they cannot be compared. -/
def smaller (x y : α) : α := if y < x then y else x

/-- Entrywise sum of two vectors; a missing entry counts as zero. -/
def addEntries : List α → List α → List α
  | [], ys => ys.map (0 + ·)
  | xs, [] => xs.map (· + 0)
  | x :: xs, y :: ys => (x + y) :: addEntries xs ys

end Quantity

end RegionNet
