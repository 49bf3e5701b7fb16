import RegionNet.Quantity

/-!
# Sources of chance

A source yields 64-bit words one after another; its state is a value that the caller passes on.
Words become decisions in two ways: a yes that has a given probability, and a number drawn evenly
between zero and one.
-/

namespace RegionNet

/-- A stream of 64-bit words with states in `σ`. -/
structure Source (σ : Type) where
  next : σ → UInt64 × σ

/-- A list of words that starts anew whenever it is used up. -/
structure Cycle where
  words : List UInt64
  ahead : List UInt64

namespace Cycle

def ofWords (words : List UInt64) : Cycle := ⟨words, words⟩

/-- The words of the list in turn; zero if there are none. -/
def source : Source Cycle where
  next c :=
    match c.ahead, c.words with
    | word :: ahead, words => (word, ⟨words, ahead⟩)
    | [], word :: ahead => (word, ⟨word :: ahead, ahead⟩)
    | [], [] => (0, ⟨[], []⟩)

end Cycle

namespace Quantity

variable {α : Type} [Quantity α]

/-- Whether a word says yes to something of probability `p`: it does if, read as a fraction of
`2 ^ 64`, it lies below `p` cut off after 64 binary places. -/
def accepts (p : α) (word : UInt64) : Bool :=
  word.toNat < whole (p * (UInt64.size : α))

/-- The upper 52 bits of a word as a fraction of one. -/
def fraction (word : UInt64) : α :=
  ((word >>> 12).toNat : α) / (Nat.pow 2 52 : α)

end Quantity

end RegionNet
