import RegionNet.Decimal.Basic
import RegionNet.Net.Basic
import RegionNet.Text.Blank
import RegionNet.Text.Split

/-!
# Choice lists

The textual form of a list of chosen transitions: their numbers, each with or without the letter `t`
before it, separated by commas, with white space around them. Parts with nothing but white space
count for nothing.
-/

namespace RegionNet

/-- What is wrong with a part of a choice list, which is kept as it was written. -/
inductive ChoiceError where
  | notAnId (part : String)
  | tooLarge (part : String)
  deriving DecidableEq, Repr

def ChoiceError.message : ChoiceError → String
  | notAnId part => "invalid transition id '" ++ part ++ "' (expected t<N> or <N>)"
  | tooLarge part =>
    "transition id '" ++ part ++ "' out of range: number too large to fit in target type"

namespace ChoiceList

/-- The largest number that a transition can have in a choice list. -/
def maxIndex : Nat := 4294967295

/-- A part without the letter that may stand first. -/
def withoutLetter : List Char → List Char
  | 't' :: cs => cs
  | cs => cs

/-- Reads the number of one transition. -/
def readId (part : List Char) : Except ChoiceError TransitionId :=
  let ds := withoutLetter (Text.trim part)
  if ds.isEmpty || !ds.all Char.isDigit then .error (.notAnId (String.ofList part))
  else
    let n := valueOfDigits 0 ds
    if n ≤ maxIndex then .ok ⟨n⟩ else .error (.tooLarge (String.ofList part))

/-- Reads parts one after the other up to the first that is wrong. -/
def readIds : List (List Char) → Except ChoiceError (List TransitionId)
  | [] => .ok []
  | part :: rest =>
    match readId part with
    | .error e => .error e
    | .ok t =>
      match readIds rest with
      | .error e => .error e
      | .ok ts => .ok (t :: ts)

/-- Reads a choice list. -/
def read (cs : List Char) : Except ChoiceError (List TransitionId) :=
  readIds ((Text.split ',' cs).filter fun part => !Text.blank part)

end ChoiceList

end RegionNet
