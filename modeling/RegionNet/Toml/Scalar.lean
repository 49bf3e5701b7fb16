import RegionNet.Toml.Scan

/-!
# TOML scalars

Values that are written as one word without quotes: integers in four bases, floating-point numbers,
truth values, dates and times.
-/

namespace RegionNet.Toml

/-- A value without parts. Nothing but the fact that it is one is kept of a date or time. -/
inductive Scalar where
  | integer (n : Int)
  | float (x : Float)
  | bool (b : Bool)
  | moment
  deriving Repr

/-- The digits of a run in which single underscores may stand between digits. -/
def grouped (isDigit : Char → Bool) : List Char → Option (List Char)
  | [] => none
  | [c] => if isDigit c then some [c] else none
  | c :: '_' :: cs => if isDigit c then (grouped isDigit cs).map (c :: ·) else none
  | c :: cs => if isDigit c then (grouped isDigit cs).map (c :: ·) else none

/-- Digits of base ten without a needless leading zero. -/
def decimalDigits (cs : List Char) : Option (List Char) :=
  match grouped Char.isDigit cs with
  | some ('0' :: _ :: _) => none
  | ds => ds

def isOctal (c : Char) : Bool := '0' ≤ c && c ≤ '7'

def isBinary (c : Char) : Bool := c = '0' || c = '1'

/-- The value of digits in a base. -/
def inBase (base : Nat) (ds : List Char) : Int :=
  (ds.foldl (fun n c => base * n + Json.hexValue c) 0 : Nat)

/-- Splits a sign off a word. -/
def splitSign : List Char → Bool × List Char
  | '-' :: cs => (true, cs)
  | '+' :: cs => (false, cs)
  | cs => (false, cs)

/-- An integer of any size. -/
def anyInteger? : List Char → Option Int
  | '0' :: 'x' :: cs => (grouped Json.isHexDigit cs).map (inBase 16)
  | '0' :: 'o' :: cs => (grouped isOctal cs).map (inBase 8)
  | '0' :: 'b' :: cs => (grouped isBinary cs).map (inBase 2)
  | cs =>
    let (negative, cs) := splitSign cs
    (decimalDigits cs).map fun ds => if negative then -(inBase 10 ds) else inBase 10 ds

/-- The integer fits into 128 bits, where a sign takes one of them. -/
def fits (n : Int) : Bool :=
  match n with
  | .ofNat k => k < Nat.pow 2 128
  | .negSucc k => k < Nat.pow 2 127

/-- The places after a point and the exponent. -/
def fraction? (cs : List Char) : Option (List Char × Option (Bool × List Char)) :=
  let isE (c : Char) : Bool := c = 'e' || c = 'E'
  let places := cs.takeWhile fun c => !isE c
  match places, cs.dropWhile fun c => !isE c with
  | [], [] => none
  | places, tail => do
    let fraction ← match places with
      | [] => some []
      | '.' :: ds => grouped Char.isDigit ds
      | _ => none
    match tail with
    | [] => some (fraction, none)
    | _ :: tail =>
      let (negative, ds) := splitSign tail
      let ds ← grouped Char.isDigit ds
      some (fraction, some (negative, ds))

def float? (cs : List Char) : Option Float :=
  let (negative, cs) := splitSign cs
  match cs with
  | ['i', 'n', 'f'] => some (if negative then -(1.0 / 0.0) else 1.0 / 0.0)
  | ['n', 'a', 'n'] => some (0.0 / 0.0)
  | cs => do
    let isWhole (c : Char) : Bool := c.isDigit || c = '_'
    let whole ← decimalDigits (cs.takeWhile isWhole)
    let (fraction, exponent) ← fraction? (cs.dropWhile isWhole)
    Json.Numeral.toFloat? ⟨negative, whole, fraction, exponent⟩

/-! ## Dates and times -/

/-- Reads exactly `n` digits. -/
def digitsOf (n : Nat) (cs : List Char) : Option (Nat × List Char) :=
  let ds := cs.take n
  if ds.length = n ∧ ds.all Char.isDigit then some (valueOfDigits 0 ds, cs.drop n) else none

def isLeapYear (y : Nat) : Bool := y % 4 = 0 && (y % 100 ≠ 0 || y % 400 = 0)

def daysInMonth (y m : Nat) : Nat :=
  if m = 2 then if isLeapYear y then 29 else 28
  else if m = 4 ∨ m = 6 ∨ m = 9 ∨ m = 11 then 30
  else 31

/-- Takes a date. -/
def date? (cs : List Char) : Option (List Char) := do
  let (y, cs) ← digitsOf 4 cs
  match cs with
  | '-' :: cs =>
    let (m, cs) ← digitsOf 2 cs
    match cs with
    | '-' :: cs =>
      let (d, cs) ← digitsOf 2 cs
      if 1 ≤ m ∧ m ≤ 12 ∧ 1 ≤ d ∧ d ≤ daysInMonth y m then some cs else none
    | _ => none
  | _ => none

/-- Takes hours and minutes. -/
def clock? (cs : List Char) : Option (List Char) := do
  let (h, cs) ← digitsOf 2 cs
  match cs with
  | ':' :: cs =>
    let (m, cs) ← digitsOf 2 cs
    if h ≤ 23 ∧ m ≤ 59 then some cs else none
  | _ => none

/-- Takes the fraction of a second, if there is one. -/
def subsecond? : List Char → Option (List Char)
  | '.' :: cs =>
    match cs.takeWhile Char.isDigit with
    | [] => none
    | _ => some (cs.dropWhile Char.isDigit)
  | cs => some cs

/-- Takes a time of day. -/
def time? (cs : List Char) : Option (List Char) := do
  let cs ← clock? cs
  match cs with
  | ':' :: cs =>
    let (s, cs) ← digitsOf 2 cs
    if s ≤ 60 then subsecond? cs else none
  | cs => some cs

/-- Nothing, or the distance from universal time. -/
def isOffset : List Char → Bool
  | [] => true
  | ['Z'] => true
  | ['z'] => true
  | '+' :: cs => clock? cs = some []
  | '-' :: cs => clock? cs = some []
  | _ => false

/-- A date, a time, or both. -/
def isMoment (cs : List Char) : Bool :=
  match date? cs with
  | some [] => true
  | some (c :: rest) => (c = 'T' || c = 't' || c = ' ') && (time? rest).any isOffset
  | none => time? cs = some []

/-! ## Words -/

/-- A character of a word without quotes. -/
def isWordChar (c : Char) : Bool :=
  c.isAlphanum || c = '_' || c = '-' || c = '+' || c = '.' || c = ':'

/-- The value that a word stands for. -/
def scalarOf (word : List Char) : Option Scalar :=
  if word = ['t', 'r', 'u', 'e'] then some (.bool true)
  else if word = ['f', 'a', 'l', 's', 'e'] then some (.bool false)
  else
    match anyInteger? word with
    | some n => if fits n then some (.integer n) else none
    | none =>
      match float? word with
      | some x => some (.float x)
      | none => if isMoment word then some .moment else none

/-- Reads a value that is one word, or a date and a time with a space between them. -/
def word : Scan Scalar := fun cs =>
  let first := cs.takeWhile isWordChar
  let rest := cs.dropWhile isWordChar
  match date? first, rest with
  | some [], ' ' :: next :: more =>
    if next.isDigit then
      let second := (next :: more).takeWhile isWordChar
      (scalarOf (first ++ ' ' :: second)).map (·, (next :: more).dropWhile isWordChar)
    else (scalarOf first).map (·, rest)
  | _, _ => (scalarOf first).map (·, rest)

end RegionNet.Toml
