import RegionNet.Decimal.Basic

/-!
# JSON tokens

A JSON text as a list of tokens. The text is cut up as far as possible: where no token can be read,
the list ends with a token that says why. That reason may depend on what the token is wanted for,
since a reader that only skips a value is content with less: it does not pair surrogates, and it
does not tell a number that breaks off from one that is wrong.
-/

namespace RegionNet.Json

/-- Why a text is no JSON. -/
inductive Problem where
  /-- The text ends too early. -/
  | unfinished
  /-- The text goes wrong. -/
  | illFormed
  deriving DecidableEq, Repr, Inhabited

/-- A number as it is written. -/
structure Numeral where
  negative : Bool
  whole : List Char
  fraction : List Char
  /-- The sign and the digits of the exponent. -/
  exponent : Option (Bool × List Char)
  deriving DecidableEq, Repr

inductive Token where
  | openBrace
  | closeBrace
  | openBracket
  | closeBracket
  | colon
  | comma
  | null
  | bool (b : Bool)
  | number (n : Numeral)
  /-- A string; without a text if surrogates in it have no partners. -/
  | string (text : Option (List Char))
  /-- A string that cannot be read to its end, or skipped. -/
  | badString (reading skipping : Problem)
  /-- Anything else that cannot be read, or skipped. -/
  | badScalar (reading skipping : Problem)
  deriving DecidableEq, Repr

/-! ## Numbers -/

namespace Numeral

/-- The number without its sign. -/
def magnitude (n : Numeral) : Decimal :=
  let shift : Int := match n.exponent with
    | none => 0
    | some (false, ds) => (valueOfDigits 0 ds : Int)
    | some (true, ds) => -(valueOfDigits 0 ds : Int)
  ⟨valueOfDigits 0 (n.whole ++ n.fraction), shift - (n.fraction.length : Int)⟩

/-- The nearest floating-point number, if the numeral is not too large for one. -/
def toFloat? (n : Numeral) : Option Float :=
  let x := n.magnitude.toFloat
  if x.isInf then none else some (if n.negative then -x else x)

/-- The value of a numeral that is written as an integer and fits into 64 bits, of which a sign
takes one. Minus zero is not an integer. -/
def toInt? (n : Numeral) : Option Int :=
  if n.fraction = [] ∧ n.exponent = none then
    let v := valueOfDigits 0 n.whole
    if n.negative then
      if 0 < v ∧ Int64.minValue.toInt ≤ -(v : Int) then some (-(v : Int)) else none
    else if v < UInt64.size then some v else none
  else none

/-- Reads the exponent of a number. -/
def scanExponent (n : Numeral) (cs : List Char) : Token × List Char :=
  let (negative, cs) := match cs with
    | '+' :: cs => (false, cs)
    | '-' :: cs => (true, cs)
    | cs => (false, cs)
  match cs.takeWhile Char.isDigit with
  | [] => (.badScalar (if cs = [] then .unfinished else .illFormed) .illFormed, [])
  | ds => (.number { n with exponent := some (negative, ds) }, cs.dropWhile Char.isDigit)

/-- Reads what follows the places of a number. -/
def scanTail (n : Numeral) : List Char → Token × List Char
  | 'e' :: cs => scanExponent n cs
  | 'E' :: cs => scanExponent n cs
  | cs => (.number n, cs)

/-- Reads a number that follows its sign. -/
def scan (negative : Bool) (cs : List Char) : Token × List Char :=
  match cs.takeWhile Char.isDigit with
  | [] => (.badScalar (if cs = [] then .unfinished else .illFormed) .illFormed, [])
  | '0' :: _ :: _ => (.badScalar .illFormed .illFormed, [])
  | whole =>
    match cs.dropWhile Char.isDigit with
    | '.' :: rest =>
      match rest.takeWhile Char.isDigit with
      | [] => (.badScalar (if rest = [] then .unfinished else .illFormed) .illFormed, [])
      | fraction => scanTail ⟨negative, whole, fraction, none⟩ (rest.dropWhile Char.isDigit)
    | rest => scanTail ⟨negative, whole, [], none⟩ rest

end Numeral

/-! ## Strings -/

/-- What a string is made of: characters, and escaped 16-bit units. -/
inductive Piece where
  | char (c : Char)
  | unit (n : Nat)
  deriving DecidableEq, Repr

namespace Piece

def isHighSurrogate (n : Nat) : Bool := 0xD800 ≤ n && n ≤ 0xDBFF

def isLowSurrogate (n : Nat) : Bool := 0xDC00 ≤ n && n ≤ 0xDFFF

/-- The character that a pair of surrogates stands for. -/
def joinSurrogates (high low : Nat) : Char :=
  Char.ofNat (0x10000 + (high - 0xD800) * 0x400 + (low - 0xDC00))

/-- The text of a string, if every surrogate in it has a partner. -/
def text : List Piece → Option (List Char)
  | [] => some []
  | .char c :: ps => (text ps).map (c :: ·)
  | .unit high :: .unit low :: ps =>
    if isHighSurrogate high then
      if isLowSurrogate low then (text ps).map (joinSurrogates high low :: ·) else none
    else if isLowSurrogate high then none
    else (text (.unit low :: ps)).map (Char.ofNat high :: ·)
  | .unit n :: ps =>
    if isHighSurrogate n || isLowSurrogate n then none else (text ps).map (Char.ofNat n :: ·)

/-- The pieces without a high surrogate at their end, whose partner might still have come. -/
def withoutDangling (ps : List Piece) : List Piece :=
  match ps.getLast? with
  | some (.unit n) => if isHighSurrogate n then ps.dropLast else ps
  | _ => ps

end Piece

def isHexDigit (c : Char) : Bool :=
  c.isDigit || ('a' ≤ c && c ≤ 'f') || ('A' ≤ c && c ≤ 'F')

def hexValue (c : Char) : Nat :=
  if c.isDigit then c.toNat - '0'.toNat
  else if 'a' ≤ c then c.toNat - 'a'.toNat + 10
  else c.toNat - 'A'.toNat + 10

def hexUnit (a b c d : Char) : Nat :=
  ((hexValue a * 16 + hexValue b) * 16 + hexValue c) * 16 + hexValue d

/-- The number of bytes of a text in UTF-8. -/
def byteLength (cs : List Char) : Nat := (String.ofList cs).utf8ByteSize

/-- What a backslash before a character stands for. -/
def unescape : Char → Option Char
  | '"' => some '"'
  | '\\' => some '\\'
  | '/' => some '/'
  | 'b' => some '\x08'
  | 'f' => some '\x0c'
  | 'n' => some '\n'
  | 'r' => some '\r'
  | 't' => some '\t'
  | _ => none

/-- Reads a string up to its closing quote: its pieces, and the text after it or the problem. An
escape with four digits needs four more bytes, or the text counts as ending in it. -/
def scanString : List Char → List Piece × Except Problem (List Char)
  | [] => ([], .error .unfinished)
  | '"' :: cs => ([], .ok cs)
  | '\\' :: 'u' :: a :: b :: c :: d :: cs =>
    if isHexDigit a && isHexDigit b && isHexDigit c && isHexDigit d then
      let (ps, rest) := scanString cs
      (.unit (hexUnit a b c d) :: ps, rest)
    else ([], .error .illFormed)
  | '\\' :: 'u' :: cs =>
    ([], .error (if byteLength cs < 4 then .unfinished else .illFormed))
  | '\\' :: c :: cs =>
    match unescape c with
    | some e =>
      let (ps, rest) := scanString cs
      (.char e :: ps, rest)
    | none => ([], .error .illFormed)
  | ['\\'] => ([], .error .unfinished)
  | c :: cs =>
    if c.toNat < 0x20 then ([], .error .illFormed)
    else
      let (ps, rest) := scanString cs
      (.char c :: ps, rest)

/-- The token of a string whose opening quote was read, and the text after it. -/
def stringToken (cs : List Char) : Token × List Char :=
  match scanString cs with
  | (ps, .ok rest) => (.string (Piece.text ps), rest)
  | (ps, .error p) =>
    let reading := if (Piece.text (Piece.withoutDangling ps)).isSome then p else .illFormed
    (.badString reading p, [])

/-! ## Texts -/

/-- The white space of JSON. -/
def isSpace (c : Char) : Bool := c = ' ' || c = '\n' || c = '\t' || c = '\r'

/-- Reads a word of which the first letter was read. -/
def wordToken (token : Token) : List Char → List Char → Token × List Char
  | [], cs => (token, cs)
  | _ :: _, [] => (.badScalar .unfinished .unfinished, [])
  | w :: ws, c :: cs =>
    if c = w then wordToken token ws cs else (.badScalar .illFormed .illFormed, [])

/-- The token that starts with a character, and the text after it. -/
def token (c : Char) (cs : List Char) : Token × List Char :=
  match c with
  | '{' => (.openBrace, cs)
  | '}' => (.closeBrace, cs)
  | '[' => (.openBracket, cs)
  | ']' => (.closeBracket, cs)
  | ':' => (.colon, cs)
  | ',' => (.comma, cs)
  | '"' => stringToken cs
  | '-' => Numeral.scan true cs
  | 'n' => wordToken .null ['u', 'l', 'l'] cs
  | 't' => wordToken (.bool true) ['r', 'u', 'e'] cs
  | 'f' => wordToken (.bool false) ['a', 'l', 's', 'e'] cs
  | c => if c.isDigit then Numeral.scan false (c :: cs) else (.badScalar .illFormed .illFormed, [])

/-- The tokens of the first `n` characters and of those that belong to them. -/
def tokensFor : Nat → List Char → List Token
  | 0, _ => []
  | _, [] => []
  | n + 1, c :: cs =>
    if isSpace c then tokensFor n cs
    else
      let (t, rest) := token c cs
      t :: tokensFor n rest

/-- The tokens of a text. -/
def tokens (cs : List Char) : List Token := tokensFor cs.length cs

end RegionNet.Json
