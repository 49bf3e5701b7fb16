import RegionNet.Json.Token

/-!
# Scanning TOML

The parts of a TOML text that are no values: layout, comments, quoted strings and keys. A scanner
takes something from the front of a text and answers with what is left, or with nothing if the text
is no TOML.
-/

namespace RegionNet.Toml

/-- Takes something from the front of a text. -/
abbrev Scan (β : Type) := List Char → Option (β × List Char)

/-! ## Layout -/

/-- White space inside a line. -/
def isIndent (c : Char) : Bool := c = ' ' || c = '\t'

def skipIndent (cs : List Char) : List Char := cs.dropWhile isIndent

/-- A character that may stand in a comment or in quotes: anything but control characters, of which
only the tab is allowed. -/
def isPrintable (c : Char) : Bool := c = '\t' || (0x20 ≤ c.toNat && c.toNat ≠ 0x7F)

/-- Takes a line end. -/
def newLine? : List Char → Option (List Char)
  | '\n' :: cs => some cs
  | '\r' :: '\n' :: cs => some cs
  | _ => none

/-- Takes a comment, if there is one. -/
def skipComment : List Char → List Char
  | '#' :: cs => cs.dropWhile isPrintable
  | cs => cs

/-- Takes what may stand behind an expression, up to the next line. -/
def lineEnd (cs : List Char) : Option (List Char) :=
  match skipComment (skipIndent cs) with
  | [] => some []
  | cs => newLine? cs

/-- Takes white space, comments and line ends, at most `n` lines of them. -/
def skipLines : Nat → List Char → List Char
  | 0, cs => cs
  | n + 1, cs =>
    let after := skipComment (skipIndent cs)
    match newLine? after with
    | some rest => skipLines n rest
    | none => after

/-- Takes everything between two values in brackets. -/
def skipLayout (cs : List Char) : List Char := skipLines (cs.length + 1) cs

/-! ## Strings -/

/-- The character with a number in base sixteen, if there is one. -/
def charOfHex (ds : List Char) : Option Char :=
  if ds.all Json.isHexDigit then
    let n := ds.foldl (fun n c => 16 * n + Json.hexValue c) 0
    if Nat.isValidChar n then some (Char.ofNat n) else none
  else none

/-- Reads an escape after its backslash. -/
def escape : Scan Char
  | 'b' :: cs => some ('\x08', cs)
  | 't' :: cs => some ('\t', cs)
  | 'n' :: cs => some ('\n', cs)
  | 'f' :: cs => some ('\x0c', cs)
  | 'r' :: cs => some ('\r', cs)
  | 'e' :: cs => some ('\x1b', cs)
  | '"' :: cs => some ('"', cs)
  | '\\' :: cs => some ('\\', cs)
  | 'x' :: a :: b :: cs => (charOfHex [a, b]).map (·, cs)
  | 'u' :: a :: b :: c :: d :: cs => (charOfHex [a, b, c, d]).map (·, cs)
  | 'U' :: a :: b :: c :: d :: e :: f :: g :: h :: cs =>
    (charOfHex [a, b, c, d, e, f, g, h]).map (·, cs)
  | _ => none

/-- Puts a character in front of what a scanner reads. -/
def consScan (c : Char) (r : Option (List Char × List Char)) : Option (List Char × List Char) :=
  r.map fun (s, rest) => (c :: s, rest)

/-- Reads a string in double quotes after its opening quote, at most `n` characters of it. -/
def basicFor : Nat → Scan (List Char)
  | 0, _ => none
  | _ + 1, '"' :: cs => some ([], cs)
  | n + 1, '\\' :: cs => do
    let (c, cs) ← escape cs
    consScan c (basicFor n cs)
  | n + 1, c :: cs => if isPrintable c then consScan c (basicFor n cs) else none
  | _ + 1, [] => none

def basic : Scan (List Char) := fun cs => basicFor (cs.length + 1) cs

/-- Reads a string in single quotes after its opening quote. -/
def literal : Scan (List Char)
  | '\'' :: cs => some ([], cs)
  | c :: cs => if isPrintable c then consScan c (literal cs) else none
  | [] => none

/-- Takes the closing quotes of a string of many lines. Up to two quotes before them are part of the
string. -/
def closing (q : Char) : Scan (List Char)
  | a :: b :: c :: cs =>
    if a = q ∧ b = q ∧ c = q then
      let extra := (cs.takeWhile (· = q)).take 2
      some (extra, cs.drop extra.length)
    else none
  | _ => none

/-- Takes white space and line ends. -/
def skipBlankLines : List Char → List Char
  | [] => []
  | '\r' :: '\n' :: cs => skipBlankLines cs
  | c :: cs => if isIndent c || c = '\n' then skipBlankLines cs else c :: cs

/-- Takes white space and line ends after a backslash at the end of a line. -/
def foldedLine (cs : List Char) : Option (List Char) :=
  (newLine? (skipIndent cs)).map skipBlankLines

/-- Reads a string of many lines in double quotes, at most `n` characters of it. -/
def longBasicFor : Nat → Scan (List Char)
  | 0, _ => none
  | n + 1, cs =>
    match closing '"' cs with
    | some r => some r
    | none =>
      match cs with
      | [] => none
      | '\\' :: cs =>
        match foldedLine cs with
        | some cs => longBasicFor n cs
        | none => do
          let (c, cs) ← escape cs
          consScan c (longBasicFor n cs)
      | '\r' :: '\n' :: cs => consScan '\n' (longBasicFor n cs)
      | c :: cs => if isPrintable c || c = '\n' then consScan c (longBasicFor n cs) else none

/-- Reads a string of many lines in single quotes, at most `n` characters of it. -/
def longLiteralFor : Nat → Scan (List Char)
  | 0, _ => none
  | n + 1, cs =>
    match closing '\'' cs with
    | some r => some r
    | none =>
      match cs with
      | [] => none
      | '\r' :: '\n' :: cs => consScan '\n' (longLiteralFor n cs)
      | c :: cs => if isPrintable c || c = '\n' then consScan c (longLiteralFor n cs) else none

/-- The text without a line end at its very start. -/
def withoutNewLine (cs : List Char) : List Char := (newLine? cs).getD cs

/-- Reads a string in any quotes. -/
def quoted : Scan (List Char)
  | '"' :: '"' :: '"' :: cs => longBasicFor (cs.length + 1) (withoutNewLine cs)
  | '\'' :: '\'' :: '\'' :: cs => longLiteralFor (cs.length + 1) (withoutNewLine cs)
  | '"' :: cs => basic cs
  | '\'' :: cs => literal cs
  | _ => none

/-! ## Keys -/

/-- A character of a key without quotes. -/
def isBare (c : Char) : Bool := c.isAlphanum || c = '_' || c = '-'

/-- Reads one part of a key. -/
def keyPart : Scan String
  | '"' :: cs => (basic cs).map fun (s, rest) => (String.ofList s, rest)
  | '\'' :: cs => (literal cs).map fun (s, rest) => (String.ofList s, rest)
  | cs =>
    match cs.takeWhile isBare with
    | [] => none
    | s => some (String.ofList s, cs.dropWhile isBare)

/-- Reads a key of at most `n` parts with dots between them, and the white space behind it. -/
def keyFor : Nat → Scan (List String)
  | 0, _ => none
  | n + 1, cs => do
    let (part, cs) ← keyPart (skipIndent cs)
    match skipIndent cs with
    | '.' :: cs =>
      let (parts, cs) ← keyFor n cs
      some (part :: parts, cs)
    | cs => some ([part], cs)

/-- The number of parts that a key may have. -/
def maxParts : Nat := 80

def key : Scan (List String) := keyFor maxParts

end RegionNet.Toml
