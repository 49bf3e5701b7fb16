import RegionNet.Decimal.Layout

/-!
# JSON values and their text

Values to be written as JSON, and two ways to write them: on one line without spaces, or over many
lines with an indentation of two. The members of an object keep their order.
-/

namespace RegionNet

inductive Json where
  | null
  | bool (b : Bool)
  | nat (n : Nat)
  | number (x : Float)
  | string (s : String)
  | array (items : List Json)
  | object (members : List (String × Json))
  deriving Inhabited

namespace Json

/-- Numbers from a hundred-thousandth up to sixteen places before the point are written out, and
whole ones keep a point. -/
def numberStyle : Decimal.Style := ⟨some (-5, 15), true⟩

example : Decimal.layout numberStyle ⟨1, 15⟩ = "1000000000000000.0".toList := by decide

example : Decimal.layout numberStyle ⟨1, 16⟩ = "1e+16".toList := by decide

example : Decimal.layout numberStyle ⟨1, -5⟩ = "0.00001".toList := by decide

example : Decimal.layout numberStyle ⟨1234, -9⟩ = "1.234e-6".toList := by decide

/-- A number; one that is not finite has no text and is left out. -/
def writeNumber (x : Float) : List Char :=
  if x.isFinite then Decimal.write numberStyle x else ['n', 'u', 'l', 'l']

def hexDigit (n : Nat) : Char := Nat.digitChar n

/-- A character inside quotes. -/
def escape (c : Char) : List Char :=
  match c with
  | '"' => ['\\', '"']
  | '\\' => ['\\', '\\']
  | '\x08' => ['\\', 'b']
  | '\x0c' => ['\\', 'f']
  | '\n' => ['\\', 'n']
  | '\r' => ['\\', 'r']
  | '\t' => ['\\', 't']
  | c =>
    if c.toNat < 0x20 then
      ['\\', 'u', '0', '0', hexDigit (c.toNat / 16), hexDigit (c.toNat % 16)]
    else [c]

def quote (s : String) : List Char := '"' :: s.toList.flatMap escape ++ ['"']

/-- The text of a value that has no parts. -/
def writeLeaf : Json → List Char
  | bool true => ['t', 'r', 'u', 'e']
  | bool false => ['f', 'a', 'l', 's', 'e']
  | nat n => digits n
  | number x => writeNumber x
  | string s => quote s
  | _ => ['n', 'u', 'l', 'l']

/-- A list of texts with a separator between them. -/
def separated (separator : List Char) : List (List Char) → List Char
  | [] => []
  | [t] => t
  | t :: ts => t ++ separator ++ separated separator ts

mutual

/-- The text on one line. -/
def compact : Json → List Char
  | array items => '[' :: separated [','] (compactItems items) ++ [']']
  | object members => '{' :: separated [','] (compactMembers members) ++ ['}']
  | leaf => writeLeaf leaf

def compactItems : List Json → List (List Char)
  | [] => []
  | v :: vs => compact v :: compactItems vs

def compactMembers : List (String × Json) → List (List Char)
  | [] => []
  | (key, v) :: ms => (quote key ++ ':' :: compact v) :: compactMembers ms

end

/-- The start of a line. -/
def newLine (indent : Nat) : List Char := '\n' :: List.replicate (2 * indent) ' '

/-- Brackets around lines that are indented once more; nothing between them if there are none. -/
def bracketed (first last : Char) (indent : Nat) (lines : List (List Char)) : List Char :=
  match lines with
  | [] => [first, last]
  | lines =>
    first :: newLine (indent + 1) ++ separated (',' :: newLine (indent + 1)) lines ++
      newLine indent ++ [last]

mutual

/-- The text over many lines, of which the first is already indented. -/
def indented (indent : Nat) : Json → List Char
  | array items => bracketed '[' ']' indent (indentedItems (indent + 1) items)
  | object members => bracketed '{' '}' indent (indentedMembers (indent + 1) members)
  | leaf => writeLeaf leaf

def indentedItems (indent : Nat) : List Json → List (List Char)
  | [] => []
  | v :: vs => indented indent v :: indentedItems indent vs

def indentedMembers (indent : Nat) : List (String × Json) → List (List Char)
  | [] => []
  | (key, v) :: ms =>
    (quote key ++ ':' :: ' ' :: indented indent v) :: indentedMembers indent ms

end

/-- A document: the text over many lines, with a line end. -/
def document (v : Json) : String := String.ofList (indented 0 v ++ ['\n'])

/-- The members that are present. -/
def present (members : List (String × Option Json)) : Json :=
  object (members.filterMap fun (key, v) => v.map (key, ·))

end Json

end RegionNet
