import RegionNet.Json.Token
import RegionNet.Decimal.Layout
import RegionNet.Json.Value
import RegionNet.Text.Hidden

/-!
# Reading typed values from JSON

A reader takes a value of some type from the front of a list of tokens. It fails at the first token
at which the text stops being JSON, or stops being JSON of the wanted form, whichever comes first.

Brackets may be nested only to a limited depth; a reader of something in brackets takes the number
of levels that are left. A value that nobody wants is skipped, at any depth.
-/

namespace RegionNet.Json

/-- What was found in place of the wanted form. -/
inductive Found where
  | null
  | bool (b : Bool)
  | integer (n : Int)
  | float (x : Float)
  | string (s : String)
  | sequence
  | map

/-- JSON of the wrong form. -/
inductive Mismatch where
  | missingField (name : String)
  | duplicateField (name : String)
  | invalidType (found : Found) (expected : String)
  | invalidLength (length : Nat) (expected : String)
  | unknownVariant (name : String) (known : List String)
  | noVariant (type : String)

/-- Why a text could not be read. -/
inductive ReadError where
  | text (p : Problem)
  | form (m : Mismatch)

/-- Takes a value from the front of a list of tokens. -/
abbrev Reader (β : Type) := List Token → Except ReadError (β × List Token)

/-- The number of nested brackets that a text may have. -/
def maxDepth : Nat := 127

/-! ## Values of any form -/

/-- A string, even if it cannot be read to its end. -/
def Token.isString : Token → Bool
  | .string _ => true
  | .badString _ _ => true
  | _ => false

/-- What a value of any form may go on with. -/
inductive Awaiting where
  | value
  | valueOrClose
  | key
  | keyOrClose
  | colon
  | commaOrClose
  deriving DecidableEq

/-- The kinds of brackets that may be open. -/
inductive Bracket where
  | square
  | curly
  deriving DecidableEq

/-- How carefully a value of any form is looked at. -/
inductive Care where
  /-- As if it were read, with some levels of brackets left. -/
  | reading (levels : Nat)
  | skipping

/-- The problem with a token that stands where a value should, for a value without brackets; none
if the token is such a value. -/
def Care.problem : Care → Token → Option Problem
  | _, .null => none
  | _, .bool _ => none
  | .reading _, .number n => if n.toFloat?.isSome then none else some .illFormed
  | .skipping, .number _ => none
  | .reading _, .string s => if s.isSome then none else some .illFormed
  | .skipping, .string _ => none
  | .reading _, .badString p _ => some p
  | .skipping, .badString _ p => some p
  | .reading _, .badScalar p _ => some p
  | .skipping, .badScalar _ p => some p
  | _, _ => some .illFormed

/-- One more bracket may be opened inside the given ones. -/
def Care.allows : Care → List Bracket → Bool
  | .reading levels, stack => stack.length < levels
  | .skipping, _ => true

/-- Passes over the rest of a value inside the given open brackets, innermost first. A value that is
complete goes on to what awaits its surroundings, or is the end. -/
def pass (care : Care) : Awaiting → List Bracket → List Token → Except Problem (List Token)
  | _, _, [] => .error .unfinished
  | awaiting, stack, t :: ts =>
    match awaiting, stack, t with
    | .commaOrClose, .square :: _, .comma => pass care .value stack ts
    | .commaOrClose, .curly :: _, .comma => pass care .key stack ts
    | .commaOrClose, .square :: outer, .closeBracket =>
      if outer.isEmpty then .ok ts else pass care .commaOrClose outer ts
    | .valueOrClose, .square :: outer, .closeBracket =>
      if outer.isEmpty then .ok ts else pass care .commaOrClose outer ts
    | .commaOrClose, .curly :: outer, .closeBrace =>
      if outer.isEmpty then .ok ts else pass care .commaOrClose outer ts
    | .keyOrClose, .curly :: outer, .closeBrace =>
      if outer.isEmpty then .ok ts else pass care .commaOrClose outer ts
    | .colon, _, .colon => pass care .value stack ts
    | .key, _, t | .keyOrClose, _, t =>
      if t.isString then
        match care.problem t with
        | some p => .error p
        | none => pass care .colon stack ts
      else .error .illFormed
    | .value, _, t | .valueOrClose, _, t =>
      match t with
      | .openBracket =>
        if care.allows stack then pass care .valueOrClose (.square :: stack) ts
        else .error .illFormed
      | .openBrace =>
        if care.allows stack then pass care .keyOrClose (.curly :: stack) ts
        else .error .illFormed
      | t =>
        match care.problem t with
        | some p => .error p
        | none => if stack.isEmpty then .ok ts else pass care .commaOrClose stack ts
    | _, _, _ => .error .illFormed

/-! ## Plain values -/

namespace Read

def unfinished : ReadError := .text .unfinished

def illFormed : ReadError := .text .illFormed

/-- The error at a token that is not the start of what is expected. -/
def surprise (expected : String) (ts : List Token) : ReadError :=
  let wrong (f : Found) : ReadError := .form (.invalidType f expected)
  match ts with
  | [] => unfinished
  | .null :: _ => wrong .null
  | .bool b :: _ => wrong (.bool b)
  | .number n :: _ =>
    match n.toFloat? with
    | none => illFormed
    | some x =>
      match n.toInt? with
      | some i => wrong (.integer i)
      | none => wrong (.float x)
  | .string (some s) :: _ => wrong (.string (String.ofList s))
  | .openBracket :: _ => wrong .sequence
  | .openBrace :: _ => wrong .map
  | .badString reading _ :: _ => .text reading
  | .badScalar reading _ :: _ => .text reading
  | _ => illFormed

def string (expected : String) : Reader String
  | .string (some s) :: ts => .ok (String.ofList s, ts)
  | ts => .error (surprise expected ts)

def text : Reader String := string "a string"

def float : Reader Float
  | .number n :: ts =>
    match n.toFloat? with
    | some x => .ok (x, ts)
    | none => .error illFormed
  | ts => .error (surprise "f64" ts)

def unit : Reader Unit
  | .null :: ts => .ok ((), ts)
  | ts => .error (surprise "unit" ts)

/-- Something, or null for nothing. -/
def optional {β : Type} (item : Reader β) : Reader (Option β)
  | .null :: ts => .ok (none, ts)
  | ts =>
    match item ts with
    | .ok (x, ts) => .ok (some x, ts)
    | .error e => .error e

/-! ## Brackets -/

/-- Whether another element follows, with the tokens from there on. -/
def nextElement (first : Bool) : Reader Bool
  | [] => .error unfinished
  | .closeBracket :: ts => .ok (false, .closeBracket :: ts)
  | t :: ts =>
    if first then .ok (true, t :: ts)
    else
      match t, ts with
      | .comma, [] => .error unfinished
      | .comma, .closeBracket :: _ => .error illFormed
      | .comma, ts => .ok (true, ts)
      | _, _ => .error illFormed

/-- The end of an array. -/
def closeArray : Reader Unit
  | [] => .error unfinished
  | .closeBracket :: ts => .ok ((), ts)
  | _ => .error illFormed

/-- The key of the next member, or nothing if the object ends. -/
def nextKey (first : Bool) : Reader (Option String)
  | [] => .error unfinished
  | .closeBrace :: ts => .ok (none, ts)
  | t :: ts =>
    let key : Reader (Option String)
      | [] => .error unfinished
      | .string (some s) :: ts => .ok (some (String.ofList s), ts)
      | .badString reading _ :: _ => .error (.text reading)
      | _ => .error illFormed
    if first then key (t :: ts)
    else
      match t with
      | .comma => key ts
      | _ => .error illFormed

def colon : Reader Unit
  | [] => .error unfinished
  | .colon :: ts => .ok ((), ts)
  | _ => .error illFormed

/-- The elements of an array up to its end, at most `n` of them. -/
def elements {β : Type} (item : Reader β) : Nat → Bool → Reader (List β)
  | 0, _, _ => .error illFormed
  | n + 1, first, ts => do
    let (more, ts) ← nextElement first ts
    if more then
      let (x, ts) ← item ts
      let (xs, ts) ← elements item n false ts
      .ok (x :: xs, ts)
    else
      let ((), ts) ← closeArray ts
      .ok ([], ts)

/-- An array, with `levels` levels of brackets left. -/
def list {β : Type} (levels : Nat) (item : Reader β) : Reader (List β)
  | .openBracket :: ts =>
    if levels = 0 then .error illFormed else elements item (ts.length + 1) true ts
  | ts => .error (surprise "a sequence" ts)

/-- The members of an object up to its end, at most `n` of them, each taken up by a state. -/
def members {σ : Type} (member : String → σ → Reader σ) : Nat → Bool → σ → Reader σ
  | 0, _, _, _ => .error illFormed
  | n + 1, first, s, ts => do
    let (key, ts) ← nextKey first ts
    match key with
    | none => .ok (s, ts)
    | some key =>
      let (s, ts) ← member key s ts
      members member n false s ts

/-- Skips a value that nobody wants. -/
def skip : Reader Unit := fun ts =>
  match pass .skipping .value [] ts with
  | .ok ts => .ok ((), ts)
  | .error p => .error (.text p)

/-- Passes over a value as carefully as if it were read. -/
def any (levels : Nat) : Reader Unit := fun ts =>
  match pass (.reading levels) .value [] ts with
  | .ok ts => .ok ((), ts)
  | .error p => .error (.text p)

end Read

/-! ## Error texts -/

/-- A character of a quoted text in a message. -/
def showChar (c : Char) : List Char :=
  match c with
  | '"' => ['\\', '"']
  | '\\' => ['\\', '\\']
  | '\n' => ['\\', 'n']
  | '\r' => ['\\', 'r']
  | '\t' => ['\\', 't']
  | '\x00' => ['\\', '0']
  | c =>
    if Text.isHidden c then
      ['\\', 'u', '\x7b'] ++ Nat.toDigits 16 c.toNat ++ ['\x7d']
    else [c]

def Found.message : Found → String
  | null => "null"
  | bool true => "boolean `true`"
  | bool false => "boolean `false`"
  | integer n => "integer `" ++ toString n ++ "`"
  | float x => "floating point `" ++ String.ofList (writeNumber x) ++ "`"
  | string s => "string \"" ++ String.ofList (s.toList.flatMap showChar) ++ "\""
  | sequence => "sequence"
  | map => "map"

def Mismatch.message : Mismatch → String
  | missingField name => "missing field `" ++ name ++ "`"
  | duplicateField name => "duplicate field `" ++ name ++ "`"
  | invalidType found expected => "invalid type: " ++ found.message ++ ", expected " ++ expected
  | invalidLength n expected => "invalid length " ++ toString n ++ ", expected " ++ expected
  | unknownVariant name known =>
    "unknown variant `" ++ name ++ "`, expected one of " ++
      String.intercalate ", " (known.map fun k => "`" ++ k ++ "`")
  | noVariant type => "data did not match any variant of untagged enum " ++ type

def Problem.message : Problem → String
  | unfinished => "the text ends too early"
  | illFormed => "the text is not JSON"

def ReadError.message : ReadError → String
  | text p => p.message
  | form m => m.message

end RegionNet.Json
