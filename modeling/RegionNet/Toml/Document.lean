import RegionNet.Toml.Scalar

/-!
# TOML documents

A document as the table that it describes. Tables remember how they came about, since that decides
what may still be added to them: a table in braces is complete, a table made by the dots of a key
can be extended by such keys only, and a table that was only mentioned on the way to another one may
still get a header of its own.
-/

namespace RegionNet

/-- How a table came about. -/
inductive Toml.Origin where
  | inBraces
  | byDots
  | byHeader
  | mentioned
  deriving DecidableEq, Repr

inductive Toml where
  | scalar (s : Toml.Scalar)
  | string (s : String)
  | array (items : List Toml)
  | table (origin : Toml.Origin) (entries : List (String × Toml))
  /-- An array of tables with a header each. -/
  | tables (elements : List (List (String × Toml)))

namespace Toml

abbrev Entries := List (String × Toml)

def Entries.get? (es : Entries) (k : String) : Option Toml := es.lookup k

/-- Changes the value of a key, or adds one, unless `f` refuses. -/
def Entries.alter (k : String) (f : Option Toml → Option Toml) : Entries → Option Entries
  | [] => (f none).map fun v => [(k, v)]
  | (key, v) :: es =>
    if k = key then (f (some v)).map fun v => (key, v) :: es
    else (Entries.alter k f es).map ((key, v) :: ·)

/-- Changes the entries of the last of several tables. -/
def alterLast (f : Entries → Option Entries) : List Entries → Option (List Entries)
  | [] => none
  | [es] => (f es).map fun es => [es]
  | es :: rest => (alterLast f rest).map (es :: ·)

/-- Assigns a value to a key with dots, which must be new. The tables on the way are entered, or
made by the dots; none of them may be in braces or have a header of its own, unless it is the last
element of an array of tables. The last part of the key can be added if the entries are `mine`:
those in which the key begins, or those of a table that was made by dots. -/
def assign (v : Toml) (mine : Bool) : List String → Entries → Option Entries
  | [], _ => none
  | [k], es =>
    if mine then
      Entries.alter k (fun old => match old with
        | none => some v
        | some _ => none) es
    else none
  | k :: path, es =>
    Entries.alter k (fun old => match old with
      | none => (assign v true path []).map (.table .byDots)
      | some (.table .byDots inner) => (assign v true path inner).map (.table .byDots)
      | some (.table .mentioned inner) => (assign v false path inner).map (.table .mentioned)
      | some (.tables elements) => (alterLast (assign v false path) elements).map .tables
      | some _ => none) es

/-- Changes what is under the last key of a path. The tables on the way are entered, or made. -/
def alterAt (f : Option Toml → Option Toml) : List String → Entries → Option Entries
  | [], _ => none
  | [k], es => Entries.alter k f es
  | k :: path, es =>
    Entries.alter k (fun old => match old with
      | none => (alterAt f path []).map (.table .mentioned)
      | some (.table .inBraces _) => none
      | some (.table origin inner) => (alterAt f path inner).map (.table origin)
      | some (.tables elements) => (alterLast (alterAt f path) elements).map .tables
      | some _ => none) es

/-- Opens a table under a header. -/
def openTable : List String → Entries → Option Entries :=
  alterAt fun old => match old with
    | none => some (.table .byHeader [])
    | some (.table .mentioned inner) => some (.table .byHeader inner)
    | some _ => none

/-- Opens one more element of an array of tables. -/
def openElement : List String → Entries → Option Entries :=
  alterAt fun old => match old with
    | none => some (.tables [[]])
    | some (.tables elements) => some (.tables (elements ++ [[]]))
    | some _ => none

/-- Assigns a value to a key below the header that was opened last. -/
def assignBelow (header : List String) (k : List String) (v : Toml) (es : Entries) :
    Option Entries :=
  match header with
  | [] => assign v true k es
  | header =>
    alterAt (fun old => match old with
      | some (.table origin inner) => (assign v true k inner).map (.table origin)
      | some (.tables elements) => (alterLast (assign v true k) elements).map .tables
      | _ => none) header es

/-! ## Values -/

/-- Reads the items of an array after its opening bracket, at most `n` of them. -/
def itemsFor (item : Scan Toml) : Nat → Scan (List Toml)
  | 0, _ => none
  | n + 1, cs =>
    match skipLayout cs with
    | ']' :: cs => some ([], cs)
    | cs => do
      let (v, cs) ← item cs
      match skipLayout cs with
      | ',' :: cs =>
        let (vs, cs) ← itemsFor item n cs
        some (v :: vs, cs)
      | ']' :: cs => some ([v], cs)
      | _ => none

/-- Reads a key, the sign of equality and a value, where `skip` takes what may stand on both sides
of the sign. -/
def keyValue (skip : List Char → List Char) (item : Scan Toml) : Scan (List String × Toml) :=
  fun cs => do
    let (k, cs) ← key cs
    match skip cs with
    | '=' :: cs =>
      let (v, cs) ← item (skip cs)
      some ((k, v), cs)
    | _ => none

/-- Reads the entries of a table after its opening brace, at most `n` of them. Line ends may stand
between all of its parts but those of a key. -/
def entriesFor (item : Scan Toml) : Nat → Entries → Scan Entries
  | 0, _, _ => none
  | n + 1, es, cs =>
    match skipLayout cs with
    | '\x7d' :: cs => some (es, cs)
    | cs => do
      let ((k, v), cs) ← keyValue skipLayout item cs
      let es ← assign v true k es
      match skipLayout cs with
      | ',' :: cs => entriesFor item n es cs
      | '\x7d' :: cs => some (es, cs)
      | _ => none

/-- Reads a string in quotes as a value. -/
def stringValue : Scan Toml := fun cs =>
  (quoted cs).map fun (s, rest) => (.string (String.ofList s), rest)

/-- Reads a value, with some levels of brackets and braces left. -/
def valueWithin : Nat → Scan Toml
  | _, '"' :: cs => stringValue ('"' :: cs)
  | _, '\'' :: cs => stringValue ('\'' :: cs)
  | 0, '[' :: _ => none
  | 0, '\x7b' :: _ => none
  | levels + 1, '[' :: cs =>
    (itemsFor (valueWithin levels) (cs.length + 1) cs).map fun (vs, rest) => (.array vs, rest)
  | levels + 1, '\x7b' :: cs =>
    (entriesFor (valueWithin levels) (cs.length + 1) [] cs).map fun (es, rest) =>
      (.table .inBraces es, rest)
  | _, cs => (word cs).map fun (s, rest) => (.scalar s, rest)

/-- The number of nested brackets and braces that a value may have. -/
def maxDepth : Nat := 80

def value : Scan Toml := valueWithin maxDepth

/-! ## Documents -/

/-- Reads the key of a header up to its closing brackets. -/
def header (close : List Char) : Scan (List String) := fun cs => do
  let (k, cs) ← key cs
  if close.isPrefixOf cs then some (k, cs.drop close.length) else none

/-- Reads at most `n` lines of a document. -/
def linesFor : Nat → List String → Entries → List Char → Option Entries
  | 0, _, _, _ => none
  | n + 1, current, es, cs =>
    match skipIndent cs with
    | [] => some es
    | '[' :: '[' :: cs => do
      let (k, cs) ← header [']', ']'] cs
      let es ← openElement k es
      let cs ← lineEnd cs
      linesFor n k es cs
    | '[' :: cs => do
      let (k, cs) ← header [']'] cs
      let es ← openTable k es
      let cs ← lineEnd cs
      linesFor n k es cs
    | c :: cs =>
      if c = '#' ∨ c = '\n' ∨ c = '\r' then do
        let cs ← lineEnd (c :: cs)
        linesFor n current es cs
      else do
        let ((k, v), cs) ← keyValue skipIndent value (c :: cs)
        let es ← assignBelow current k v es
        let cs ← lineEnd cs
        linesFor n current es cs

/-- The text without the mark that may stand at its start. -/
def withoutMark : List Char → List Char
  | '\uFEFF' :: cs => cs
  | cs => cs

/-- The table that a document describes. -/
def document (cs : List Char) : Option Entries :=
  linesFor (cs.length + 1) [] [] (withoutMark cs)

end Toml

end RegionNet
