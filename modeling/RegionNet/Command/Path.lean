import RegionNet.Text.Split

/-!
# Paths

The parts of a path that names a file: the folder, the last name, and the stem and extension of that
name. A dot at the very start of a name does not start an extension. What is kept of a path keeps
its spelling.
-/

namespace RegionNet.Path

/-- The pieces of a path between its slashes. -/
def pieces (path : String) : List String := (Text.split '/' path.toList).map String.ofList

/-- The path with the given pieces. A lone empty piece stands for the root of all folders. -/
def ofPieces : List String → String
  | [""] => "/"
  | ps => String.intercalate "/" ps

/-- The names along a path. A single dot is the name under which a folder knows itself. -/
def names (path : String) : List String := (pieces path).filter (· ≠ "")

/-- The path begins at the root of all folders. -/
def isAbsolute (path : String) : Bool := path.toList.head? = some '/'

/-- A path that ends in a slash can only lead to a folder. -/
def endsInSlash (path : String) : Bool := path.toList.getLast? = some '/'

/-- The names that every folder has. -/
def isDots (name : String) : Bool := name = "." || name = ".."

/-- The pieces without those at the end that lead nowhere: empty ones and single dots. The first
piece stays, since it says where the path begins. -/
def trimEnd : List String → List String
  | [] => []
  | first :: rest =>
    first :: (rest.reverse.dropWhile fun piece => piece = "" || piece = ".").reverse

/-- The last name, unless it is one that every folder has. -/
def fileName? (path : String) : Option String :=
  (trimEnd (pieces path)).getLast?.filter fun name => name ≠ "" ∧ !isDots name

/-- The characters before and after the last dot, if a name has an extension. -/
def splitExtension (name : List Char) : Option (List Char × List Char) :=
  let after := name.reverse.takeWhile (· ≠ '.')
  match name.reverse.drop after.length with
  | '.' :: before => if before.isEmpty then none else some (before.reverse, after.reverse)
  | _ => none

/-- A name without its extension. -/
def stem (name : String) : String :=
  match splitExtension name.toList with
  | some (before, _) => String.ofList before
  | none => name

/-- The last name without its extension. -/
def stem? (path : String) : Option String := (fileName? path).map stem

/-- Everything before the last name; nothing for the root of all folders. -/
def parent? (path : String) : Option String :=
  match trimEnd (pieces path) with
  | [] => none
  | [""] => none
  | ps => some (ofPieces (trimEnd ps.dropLast))

/-- The path and the folders on the way to it, the innermost first. -/
def ancestors (path : String) : List String := go (pieces path).length path
where
  go : Nat → String → List String
  | 0, _ => []
  | n + 1, path =>
    if path = "" then []
    else path :: match parent? path with
      | some folder => go n folder
      | none => []

/-- The path without the extension at its very end; the dot stays. -/
def withoutExtension (path : String) : String :=
  let ps := pieces path
  match ps.getLast?.bind fun name => splitExtension name.toList with
  | some (before, _) => ofPieces (ps.dropLast ++ [String.ofList before ++ "."])
  | none => path

/-- The path with another extension. The old extension goes first, and if that leaves a path without
a last name, there is nothing to extend. -/
def withExtension (path extension : String) : String :=
  let bare := withoutExtension path
  match stem? bare with
  | some s => ofPieces ((trimEnd (pieces bare)).dropLast ++ [s ++ "." ++ extension])
  | none => bare

example : withExtension "a//b.c" "d" = "a//b.d" ∧ withExtension "a/b/." "d" = "a/b.d" ∧
    withExtension "a/..c" "d" = "a/.." ∧ withExtension "./" "d" = "./" := by
  decide +kernel

example : parent? "./a//b/" = some "./a" ∧ parent? "/a" = some "/" ∧ parent? "/" = none ∧
    parent? "./." = some "" := by
  decide +kernel

end RegionNet.Path
