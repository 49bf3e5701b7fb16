import RegionNet.Config

/-!
# Requests

What the command line can be asked for, and how the words on it say so: a command, then options and
operands in any order. An option that wants a value takes the next word, which must not look like an
option, or what follows an equals sign; after two dashes every word is an operand.

Words are read from left to right. Asking for help ends the reading: what comes before must be right
as far as it goes, and what comes after does not matter.
-/

namespace RegionNet

inductive Request where
  | help
  | version
  /-- Checks a region document. -/
  | validate (region : String)
  /-- Writes the net of a region document. -/
  | compile (region : String) (name out : Option String)
  /-- Runs a region document. -/
  | simulate (region : String) (config : Option String) (seed : Option UInt64)
      (strategy : Option StrategyKind) (choices : List String) (out : Option String)
  /-- Writes a configuration document. -/
  | initConfig (path : String) (force : Bool)

namespace Request

/-- A word or two of the command line. -/
inductive Item where
  | operand (s : String)
  | option (name value : String)
  | flag (name : String)
  deriving DecidableEq

/-- A word that looks like an option. -/
def dashed (s : String) : Bool := s ≠ "-" && s.toList.head? = some '-'

/-- A word that asks for help: the long option, or short options of which the first does. -/
def asksHelp (w : String) : Bool := w = "--help" || "-h".toList.isPrefixOf w.toList

/-- A word that asks for the version. -/
def asksVersion (w : String) : Bool := w = "--version" || "-V".toList.isPrefixOf w.toList

/-- Puts an item in front of what is read behind it. -/
def consItem (i : Item) (r : Option (List Item × Bool)) : Option (List Item × Bool) :=
  r.map fun (is, wantsHelp) => (i :: is, wantsHelp)

/-- Takes the words apart, up to one that asks for help, where `wantsValue` knows the names of the
options. Also says whether there was such a word. -/
def items (wantsValue : String → Option Bool) : List String → Option (List Item × Bool)
  | [] => some ([], false)
  | "--" :: words => some (words.map .operand, false)
  | w :: words =>
    if asksHelp w then some ([], true)
    else if dashed w then
      let name := String.ofList (w.toList.takeWhile (· ≠ '='))
      match wantsValue name, w.toList.dropWhile (· ≠ '='), words with
      | some true, '=' :: v, words =>
        consItem (.option name (String.ofList v)) (items wantsValue words)
      | some true, _, v :: words =>
        if dashed v then none else consItem (.option name v) (items wantsValue words)
      | some false, [], words => consItem (.flag name) (items wantsValue words)
      | _, _, _ => none
    else consItem (.operand w) (items wantsValue words)

/-- Knows the options that want a value and those that want none. -/
def options (valued plain : List String) (name : String) : Option Bool :=
  if name ∈ valued then some true else if name ∈ plain then some false else none

def operands (is : List Item) : List String :=
  is.filterMap fun i => match i with
    | .operand s => some s
    | _ => none

def values (name : String) (is : List Item) : List String :=
  is.filterMap fun i => match i with
    | .option n v => if n = name then some v else none
    | _ => none

/-- The value of an option that may be given once. -/
def single (name : String) (is : List Item) : Option (Option String) :=
  match values name is with
  | [] => some none
  | [v] => some (some v)
  | _ => none

/-- A path, which must not be empty. -/
def path? (s : String) : Option String := if s = "" then none else some s

/-- The path given by an option. -/
def singlePath (name : String) (is : List Item) : Option (Option String) := do
  match ← single name is with
  | none => some none
  | some s => (path? s).map some

/-- A number of at most 64 bits, with or without a plus sign. -/
def seed? (s : String) : Option UInt64 :=
  let ds := match s.toList with
    | '+' :: ds => ds
    | ds => ds
  let n := valueOfDigits 0 ds
  if ds ≠ [] ∧ ds.all Char.isDigit ∧ n < UInt64.size then some (UInt64.ofNat n) else none

/-- The operand, which may be missing. -/
def operand (is : List Item) : Option (Option String) :=
  match operands is with
  | [] => some none
  | [s] => (path? s).map some
  | _ => none

/-- Help if it was asked for, or else the request. -/
def orHelp (wantsHelp : Bool) (request : Option Request) : Option Request :=
  if wantsHelp then some .help else request

def parseValidate (words : List String) : Option Request := do
  let (is, wantsHelp) ← items (options [] []) words
  let region ← operand is
  orHelp wantsHelp (region.map .validate)

def parseCompile (words : List String) : Option Request := do
  let (is, wantsHelp) ← items (options ["--name", "--out"] []) words
  let region ← operand is
  let name ← single "--name" is
  let out ← singlePath "--out" is
  orHelp wantsHelp (region.map (.compile · name out))

/-- Reads the value of an option, if it is given. -/
def reading {β : Type} (read : String → Option β) : Option String → Option (Option β)
  | none => some none
  | some s => (read s).map some

def parseSimulate (words : List String) : Option Request := do
  let valued := ["--config", "--seed", "--strategy", "--choices", "--out"]
  let (is, wantsHelp) ← items (options valued []) words
  let region ← operand is
  let config ← singlePath "--config" is
  let seed ← reading seed? (← single "--seed" is)
  let strategy ← reading StrategyKind.ofKeyword? (← single "--strategy" is)
  let out ← singlePath "--out" is
  orHelp wantsHelp (region.map (.simulate · config seed strategy (values "--choices" is) out))

/-- The path at which a configuration is written if none is given. -/
def defaultConfigPath : String := "procsim.toml"

def parseInitConfig (words : List String) : Option Request := do
  let (is, wantsHelp) ← items (options [] ["--force"]) words
  let path ← operand is
  let force ← match is.count (.flag "--force") with
    | 0 => some false
    | 1 => some true
    | _ => none
  orHelp wantsHelp (some (.initConfig (path.getD defaultConfigPath) force))

/-- The reader of the words behind a command. -/
def parser? (command : String) : Option (List String → Option Request) :=
  if command = "validate" then some parseValidate
  else if command = "compile" then some parseCompile
  else if command = "simulate" then some parseSimulate
  else if command = "init-config" then some parseInitConfig
  else none

/-- Reads the words behind the command for help: at most one command. -/
def parseHelp : List String → Option Request
  | [] => some .help
  | [command] => if command = "help" ∨ (parser? command).isSome then some .help else none
  | _ => none

/-- The request that the words on a command line make, if they make one. -/
def ofWords : List String → Option Request
  | [] => none
  | w :: words =>
    match parser? w with
    | some parse => parse words
    | none =>
      if w = "help" then parseHelp words
      else if asksHelp w then some .help
      else if asksVersion w then some .version
      else none

end Request

end RegionNet
