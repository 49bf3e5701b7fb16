import RegionNet.ChoiceList
import RegionNet.Command.Host
import RegionNet.Command.Path
import RegionNet.Command.Request
import RegionNet.Region.Document
import RegionNet.Region.Message
import RegionNet.View.Tree

/-!
# Running requests

What each request does on a host, and what it prints. A request that fails prints one line about the
first thing that went wrong. The exit code is 0 for success, 1 for a failure, and 2 for words that
make no request and for a simulation that stopped before it was over.
-/

namespace RegionNet

/-- What a run of the command line leaves behind. -/
structure Outcome where
  code : Nat
  out : String
  err : String
  deriving DecidableEq, Repr

namespace Command

def usage : String :=
  "Usage: procsim validate REGION\n" ++
  "       procsim compile REGION [--name NAME] [--out FILE]\n" ++
  "       procsim simulate REGION [--config FILE] [--seed SEED] [--strategy counter|duration]\n" ++
  "                               [--choices LIST]... [--out FILE]\n" ++
  "       procsim init-config [PATH] [--force]\n" ++
  "       procsim --version\n"

def version : String := "procsim 0.1.0\n"

/-- The outcome of a failure. -/
def failure (message : String) : Outcome := ⟨1, "", message ++ "\n"⟩

variable {m : Type → Type} [Monad m] [Host m]

/-- Steps that may fail with a message. -/
abbrev Attempt (m : Type → Type) (β : Type) := ExceptT String m β

/-- Adds what was being done to the message of a failure. -/
def during {ε β : Type} (doing : String) (message : ε → String) (r : Except ε β) :
    Except String β :=
  match r with
  | .ok x => .ok x
  | .error e => .error (doing ++ ": " ++ message e)

def lift {β : Type} (action : m (Except String β)) : Attempt m β := ExceptT.mk action

def readRegion (path : String) : Attempt m (Region Float) := do
  let text ← lift (during ("read region " ++ path) FileError.message <$> Host.readFile path)
  during ("parse region " ++ path) Json.ReadError.message (Region.ofDocument text)

/-- Reads a region document and checks what it says. -/
def loadRegion (path : String) : Attempt m (Region Float) := do
  let r ← readRegion path
  during ("invalid region " ++ path) Fault.message r.validate
  return r

/-- Reads a region document and compiles it. -/
def loadWorkflow (path : String) : Attempt m (Workflow Float) := do
  let r ← readRegion path
  during ("invalid region " ++ path) Fault.message (Workflow.compile r)

/-- Reads a configuration; a missing document stands for the default one. -/
def loadConfig (path : String) : Attempt m Config := do
  if ← lift (.ok <$> Host.isPresent path) then
    let text ← lift (during ("read " ++ path) FileError.message <$> Host.readFile path)
    match Config.ofDocument text with
    | .ok c => return c
    | .error .notReadable => throw ("parse " ++ path ++ ": the text is not a configuration")
    | .error (.invalid f) => throw ("invalid config " ++ path ++ ": " ++ f.message)
  else return Config.default

/-- Writes a configuration, which must be valid. The document is first written beside its place and
then moved there, so that no half-written one is ever seen. -/
def writeConfig (path : String) (c : Config) : Attempt m Unit := do
  let text ← match c.document with
    | .ok text => pure text
    | .error f => throw f.message
  let folder ← match Path.parent? path with
    | some folder => pure folder
    | none => throw ("config path missing parent " ++ path)
  lift (during ("create directory " ++ folder) FileError.message <$> Host.makeFolders folder)
  let draft := Path.withExtension path "toml.tmp"
  lift (during ("write temp config " ++ draft) FileError.message <$> Host.writeFile draft text)
  lift (during ("replace config " ++ path) FileError.message <$> Host.moveFile draft path)

/-- Writes a document to a file, or else to the output. -/
def deliver (out : Option String) (v : Json) : Attempt m String := do
  match out with
  | none => return v.document
  | some path =>
    lift (during ("write " ++ path) FileError.message <$> Host.writeFile path v.document)
    return ""

/-- The name of the net in a document. -/
def netName (path : String) : String := (Path.stem? path).getD "net"

def runValidate (region : String) : Attempt m Outcome := do
  let _ ← loadRegion region
  return ⟨0, "ok\n", ""⟩

def runCompile (region : String) (name out : Option String) : Attempt m Outcome := do
  let w ← loadWorkflow region
  let printed ← deliver out (w.netView (name.getD (netName region))).toJson
  return ⟨0, printed, ""⟩

/-- A configuration, where what the command line says counts more. -/
def configure (config : Option String) (seed : Option UInt64) (strategy : Option StrategyKind) :
    Attempt m Config := do
  let c ← match config with
    | some path => loadConfig path
    | none => pure Config.default
  let c := { c with seed := seed.or c.seed, strategy := strategy.getD c.strategy }
  match c.validate with
  | .ok () => return c
  | .error f => throw f.message

/-- Reads the choices for each step. -/
def readChoices (lists : List String) : Except ChoiceError (List (List TransitionId)) :=
  lists.mapM fun s => ChoiceList.read s.toList

def runSimulate (region : String) (config : Option String) (seed : Option UInt64)
    (strategy : Option StrategyKind) (choices : List String) (out : Option String) :
    Attempt m Outcome := do
  let c ← configure config seed strategy
  let scripted ← match readChoices choices with
    | .ok scripted => pure scripted
    | .error e => throw e.message
  let w ← loadWorkflow region
  let seed ← match c.seed with
    | some seed => pure seed
    | none => lift (.ok <$> Host.freshSeed)
  match c.simulate w seed scripted with
  | .error e => throw e.message
  | .ok sim =>
    let printed ← deliver out sim.exploration.view.toJson
    if sim.completed then return ⟨0, printed, ""⟩
    else
      return ⟨2, printed, "simulation stopped before completion (" ++ sim.stop.title ++ ")\n"⟩

def runInitConfig (path : String) (force : Bool) : Attempt m Outcome := do
  if (← lift (.ok <$> Host.isPresent path)) && !force then
    throw (path ++ " already exists (use --force to replace it)")
  writeConfig path Config.default
  return ⟨0, "wrote " ++ path ++ "\n", ""⟩

def runRequest : Request → Attempt m Outcome
  | .help => return ⟨0, usage, ""⟩
  | .version => return ⟨0, version, ""⟩
  | .validate region => runValidate region
  | .compile region name out => runCompile region name out
  | .simulate region config seed strategy choices out =>
    runSimulate region config seed strategy choices out
  | .initConfig path force => runInitConfig path force

/-- Runs what the words on a command line ask for. -/
def run (words : List String) : m Outcome :=
  match Request.ofWords words with
  | none => return ⟨2, "", usage⟩
  | some request => do
    match ← (runRequest request).run with
    | .ok outcome => return outcome
    | .error message => return failure message

end Command

end RegionNet
