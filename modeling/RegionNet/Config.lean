import RegionNet.Decimal.Layout
import RegionNet.Execution.Resolver
import RegionNet.Execution.Simulation
import RegionNet.Random.ChaCha
import RegionNet.Toml.Document

/-!
# Configurations

How a simulation is run: the way of accounting for time, the seed, and the limits. A configuration
is kept as a TOML document in which every key may be missing and unknown ones are ignored.
-/

namespace RegionNet

inductive StrategyKind where
  | counter
  | duration
  deriving DecidableEq, Repr

namespace StrategyKind

def keyword : StrategyKind → String
  | counter => "counter"
  | duration => "duration"

def ofKeyword? (s : String) : Option StrategyKind := [counter, duration].find? (·.keyword = s)

end StrategyKind

structure Config where
  strategy : StrategyKind
  timeStep : Option Float
  seed : Option UInt64
  maxSteps : UInt64
  maxRounds : UInt64
  deriving BEq, Repr

/-- What can be wrong with a configuration. -/
inductive ConfigFault where
  | timeStepNotPositive
  | timeStepWithoutDuration
  | noSteps
  | noRounds
  deriving DecidableEq, Repr

def ConfigFault.message : ConfigFault → String
  | timeStepNotPositive => "time_step must be a positive number"
  | timeStepWithoutDuration => "time_step requires strategy = \"duration\""
  | noSteps => "max_steps must be > 0"
  | noRounds => "max_rounds must be > 0"

/-- Why a document gives no configuration. -/
inductive ConfigError where
  | notReadable
  | invalid (f : ConfigFault)
  deriving DecidableEq, Repr

namespace Config

def default : Config := ⟨.counter, none, none, 1000, 10000⟩

instance : Inhabited Config := ⟨default⟩

/-- The rules for the time step. -/
def timeStepFault (c : Config) : Option ConfigFault :=
  match c.timeStep with
  | none => none
  | some dt =>
    if !dt.isFinite || dt ≤ 0 then some .timeStepNotPositive
    else if c.strategy ≠ .duration then some .timeStepWithoutDuration
    else none

/-- The first rule that a configuration breaks. -/
def fault (c : Config) : Option ConfigFault :=
  c.timeStepFault <|>
  (if c.maxSteps = 0 then some .noSteps else none) <|>
  (if c.maxRounds = 0 then some .noRounds else none)

/-- Accepts a configuration, or reports the first rule that it breaks. -/
def validate (c : Config) : Except ConfigFault Unit :=
  match c.fault with
  | some f => .error f
  | none => .ok ()

/-- How a simulation accounts for time. -/
def timing (c : Config) : Timing Float :=
  match c.strategy with
  | .counter => .counter
  | .duration => .duration c.timeStep

/-- The strategy that a configuration asks for. -/
def execution (c : Config) : Strategy Float := ⟨c.timing, c.maxRounds.toNat⟩

/-- Runs a workflow as configured, where decisions left open draw on the given seed. -/
def simulate (c : Config) (w : Workflow Float) (seed : UInt64)
    (scripted : List (List TransitionId)) : Except SimulationError (Simulation Float) :=
  w.simulate c.execution (.byDefault ChaCha.Stream.source) c.maxSteps.toNat scripted (.ofSeed seed)

/-! ## Reading -/

/-- A strategy: its name, or a table with the name as its only key and nothing under it. -/
def readStrategy : Toml → Option StrategyKind
  | .string s => StrategyKind.ofKeyword? s
  | .table _ [(name, .table _ [])] => StrategyKind.ofKeyword? name
  | .table _ [(name, .array [])] => StrategyKind.ofKeyword? name
  | _ => none

/-- A number; integers of up to 64 bits are numbers, too. -/
def readNumber : Toml → Option Float
  | .scalar (.float x) => some x
  | .scalar (.integer n) =>
    if Int64.minValue.toInt ≤ n ∧ n.toNat < UInt64.size then some (Float.ofInt n) else none
  | _ => none

/-- A count of at most 64 bits. -/
def readCount : Toml → Option UInt64
  | .scalar (.integer n) => (n.toNat?.filter (· < UInt64.size)).map UInt64.ofNat
  | _ => none

/-- The value of a key, or else the given one; nothing if the value cannot be read. -/
def field {β : Type} (es : Toml.Entries) (key : String) (read : Toml → Option β) (missing : β) :
    Option β :=
  match es.get? key with
  | none => some missing
  | some v => read v

/-- The configuration that a table describes. -/
def ofEntries (es : Toml.Entries) : Option Config := do
  let strategy ← field es "strategy" readStrategy default.strategy
  let timeStep ← field es "time_step" (fun v => (readNumber v).map some) default.timeStep
  let seed ← field es "seed" (fun v => (readCount v).map some) default.seed
  let maxSteps ← field es "max_steps" readCount default.maxSteps
  let maxRounds ← field es "max_rounds" readCount default.maxRounds
  some { strategy, timeStep, seed, maxSteps, maxRounds }

/-- Reads a document and checks what it says. -/
def ofDocument (s : String) : Except ConfigError Config :=
  match (Toml.document s.toList).bind ofEntries with
  | none => .error .notReadable
  | some c =>
    match c.validate with
    | .error f => .error (.invalid f)
    | .ok () => .ok c

/-! ## Writing -/

/-- Numbers are written with all places, and whole ones with a point. -/
def numberStyle : Decimal.Style := ⟨none, true⟩

example : Decimal.layout numberStyle ⟨1, 21⟩ = "1000000000000000000000.0".toList := by decide

/-- One line of a document. -/
def line (key : String) (value : List Char) : List Char :=
  key.toList ++ [' ', '=', ' '] ++ value ++ ['\n']

/-- The lines of a document. Keys without a value are left out. -/
def lines (c : Config) : List Char :=
  line "strategy" ('"' :: c.strategy.keyword.toList ++ ['"']) ++
  (match c.timeStep with
    | some dt => line "time_step" (Decimal.write numberStyle dt)
    | none => []) ++
  (match c.seed with
    | some seed => line "seed" (digits seed.toNat)
    | none => []) ++
  line "max_steps" (digits c.maxSteps.toNat) ++
  line "max_rounds" (digits c.maxRounds.toNat)

/-- The document of a configuration, which must be valid. It ends with an empty line. -/
def document (c : Config) : Except ConfigFault String :=
  match c.validate with
  | .error f => .error f
  | .ok () => .ok (String.ofList (c.lines ++ ['\n']))

end Config

end RegionNet
