import RegionNet.Decimal.Layout
import RegionNet.Region.Validity

/-!
# Messages about regions

What is said about a description that breaks a rule. Numbers in messages are written with all their
places and without a point where none is needed.
-/

namespace RegionNet

/-- A number in a message. -/
def showNumber (x : Float) : String := String.ofList (Decimal.write .plain x)

def Arity.message : Arity → String
  | exactly n => "exactly " ++ toString n
  | atLeast n => "at least " ++ toString n

def DistributionFlaw.message : DistributionFlaw Float → String
  | notAList kind => kind.title ++ " distribution must be a list of branch probabilities"
  | wrongLength entries children =>
    "distribution has " ++ toString entries ++ " entries for " ++ toString children ++ " children"
  | outsideUnit => "distribution entries must lie in [0, 1]"
  | wrongSum sum => "distribution sums to " ++ showNumber sum ++ ", expected 1"
  | outsideOpenUnit => "loop probability must lie in (0, 1)"
  | notSingle => "loop distribution must be a single probability"

/-- A message about one region. -/
def aboutRegion (id : String) (text : String) : String := "region '" ++ id ++ "': " ++ text

def Fault.message : Fault Float → String
  | emptyId => "region id must be non-empty"
  | duplicateId id => "duplicate region id '" ++ id ++ "'"
  | invalidDuration id duration =>
    aboutRegion id ("duration must be a finite number >= 0 (got " ++ showNumber duration ++ ")")
  | unexpectedBound id => aboutRegion id "bound is only allowed on Loop regions"
  | unexpectedImpacts id kind => aboutRegion id (kind.title ++ " regions must not have impacts")
  | missingImpacts id => aboutRegion id "Task regions require impacts"
  | invalidImpact id => aboutRegion id "impacts must be finite numbers >= 0"
  | impactLength id expected found =>
    aboutRegion id ("expected " ++ toString expected ++ " impacts, found " ++ toString found)
  | unexpectedChildren id kind => aboutRegion id (kind.title ++ " regions must not have children")
  | childCount id kind expected found =>
    aboutRegion id (kind.title ++ " regions require " ++ expected.message ++ " children, found " ++
      toString found)
  | unexpectedDistribution id kind =>
    aboutRegion id (kind.title ++ " regions must not have a distribution")
  | missingDistribution id kind =>
    aboutRegion id (kind.title ++ " regions require a distribution")
  | invalidDistribution id flaw => aboutRegion id flaw.message
  | missingBound id => aboutRegion id "Loop regions require a bound"
  | invalidBound id bound =>
    aboutRegion id ("bound must be a positive integer (got " ++ showNumber bound ++ ")")
  | malformed id kind => aboutRegion id ("fields do not match a " ++ kind.title ++ " region")

end RegionNet
