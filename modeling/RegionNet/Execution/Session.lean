import RegionNet.Execution.Exploration
import RegionNet.Execution.Strategy

/-!
# Sessions

A workflow explored by hand. A session has a working marking, the step that was computed last, and
an exploration in which steps are recorded only when asked for. The working marking may be changed
freely; going to a recorded node takes it back to that node's marking.
-/

namespace RegionNet

/-- A workflow explored by hand, with the state of the resolver that decides for it. -/
structure Session (σ α : Type) where
  marking : Marking α
  last : Option (Step α)
  exploration : Exploration α
  supply : σ

namespace Session

variable {σ α : Type} [Quantity α]

/-- The session that starts in a marking. Its exploration begins where the workflow does. -/
def start (w : Workflow α) (m : Marking α) (s : σ) : Session σ α := ⟨m, none, .start w, s⟩

def withMarking (session : Session σ α) (m : Marking α) : Session σ α :=
  { session with marking := m }

/-- Takes note of a step, and with `advance` continues from where it ends. -/
def note (session : Session σ α) (step : Step α) (advance : Bool) : Session σ α :=
  { session with
    last := some step
    marking := if advance then step.marking else session.marking }

/-- Takes note of the outcome of a call; a failing call changes nothing. -/
def noteOutcome (session : Session σ α) (outcome : Except ExecutionError (Step α))
    (advance : Bool) : Session σ α :=
  match outcome with
  | .ok step => session.note step advance
  | .error _ => session

/-- Saturates the working marking. -/
def saturate (session : Session σ α) (strategy : Strategy α) (w : Workflow α) (advance : Bool) :
    Except ExecutionError (Step α) × Session σ α :=
  let outcome := strategy.saturate w session.marking
  (outcome, session.noteOutcome outcome advance)

/-- Takes the decisions that are open in the working marking, then saturates. -/
def consume (session : Session σ α) (strategy : Strategy α) (resolver : Resolver σ α)
    (w : Workflow α) (choices : List TransitionId) (advance : Bool) :
    Except ExecutionError (Step α) × Session σ α :=
  let (outcome, s) := strategy.consume resolver w session.marking choices session.supply
  (outcome, { session with supply := s }.noteOutcome outcome advance)

/-- Records the last step below the current node, and with `follow` makes the node that it leads to
the current one. There is nothing to record before the first step. -/
def record (session : Session σ α) (w : Workflow α) (follow : Bool) :
    Option (Nat × Session σ α) :=
  session.last.map fun step =>
    let (node, t) := session.exploration.record w step follow
    (node, { session with exploration := t })

/-- Goes to a recorded node, if there is one of that id. -/
def goTo (session : Session σ α) (id : Nat) : Option (Session σ α) :=
  (session.exploration.node? id).map fun node =>
    { session with
      exploration := session.exploration.moveTo id
      marking := node.snapshot.marking }

end Session

end RegionNet
