import RegionNet.Region.Basic

/-!
# Nets

Places and transitions joined by weighted arcs. A transition takes tokens from the places of its
preset and puts tokens on the places of its postset; a place may ask its tokens to rest for some
time first. Both kinds of nodes are numbered, and a net lists each kind in ascending order.
-/

namespace RegionNet

/-- The number of a place. -/
structure PlaceId where
  index : Nat
  deriving DecidableEq, Repr, Inhabited

/-- The number of a transition. -/
structure TransitionId where
  index : Nat
  deriving DecidableEq, Repr, Inhabited

def PlaceId.name (p : PlaceId) : String := "p" ++ toString p.index

def TransitionId.name (t : TransitionId) : String := "t" ++ toString t.index

/-- A place, with what resting on it costs. -/
structure Place (α : Type) where
  id : PlaceId
  /-- The innermost region that starts here. -/
  entryOf : Option String
  /-- The outermost region that ends here. -/
  exitOf : Option String
  /-- How long a token rests before it can be taken. -/
  duration : α
  /-- What taking a token adds to the impacts. -/
  impacts : Option (List α)
  /-- How often a token may leave this place before the loop that it decides must end. -/
  visitLimit : Option Nat
  deriving Repr

/-- What a transition does for its region. -/
inductive Role where
  | task
  | fork
  | join
  | branchEntry
  | branchExit
  | loopEntry
  | loopBack
  | loopExit
  deriving DecidableEq, Repr, Inhabited

/-- The name of a role in data. -/
def Role.keyword : Role → String
  | task => "task"
  | fork => "fork"
  | join => "join"
  | branchEntry => "branch_entry"
  | branchExit => "branch_exit"
  | loopEntry => "loop_entry"
  | loopBack => "loop_back"
  | loopExit => "loop_exit"

structure Transition (α : Type) where
  id : TransitionId
  label : String
  regionId : String
  regionKind : Kind
  role : Role
  probability : α
  /-- Fired only by a decision, never on its own. -/
  stop : Bool
  /-- The branch that it enters or leaves. -/
  branch : Option Nat
  preset : List (PlaceId × Nat)
  postset : List (PlaceId × Nat)
  /-- The places whose visits are forgotten when it fires. -/
  resetVisits : List PlaceId
  deriving Repr

namespace Transition

variable {α : Type}

def inputs (t : Transition α) : List PlaceId := t.preset.map Prod.fst

def outputs (t : Transition α) : List PlaceId := t.postset.map Prod.fst

/-- The place at which a decision for this transition is taken. -/
def decisionPlace (t : Transition α) : Option PlaceId := t.inputs.head?

end Transition

/-- An end of an arc. -/
inductive Node where
  | place (id : PlaceId)
  | transition (id : TransitionId)
  deriving DecidableEq, Repr

def Node.name : Node → String
  | place p => p.name
  | transition t => t.name

structure Arc where
  source : Node
  target : Node
  weight : Nat
  deriving DecidableEq, Repr

structure Net (α : Type) where
  places : List (Place α)
  transitions : List (Transition α)

namespace Net

variable {α : Type}

def empty : Net α := ⟨[], []⟩

def place? (net : Net α) (p : PlaceId) : Option (Place α) := net.places.find? (·.id = p)

def transition? (net : Net α) (t : TransitionId) : Option (Transition α) :=
  net.transitions.find? (·.id = t)

/-- The transitions that take tokens from a place. -/
def outgoing (net : Net α) (p : PlaceId) : List (Transition α) :=
  net.transitions.filter fun t => t.inputs.contains p

/-- All arcs: transition by transition, first those into it. -/
def arcs (net : Net α) : List Arc :=
  net.transitions.flatMap fun t =>
    t.preset.map (fun (p, w) => ⟨.place p, .transition t.id, w⟩) ++
      t.postset.map (fun (p, w) => ⟨.transition t.id, .place p, w⟩)

end Net

end RegionNet
