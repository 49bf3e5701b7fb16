import RegionNet.Workflow.Basic

/-!
# Status

How far each region of a workflow has come in a given marking. The state of a region follows from
the tokens around it and from the states of its children, so a report is built from the leaves
upwards; a choice or draw by nature that has taken one branch strikes out all regions of the others.
-/

namespace RegionNet

/-- How far a region has come. -/
inductive Activity where
  | waiting
  | active
  | completed
  /-- Completed, with the token still in front of a decision. -/
  | completedWithoutPassingOver
  /-- Another branch was taken. -/
  | willNotBeExecuted
  deriving DecidableEq, Repr, Inhabited

namespace Activity

/-- The name of an activity in data. -/
def keyword : Activity → String
  | waiting => "waiting"
  | active => "active"
  | completed => "completed"
  | completedWithoutPassingOver => "completed_without_passing_over"
  | willNotBeExecuted => "will_not_be_executed"

def done : Activity → Bool
  | completed => true
  | completedWithoutPassingOver => true
  | _ => false

def started (a : Activity) : Bool := a = active || a.done

/-- Active if the condition holds, else waiting. -/
def activeIf (c : Bool) : Activity := if c then active else waiting

end Activity

/-- The state of a region, and of every region from it downwards. -/
structure Report where
  state : Activity
  entries : List (String × Activity)

namespace Report

/-- The same regions, all struck out. -/
def struckOut (r : Report) : List (String × Activity) :=
  r.entries.map fun (id, _) => (id, .willNotBeExecuted)

/-- The entries of several reports, where only the one at position `chosen`, if any, counts. -/
def merge (chosen : Option Nat) (rs : List Report) : List (String × Activity) :=
  rs.zipIdx.flatMap fun (r, i) =>
    match chosen with
    | some c => if i = c then r.entries else r.struckOut
    | none => r.entries

end Report

namespace Status

variable {α : Type} [Quantity α]

/-- The branch that was taken: the first one under way, or else the first one that was begun. -/
def taken (kind : Kind) (children : List Activity) : Option Nat :=
  match kind with
  | .choice | .nature =>
    (children.findIdx? (· = .active)).or (children.findIdx? Activity.started)
  | _ => none

/-- A token rests where the body of a loop ends, so the loop has to be decided. -/
def decisionPending (m : Marking α) : List Layout → Bool
  | body :: _ => 0 < m.tokens body.info.exit
  | [] => false

/-- The state of a region whose children are in the given states. -/
def stateOf (m : Marking α) (info : RegionInfo) (below : List Layout)
    (children : List Activity) : Activity :=
  let entryMarked : Bool := 0 < m.tokens info.entry
  match info.kind with
  | .task =>
    if entryMarked then .active
    else if 0 < (m.state info.entry).visits then .completed
    else .waiting
  | .sequential =>
    match children with
    | [first, second] =>
      if second.done then second else .activeIf (first.started || second.started)
    | _ => .waiting
  | .parallel =>
    if !children.isEmpty && children.all Activity.done then .completed
    else .activeIf (entryMarked || children.any Activity.started)
  | .choice | .nature =>
    match taken info.kind children with
    | some i => if (children.getD i .waiting).done then .completed else .active
    | none => .activeIf entryMarked
  | .loop =>
    let body := children.headD .waiting
    let pending := decisionPending m below
    if body.done && !pending then .completed
    else .activeIf (body.started || entryMarked || pending)

/-- A token rests where the region ends, and a decision takes it from there. -/
def awaitsDecision (net : Net α) (m : Marking α) (info : RegionInfo) : Bool :=
  0 < m.tokens info.exit && (net.outgoing info.exit).any Transition.stop

/-- A region that is completed in front of a decision has not passed it. -/
def settle (net : Net α) (m : Marking α) (info : RegionInfo) (a : Activity) : Activity :=
  if a = .completed && awaitsDecision net m info then .completedWithoutPassingOver else a

mutual

/-- The state of every region from one region downwards, in document order. -/
def report (net : Net α) (m : Marking α) : Layout → Report
  | .node info cs =>
    let below := reports net m cs
    let states := below.map Report.state
    let state := settle net m info (stateOf m info cs states)
    ⟨state, (info.id, state) :: Report.merge (taken info.kind states) below⟩

def reports (net : Net α) (m : Marking α) : List Layout → List Report
  | [] => []
  | l :: ls => report net m l :: reports net m ls

end

end Status

/-- The state of every region of the workflow, in document order. -/
def Workflow.status {α : Type} [Quantity α] (w : Workflow α) (m : Marking α) :
    List (String × Activity) :=
  (Status.report w.net m w.layout).entries

end RegionNet
