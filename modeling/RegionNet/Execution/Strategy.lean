import RegionNet.Execution.Step

/-!
# Strategies

A strategy moves a workflow from one marking to the next. `Strategy.saturate` fires whatever fires
on its own, round by round, until a decision is open or nothing is left to do. `Strategy.consume`
first takes the open decisions, some as the caller chose and the others as a resolver answers, and
then saturates.

A resolver may draw from a source of chance; its state passes through `consume` and comes back also
when the call fails.
-/

namespace RegionNet

/-- Why a call failed. -/
inductive ExecutionError where
  | unknownTransition (t : TransitionId)
  | invalidChoice (t : TransitionId)
  /-- Two choices for one decision. -/
  | conflictingChoices (place : PlaceId) (first second : TransitionId)
  | maxIterations (limit : Nat)
  deriving DecidableEq, Repr

def ExecutionError.message : ExecutionError → String
  | unknownTransition t => "transition " ++ t.name ++ " does not exist"
  | invalidChoice t =>
    "transition " ++ t.name ++ " is not an enabled decision in the current marking"
  | conflictingChoices p first second =>
    "transitions " ++ first.name ++ " and " ++ second.name ++ " both resolve decision place " ++
      p.name
  | maxIterations limit => "saturation did not settle within " ++ toString limit ++ " rounds"

/-- An open decision: a place and the transitions between which to decide. -/
structure DecisionPoint where
  place : PlaceId
  transitions : List TransitionId
  deriving DecidableEq, Repr

/-- A rule that decides what nobody has chosen. -/
structure Resolver (σ α : Type) where
  answer : Workflow α → PlaceId → Marking α → σ → Option TransitionId × σ

structure Strategy (α : Type) where
  timing : Timing α
  /-- After how many rounds saturation is given up. -/
  maxRounds : Nat
  deriving Repr

namespace DecisionPoint

/-- Adds a transition to its decision point, in a list in ascending order of places. -/
def insert (p : PlaceId) (t : TransitionId) : List DecisionPoint → List DecisionPoint
  | [] => [⟨p, [t]⟩]
  | d :: ds =>
    if p = d.place then { d with transitions := d.transitions ++ [t] } :: ds
    else if p.index < d.place.index then ⟨p, [t]⟩ :: d :: ds
    else d :: insert p t ds

end DecisionPoint

variable {α : Type} [Quantity α]

namespace Timing

/-- The open decisions in ascending order of places. -/
def decisionPoints (timing : Timing α) (net : Net α) (m : Marking α) : List DecisionPoint :=
  (net.transitions.filter fun t => t.stop && timing.enabled net t m).foldl (fun points t =>
    match t.decisionPlace with
    | some p => DecisionPoint.insert p t.id points
    | none => points) []

/-- The shortest time after which one more transition is due, if some tokens only wait. -/
def nextWait (timing : Timing α) (net : Net α) (m : Marking α) : Option α :=
  if timing.advancesClock then
    let waits := (net.transitions.filter (net.tokenEnabled · m)).map (net.remainingWait · m)
    match waits.filter fun wait => 0 < wait with
    | [] => none
    | wait :: rest => some (rest.foldl Quantity.smaller wait)
  else none

/-- Saturation of a step that has `budget` left, for at most the given number of rounds. Answers
`none` if it does not settle. -/
def saturateFor (timing : Timing α) (net : Net α) : Nat → Option α → Step α → Option (Step α)
  | 0, _, _ => none
  | rounds + 1, budget, s =>
    let enabled := net.transitions.filter (timing.enabled net · s.marking)
    if enabled.any Transition.stop then some { s with remaining := budget }
    else if enabled.isEmpty then
      match timing.nextWait net s.marking with
      | none => some { s with remaining := budget }
      | some wait =>
        let dt := match budget with
          | none => wait
          | some left => Quantity.smaller wait left
        if dt ≤ 0 then some { s with remaining := budget }
        else
          timing.saturateFor net rounds (budget.map (· - dt))
            { s with marking := s.marking.addTime dt, elapsed := s.elapsed + dt }
    else timing.saturateFor net rounds budget (timing.fireAll net s enabled)

end Timing

/-- Accepts choices that each take an open decision and that do not contradict one another. The
list `earlier` holds the choices accepted so far. -/
def checkChoices (net : Net α) (points : List DecisionPoint) (earlier : List TransitionId) :
    List TransitionId → Except ExecutionError Unit
  | [] => .ok ()
  | t :: rest =>
    if (net.transition? t).isNone then .error (.unknownTransition t)
    else
      match points.find? (·.transitions.contains t) with
      | none => .error (.invalidChoice t)
      | some point =>
        match earlier.find? fun e => point.transitions.contains e && e != t with
        | some first => .error (.conflictingChoices point.place first t)
        | none => checkChoices net points (earlier ++ [t]) rest

namespace Resolver

variable {σ : Type}

/-- The transitions that take the given decisions: chosen ones where there are any, and the
resolver's answers elsewhere. An answer that is not on offer leaves its decision open. -/
def select (resolver : Resolver σ α) (w : Workflow α) (m : Marking α)
    (choices : List TransitionId) : List DecisionPoint → σ → List TransitionId × σ
  | [], s => ([], s)
  | point :: points, s =>
    match choices.find? point.transitions.contains with
    | some t =>
      let (ts, s) := resolver.select w m choices points s
      (t :: ts, s)
    | none =>
      let (answer, s) := resolver.answer w point.place m s
      let (ts, s) := resolver.select w m choices points s
      ((answer.filter point.transitions.contains).toList ++ ts, s)

end Resolver

namespace Strategy

/-- The open decisions. -/
def choices (strategy : Strategy α) (w : Workflow α) (m : Marking α) : List DecisionPoint :=
  strategy.timing.decisionPoints w.net m

/-- Fires what fires on its own until a decision is open or nothing is left to do. -/
def saturate (strategy : Strategy α) (w : Workflow α) (m : Marking α) :
    Except ExecutionError (Step α) :=
  let timing := strategy.timing
  match timing.saturateFor w.net strategy.maxRounds timing.budget (.identity m w.dimensions) with
  | some s => .ok s
  | none => .error (.maxIterations strategy.maxRounds)

/-- Takes the open decisions, then saturates. -/
def consume {σ : Type} (strategy : Strategy α) (resolver : Resolver σ α) (w : Workflow α)
    (m : Marking α) (choices : List TransitionId) (s : σ) : Except ExecutionError (Step α) × σ :=
  let points := strategy.choices w m
  match checkChoices w.net points [] choices with
  | .error e => (.error e, s)
  | .ok () =>
    let (taken, s) := resolver.select w m choices points s
    let decided := strategy.timing.fireAll w.net (.identity m w.dimensions)
      (taken.filterMap w.net.transition?)
    (match strategy.saturate w decided.marking with
      | .error e => .error e
      | .ok rest => .ok (decided.andThen rest), s)

end Strategy

end RegionNet
